import Mathlib

open List

-- What a computation can do to the state, given as a relation between the state before and after.
namespace Frame

def final : EStateM.Result ε σ α → σ
  | .ok _ s => s
  | .error _ s => s

@[simp]
theorem final_ok : final (.ok a s : EStateM.Result ε σ α) = s :=
  rfl

@[simp]
theorem final_error : final (.error e s : EStateM.Result ε σ α) = s :=
  rfl

def ok? : EStateM.Result ε σ α → Option (α × σ)
  | .ok a s => some (a, s)
  | .error _ _ => none

theorem of_mem_ok? {r : EStateM.Result ε σ α} (h : as ∈ ok? r) : r = .ok as.1 as.2 := by
  cases r <;> cases h
  rfl

theorem bind_ok {m : EStateM ε σ α} {f : α → EStateM ε σ β} (h : m s = .ok a s') :
    (m >>= f) s = f a s' := by
  change EStateM.bind m f s = _
  simp only [EStateM.bind, h]

theorem bind_error {m : EStateM ε σ α} {f : α → EStateM ε σ β} (h : m s = .error e s') :
    (m >>= f) s = .error e s' := by
  change EStateM.bind m f s = _
  simp only [EStateM.bind, h]

theorem of_bind_eq_ok {m : EStateM ε σ α} {f : α → EStateM ε σ β} (h : (m >>= f) s = .ok b s'') :
    ∃ a s', m s = .ok a s' ∧ f a s' = .ok b s'' := by
  cases hm : m s
  case ok a s' => exact ⟨a, s', rfl, (bind_ok hm).symm.trans h⟩
  case error e s' => cases (bind_error hm).symm.trans h

theorem final_bind {P : σ → Prop} {m : EStateM ε σ α} {f : α → EStateM ε σ β} (hm : P (final (m s)))
    (hf : ∀ a s', m s = .ok a s' → P s' → P (final (f a s'))) : P (final ((m >>= f) s)) := by
  cases h : m s <;> rw [h] at hm
  case ok a s' => exact bind_ok h ▸ hf a s' h hm
  case error e s' => exact bind_error h ▸ hm

def Within (R : σ → σ → Prop) (m : EStateM ε σ α) : Prop :=
  ∀ s, R s (final (m s))

namespace Within

variable {R : σ → σ → Prop}

theorem modify (h : ∀ s, R s (f s)) : Within R (modify f : EStateM ε σ Unit) :=
  h

section Refl

variable [Std.Refl R]

theorem pure (a : α) : Within R (pure a : EStateM ε σ α) :=
  fun s => refl_of R s

theorem throw (e : ε) : Within R (throw e : EStateM ε σ α) :=
  fun s => refl_of R s

theorem get : Within R (get : EStateM ε σ σ) :=
  fun s => refl_of R s

end Refl

section Trans

variable [IsTrans σ R]

theorem bind {m : EStateM ε σ α} {f : α → EStateM ε σ β} (hm : Within R m)
    (hf : ∀ a, Within R (f a)) : Within R (m >>= f) := by
  intro s
  specialize hm s
  cases h : m s <;> rw [h] at hm
  case ok a s' => exact bind_ok h ▸ trans_of R hm (hf a s')
  case error e s' => exact bind_error h ▸ hm

end Trans
end Within

def Keeps (p : σ → β) (s s' : σ) : Prop :=
  p s' = p s

instance : Std.Refl (Keeps p) := ⟨fun _ => rfl⟩

instance : IsTrans σ (Keeps p) := ⟨fun _ _ _ h₁ h₂ => Eq.trans h₂ h₁⟩

def Ensures (R : σ → σ → Prop) (Q : α → Prop) (m : EStateM ε σ α) : Prop :=
  ∀ s, R s (final (m s)) ∧ ∀ a s', m s = .ok a s' → Q a

namespace Ensures

variable {R : σ → σ → Prop} {Q : α → Prop}

theorem of_within {m : EStateM ε σ α} (h : Within R m) : Ensures R (fun _ => True) m :=
  fun s => ⟨h s, fun _ _ _ => trivial⟩

theorem within {m : EStateM ε σ α} (h : Ensures R Q m) : Within R m :=
  fun s => (h s).left

theorem pure [Std.Refl R] (h : Q a) : Ensures R Q (pure a : EStateM ε σ α) := by
  refine fun s => ⟨refl_of R s, fun b s' hb => ?_⟩
  cases hb
  exact h

variable [IsTrans σ R]

theorem bind {m : EStateM ε σ α} {f : α → EStateM ε σ β} {Q' : β → Prop} (hm : Ensures R Q m)
    (hf : ∀ a, Q a → Ensures R Q' (f a)) : Ensures R Q' (m >>= f) := by
  intro s
  have ⟨hr, hq⟩ := hm s
  cases h : m s <;> rw [h] at hr
  case ok a s' =>
    have ⟨hr', hq'⟩ := hf a (hq a s' h) s'
    exact bind_ok h ▸ ⟨trans_of R hr hr', hq'⟩
  case error e s' => exact bind_error h ▸ ⟨hr, fun _ _ h => nomatch h⟩

theorem mapM [Std.Refl R] {f : ι → EStateM ε σ α} {l : List ι} (h : ∀ i ∈ l, Ensures R Q (f i)) :
    Ensures R (fun as => ∀ a ∈ as, Q a) (l.mapM f) := by
  induction l
  case nil => exact pure nofun
  case cons i l hi =>
    have ⟨h₁, h₂⟩ := forall_mem_cons.mp h
    rw [mapM_cons]
    refine h₁.bind fun a ha => (hi h₂).bind fun as has => pure ?_
    exact forall_mem_cons.mpr ⟨ha, has⟩

end Ensures

theorem final_mapM {R : σ → σ → Prop} [Std.Refl R] [IsTrans σ R] {E : σ → Prop}
    {f : ι → EStateM ε σ α} {l : List ι} (hR : ∀ i, Within R (f i))
    (hE : ∀ {s s'}, R s s' → E s → E s') (hs : ∀ i ∈ l, ∀ s, ∃ a s', f i s = .ok a s')
    (hi : i ∈ l) (he : ∀ s, E (final (f i s))) (s : σ) : E (final (l.mapM f s)) := by
  induction l generalizing s
  case nil => cases hi
  case cons j l ih =>
    have ⟨h₁, h₂⟩ := forall_mem_cons.mp hs
    have ⟨a, s', h⟩ := h₁ s
    rw [mapM_cons, bind_ok h]
    have hl : Within R (l.mapM f) := (Ensures.mapM fun i _ => .of_within (hR i)).within
    have keeps {x : σ} (hx : E (final (l.mapM f x))) :
        E (final ((l.mapM f >>= fun as => Pure.pure (a :: as)) x)) :=
      final_bind hx fun _ _ _ h => h
    rcases mem_cons.mp hi with rfl | hi
    case inl =>
      have hs' : E s' := by simpa [h] using he s
      exact keeps (hE (hl s') hs')
    case inr => exact keeps (ih h₂ hi s')

theorem of_mapM_eq_ok {I : σ → Prop} {f : ι → EStateM ε σ α} {l : List ι}
    (hI : ∀ i s, I s → I (final (f i s))) (hs : I s) (h : l.mapM f s = .ok as s') (hi : i ∈ l) :
    ∃ s₁ a s₂, I s₁ ∧ f i s₁ = .ok a s₂ := by
  induction l generalizing s as s'
  case nil => cases hi
  case cons j l ih =>
    rw [mapM_cons] at h
    have ⟨a, s₁, h₁, h⟩ := of_bind_eq_ok h
    have ⟨as', s₂, h₂, _⟩ := of_bind_eq_ok h
    rcases mem_cons.mp hi with rfl | hi
    case inl => exact ⟨s, a, s₁, hs, h₁⟩
    case inr =>
      have hs₁ : I s₁ := by simpa [h₁] using hI j s hs
      exact ih hs₁ h₂ hi

theorem mapM_eq_ok {f : ι → EStateM ε σ α} {g : ι → α} {l : List ι}
    (h : ∀ i ∈ l, f i s = .ok (g i) s) : l.mapM f s = .ok (l.map g) s := by
  induction l
  case nil => rfl
  case cons i l hi =>
    have ⟨h₁, h₂⟩ := forall_mem_cons.mp h
    rw [mapM_cons, bind_ok h₁, bind_ok (hi h₂)]
    rfl

end Frame
