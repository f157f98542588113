import Mathlib

open List

namespace Slice

def lastIdx? (p : α → Bool) : List α → Option Nat
  | [] => none
  | a :: l =>
    match lastIdx? p l with
    | some i => some (i + 1)
    | none => if p a then some 0 else none

theorem lastIdx?_eq_none {l : List α} : lastIdx? p l = none ↔ ∀ a ∈ l, p a = false := by
  induction l
  case nil => simp [lastIdx?]
  case cons a l hi => cases h : lastIdx? p l <;> cases ha : p a <;> simp_all [lastIdx?]

theorem lastIdx?_eq_some {l : List α} (h : lastIdx? p l = some i) : ∃ a, l[i]? = some a ∧ p a := by
  induction l generalizing i
  case nil => simp [lastIdx?] at h
  case cons a l hi =>
    cases hl : lastIdx? p l
    case some j =>
      simp only [lastIdx?, hl, Option.some.injEq] at h
      exact h ▸ hi hl
    case none =>
      simp only [lastIdx?, hl, Option.ite_none_right_eq_some, Option.some.injEq] at h
      exact ⟨a, h.right ▸ rfl, h.left⟩

theorem exists_of_forall₂ (h : List.Forall₂ R l l') (hb : b ∈ l') : ∃ a ∈ l, R a b := by
  induction h
  case nil => cases hb
  case cons a b' l l' ha h hi =>
    rcases mem_cons.mp hb with rfl | hb
    case inl => exact ⟨a, mem_cons_self, ha⟩
    case inr =>
      obtain ⟨c, hc, hr⟩ := hi hb
      exact ⟨c, mem_cons_of_mem a hc, hr⟩

theorem pairwise_of_forall₂ {S : α → α → Prop} {T : β → β → Prop} (h : List.Forall₂ R l l')
    (hp : l.Pairwise S) (hs : ∀ {a b a' b'}, R a a' → R b b' → S a b → T a' b') : l'.Pairwise T := by
  induction h
  case nil => exact .nil
  case cons a a' l l' ha h hi =>
    obtain ⟨hl, hp⟩ := pairwise_cons.mp hp
    refine pairwise_cons.mpr ⟨fun b' hb' => ?_, hi hp⟩
    obtain ⟨b, hb, hr⟩ := exists_of_forall₂ h hb'
    exact hs ha hr <| hl b hb

theorem flatMap_modify_perm {l : List α} {h : α → List β} (hi : l[i]? = some a)
    (hf : (h (f a)).Perm (h a ++ x)) : ((l.modify i f).flatMap h).Perm (l.flatMap h ++ x) := by
  induction l generalizing i
  case nil => simp at hi
  case cons b l hl =>
    cases i
    case zero =>
      obtain rfl : b = a := by simpa using hi
      simp only [modify_zero_cons, flatMap_cons, append_assoc]
      refine (hf.append_right _).trans ?_
      rw [append_assoc]
      exact perm_append_comm.append_left _
    case succ i =>
      simp only [modify_succ_cons, flatMap_cons, append_assoc]
      exact (hl <| by simpa using hi).append_left _

theorem flatMap_modify_eq {l : List α} {h : α → List β} (hf : ∀ a, h (f a) = h a) :
    (l.modify i f).flatMap h = l.flatMap h := by
  induction l generalizing i
  case nil => cases i <;> rfl
  case cons a l hi =>
    cases i
    case zero => simp [hf]
    case succ i => simp [hi]

-- What a loop has made of the value it works on and of the rest of the state when it ends. An error
-- is a return from within the loop.
structure Loop (α : Type u) (σ : Type v) (ε : Type w) where
  value : α
  state : σ
  err : Option ε
deriving DecidableEq

namespace Loop

@[simps]
def map (f : α → β) (r : Loop α σ ε) : Loop β σ ε where
  value := f r.value
  state := r.state
  err := r.err

end Loop

def each (f : α → σ → Loop α σ ε) : List α → σ → Loop (List α) σ ε
  | [], s => { value := [], state := s, err := none }
  | a :: l, s =>
    let r := f a s
    match r.err with
    | some e => { value := r.value :: l, state := r.state, err := some e }
    | none => (each f l r.state).map (r.value :: ·)

variable {f g : α → σ → Loop α σ ε}

theorem each_congr (h : ∀ a ∈ l, ∀ s, f a s = g a s) : each f l s = each g l s := by
  induction l generalizing s
  case nil => rfl
  case cons a l hi =>
    have ha : f a s = g a s := h a mem_cons_self s
    simp only [each, ha, hi fun b hb => h b <| mem_cons_of_mem a hb]

theorem each_ok (hf : ∀ a ∈ l, ∀ s, (f a s).err = none ∧ (f a s).value = v a) :
    (each f l s).err = none ∧ (each f l s).value = l.map v := by
  induction l generalizing s
  case nil => exact ⟨rfl, rfl⟩
  case cons a l hi =>
    obtain ⟨ha, hl⟩ := forall_mem_cons.mp hf
    simp [each, ha s, hi hl]

theorem each_map_eq {h : α → β} (hf : ∀ a s, h (f a s).value = h a) :
    (each f l s).value.map h = l.map h := by
  induction l generalizing s
  case nil => rfl
  case cons a l hi => cases ha : (f a s).err <;> simp [each, ha, hf, hi]

theorem each_append_of_err (h : (each f l₁ s).err = some e) :
    each f (l₁ ++ l₂) s = (each f l₁ s).map (· ++ l₂) := by
  induction l₁ generalizing s
  case nil => simp [each] at h
  case cons a l hi =>
    cases ha : (f a s).err
    case some => simp [each, ha, Loop.map]
    case none =>
      simp only [each, ha, Loop.map_err] at h
      simp [each, ha, hi h, Loop.map]

theorem each_append_of_ok (h : (each f l₁ s).err = none) :
    each f (l₁ ++ l₂) s = (each f l₂ (each f l₁ s).state).map ((each f l₁ s).value ++ ·) := by
  induction l₁ generalizing s
  case nil => rfl
  case cons a l hi =>
    cases ha : (f a s).err
    case some => simp [each, ha] at h
    case none =>
      simp only [each, ha, Loop.map_err] at h
      simp [each, ha, hi h, Loop.map]

-- Two nested loops are one loop over all inner elements.
section Nested

variable {parts : β → List α} {put : β → List α → β}

def nested (parts : β → List α) (put : β → List α → β) (f : α → σ → Loop α σ ε) (b : β) (s : σ) :
    Loop β σ ε :=
  (each f (parts b) s).map (put b)

theorem nested_ok (put : β → List α → β)
    (hf : ∀ a ∈ parts b, ∀ s, (f a s).err = none ∧ (f a s).value = v a) (s : σ) :
    (nested parts put f b s).err = none
      ∧ (nested parts put f b s).value = put b ((parts b).map v) := by
  have ⟨he, hv⟩ := each_ok (s := s) hf
  exact ⟨he, by rw [nested, Loop.map_value, hv]⟩

theorem each_nested (hp : ∀ b l, parts (put b l) = l) (bs : List β) (s : σ) :
    (each (nested parts put f) bs s).map (·.flatMap parts) = each f (bs.flatMap parts) s := by
  induction bs generalizing s
  case nil => rfl
  case cons b bs hi =>
    rw [flatMap_cons]
    cases hb : (each f (parts b) s).err
    case some => simp [each, nested, hb, hp, each_append_of_err hb, Loop.map]
    case none =>
      simp [each, nested, hb, each_append_of_ok hb, ← hi, Loop.map, hp]

end Nested

-- Loops in which neither the new elements nor the error depend on the rest of the state.
section Separate

variable {v : α → α} {t : σ → α → σ} {err : α → Option ε}

def separate (v : α → α) (t : σ → α → σ) (err : α → Option ε) (a : α) (s : σ) : Loop α σ ε where
  value := v a
  state := t s a
  err := err a

def visited (err : α → Option ε) : List α → List α
  | [] => []
  | a :: l => a :: if (err a).isSome then [] else visited err l

theorem mem_of_mem_visited (h : a ∈ visited err l) : a ∈ l := by
  induction l
  case nil => exact h
  case cons b l hi =>
    rw [visited, mem_cons] at h
    rcases h with rfl | h
    case inl => exact mem_cons_self
    case inr =>
      split at h
      case isTrue => cases h
      case isFalse => exact mem_cons_of_mem b <| hi h

theorem each_separate_err : (each (separate v t err) l s).err = l.findSome? err := by
  induction l generalizing s
  case nil => rfl
  case cons a l hi => cases ha : err a <;> simp [each, separate, ha, hi]

theorem each_separate_state :
    (each (separate v t err) l s).state = (visited err l).foldl t s := by
  induction l generalizing s
  case nil => rfl
  case cons a l hi => cases ha : err a <;> simp [each, separate, visited, ha, ← hi]

theorem each_separate_value (h : ∀ a ∈ l, err a = none) :
    (each (separate v t err) l s).value = l.map v := by
  induction l generalizing s
  case nil => rfl
  case cons a l hi =>
    have ha : err a = none := h a mem_cons_self
    simp [each, separate, ha, hi fun b hb => h b <| mem_cons_of_mem a hb]

theorem visited_eq_self (h : ∀ a ∈ l, err a = none) : visited err l = l := by
  induction l
  case nil => rfl
  case cons a l hi =>
    simp [visited, h a mem_cons_self, hi fun b hb => h b <| mem_cons_of_mem a hb]

end Separate

end Slice
