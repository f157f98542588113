import Myts.Lib.Series

open List

-- Values with times that are read in the order of the times or in the reverse order.
namespace Timeline

variable {τ α : Type} [LinearOrder τ] {asc : Bool} {s t u : τ} {a : Series τ α}

def Before (asc : Bool) (s t : τ) : Prop :=
  if asc then s < t else t < s

instance : Decidable (Before asc s t) :=
  inferInstanceAs (Decidable (if asc then s < t else t < s))

theorem Before.trans (h₁ : Before asc s t) (h₂ : Before asc t u) : Before asc s u := by
  cases asc
  case false => exact lt_trans h₂ h₁
  case true => exact lt_trans h₁ h₂

theorem not_before_self : ¬Before asc t t := by
  cases asc <;> exact lt_irrefl t

theorem Before.ne (h : Before asc s t) : s ≠ t := by
  rintro rfl
  exact not_before_self h

theorem Before.asymm (h : Before asc s t) : ¬Before asc t s :=
  fun h' => not_before_self (h.trans h')

instance irrefl : Std.Irrefl (Before (τ := τ) asc) where
  irrefl _ := not_before_self

instance antisymm : Std.Antisymm (Before (τ := τ) asc) where
  antisymm _ _ h h' := absurd h' h.asymm

theorem before_or_eq_or_before (asc : Bool) (s t : τ) :
    Before asc s t ∨ s = t ∨ Before asc t s := by
  cases asc
  case false => exact (lt_trichotomy t s).imp_right (.imp_left Eq.symm)
  case true => exact lt_trichotomy s t

theorem eq_or_before_trans (h₁ : t = s ∨ Before asc s t) (h₂ : u = t ∨ Before asc t u) :
    u = s ∨ Before asc s u := by
  rcases h₁ with rfl | h₁
  · exact h₂
  · rcases h₂ with rfl | h₂
    · exact .inr h₁
    · exact .inr (h₁.trans h₂)

def Ordered (asc : Bool) (a : Series τ α) : Prop :=
  a.Pairwise fun p q => Before asc p.1 q.1

instance : Decidable (Ordered asc a) :=
  inferInstanceAs (Decidable (a.Pairwise _))

def after (asc : Bool) (t : τ) (a : Series τ α) : Series τ α :=
  a.filter fun p => Before asc t p.1

theorem mem_after {p : τ × α} : p ∈ after asc t a ↔ p ∈ a ∧ Before asc t p.1 := by
  simp [after]

theorem lookup_after (h : Before asc s t) : (after asc s a).lookup t = a.lookup t := by
  induction a
  case nil => rfl
  case cons p a hi =>
    by_cases ht : t = p.1
    · subst ht
      rw [after, filter_cons_of_pos (by simpa using h), lookup_cons, lookup_cons,
        beq_self_eq_true]
    · rw [after, filter_cons]
      split
      · rw [lookup_cons, lookup_cons, beq_false_of_ne ht]
        exact hi
      · rw [lookup_cons, beq_false_of_ne ht]
        exact hi

theorem after_cons_self (h : Ordered asc ((t, v) :: a)) : after asc t ((t, v) :: a) = a := by
  rw [after, filter_cons_of_neg (by simpa using not_before_self)]
  exact filter_eq_self.mpr fun p hp => by simpa using rel_of_pairwise_cons h hp

theorem after_cons_of_before (h : Before asc s t) :
    after asc t ((s, v) :: a) = after asc t a :=
  filter_cons_of_neg (by simpa using h.asymm)

theorem after_of_before (h : Ordered asc ((t, v) :: a)) (hs : Before asc s t) :
    after asc s ((t, v) :: a) = (t, v) :: a := by
  refine filter_eq_self.mpr fun p hp => ?_
  rcases mem_cons.mp hp with rfl | hp
  · simpa using hs
  · simpa using hs.trans (rel_of_pairwise_cons h hp)

theorem lookup_of_before (h : Ordered asc ((t, v) :: a)) (hs : Before asc s t) :
    ((t, v) :: a).lookup s = none := by
  rw [lookup_eq_none_iff]
  intro p hp
  rcases mem_cons.mp hp with rfl | hp
  · exact bne_iff_ne.mpr hs.ne
  · exact bne_iff_ne.mpr (hs.trans (rel_of_pairwise_cons h hp)).ne

section Union

variable {l : List (Series τ α)}

def union (asc : Bool) (l : List (Series τ α)) : List τ :=
  let times := (l.flatMap (·.map Prod.fst)).dedup
  if asc then times.insertionSort (· ≤ ·) else times.insertionSort (· ≥ ·)

theorem mem_union : t ∈ union asc l ↔ ∃ a ∈ l, ∃ v, (t, v) ∈ a := by
  unfold union
  cases asc <;> simp

theorem nodup_union : (union asc l).Nodup := by
  have h := nodup_dedup (l.flatMap (·.map Prod.fst))
  unfold union
  cases asc
  case false => exact (perm_insertionSort _ _).nodup_iff.mpr h
  case true => exact (perm_insertionSort _ _).nodup_iff.mpr h

theorem pairwise_union : (union asc l).Pairwise (Before asc) := by
  have hn : (union asc l).Nodup := nodup_union
  unfold union at hn ⊢
  cases asc
  case false =>
    have hs := pairwise_insertionSort (· ≥ ·) (l.flatMap (·.map Prod.fst)).dedup
    exact (hs.and hn).imp fun h => lt_of_le_of_ne h.1 h.2.symm
  case true =>
    have hs := pairwise_insertionSort (· ≤ ·) (l.flatMap (·.map Prod.fst)).dedup
    exact (hs.and hn).imp fun h => lt_of_le_of_ne h.1 h.2

theorem union_eq_cons (ht : t ∈ union asc l) (hf : ∀ s ∈ union asc l, s = t ∨ Before asc t s) :
    union asc l = t :: union asc (l.map (after asc t)) := by
  have hm : ∀ s, s ∈ union asc (l.map (after asc t)) ↔ s ∈ union asc l ∧ Before asc t s := by
    intro s
    simp only [mem_union, mem_map, exists_exists_and_eq_and, mem_after]
    exact ⟨fun ⟨a, ha, v, hv, hs⟩ => ⟨⟨a, ha, v, hv⟩, hs⟩,
      fun ⟨⟨a, ha, v, hv⟩, hs⟩ => ⟨a, ha, v, hv, hs⟩⟩
  refine List.Pairwise.eq_of_mem_iff pairwise_union ?_ ?_
  · exact .cons (fun s hs => ((hm s).mp hs).2) pairwise_union
  · intro s
    rw [mem_cons, hm]
    constructor
    · intro hs
      exact (hf s hs).imp_right fun h => ⟨hs, h⟩
    · rintro (rfl | ⟨hs, _⟩)
      · exact ht
      · exact hs

end Union

end Timeline
