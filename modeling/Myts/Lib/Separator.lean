import Mathlib

open List

-- Two lists that are joined with a separator between them and split at its first occurrence.
namespace Separator

variable {sep l s t : List α}

theorem isPrefix_drop_iff (h : i < s.length) :
    sep <+: (s ++ sep ++ t).drop i ↔ sep <+: s.drop i ++ sep := by
  rw [append_assoc, drop_append_of_le_length h.le, ← append_assoc]
  refine ⟨fun hp => ?_, fun hp => hp.trans (prefix_append _ t)⟩
  exact prefix_of_prefix_length_le hp (prefix_append _ t) (by simp)

variable [DecidableEq α]

def index (sep : List α) : List α → Option Nat
  | [] => if sep <+: [] then some 0 else none
  | a :: l => if sep <+: a :: l then some 0 else (index sep l).map (· + 1)

def split (sep l : List α) : List α × List α :=
  match index sep l with
  | none => (l, [])
  | some i => (l.take i, l.drop (i + sep.length))

def Clean (sep s : List α) : Prop :=
  ∀ i < s.length, ¬sep <+: s.drop i ++ sep

instance : Decidable (Clean sep s) :=
  inferInstanceAs (Decidable (∀ i < s.length, _))

theorem index_of_isPrefix (h : sep <+: l) : index sep l = some 0 := by
  cases l
  case nil => exact if_pos h
  case cons a l => exact if_pos h

theorem index_cons_of_not_isPrefix (h : ¬sep <+: a :: l) :
    index sep (a :: l) = (index sep l).map (· + 1) :=
  if_neg h

theorem index_append_iff :
    index sep (s ++ sep ++ t) = some s.length ↔ ∀ i < s.length, ¬sep <+: (s ++ sep ++ t).drop i := by
  induction s
  case nil =>
    refine iff_of_true (index_of_isPrefix ?_) (fun i hi => absurd hi (Nat.not_lt_zero i))
    exact prefix_append sep t
  case cons a s hi =>
    by_cases hp : sep <+: a :: (s ++ sep ++ t)
    · refine iff_of_false ?_ fun h => h 0 (Nat.zero_lt_succ _) hp
      rw [cons_append, cons_append, index_of_isPrefix hp]
      simp
    · rw [cons_append, cons_append, index_cons_of_not_isPrefix hp, length_cons,
        Option.map_eq_some_iff]
      simp only [Nat.add_right_cancel_iff, exists_eq_right, hi]
      constructor
      case mp =>
        intro h i hl
        cases i
        case zero => exact hp
        case succ i => exact h i (Nat.lt_of_succ_lt_succ hl)
      case mpr => exact fun h i hl => h (i + 1) (Nat.succ_lt_succ hl)

theorem exists_index_append (sep s t : List α) :
    ∃ i ≤ s.length, index sep (s ++ sep ++ t) = some i := by
  induction s
  case nil => exact ⟨0, le_rfl, index_of_isPrefix (prefix_append sep t)⟩
  case cons a s hi =>
    by_cases hp : sep <+: a :: (s ++ sep ++ t)
    · exact ⟨0, Nat.zero_le _, index_of_isPrefix hp⟩
    · have ⟨i, hl, hs⟩ := hi
      refine ⟨i + 1, Nat.succ_le_succ hl, (index_cons_of_not_isPrefix hp).trans ?_⟩
      rw [hs]
      rfl

theorem split_append_iff : split sep (s ++ sep ++ t) = (s, t) ↔ Clean sep s := by
  have hc : Clean sep s ↔ index sep (s ++ sep ++ t) = some s.length := by
    rw [index_append_iff]
    exact forall₂_congr fun i hi => not_congr (isPrefix_drop_iff hi).symm
  have ⟨i, hl, hi⟩ := exists_index_append sep s t
  rw [hc, split, hi]
  constructor
  case mp =>
    intro h
    have hn := congrArg List.length (Prod.ext_iff.mp h).left
    simp only [length_take, length_append] at hn
    exact congrArg some (by omega)
  case mpr =>
    intro h
    cases h
    simp [append_assoc]

theorem Clean.append_inj (h₁ : Clean sep s) (h₂ : Clean sep s')
    (h : s ++ sep ++ t = s' ++ sep ++ t') : s = s' ∧ t = t' := by
  have he := congrArg (split sep) h
  rw [split_append_iff.mpr h₁, split_append_iff.mpr h₂] at he
  exact Prod.ext_iff.mp he

end Separator
