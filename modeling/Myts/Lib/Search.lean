import Mathlib

open List

-- Binary search for the first index from which on a predicate holds.
namespace Search

def go (p : Nat → Bool) : (fuel i j : Nat) → Nat
  | 0, i, _ => i
  | fuel + 1, i, j =>
    if i < j then
      let h := (i + j) / 2
      if p h then go p fuel i h else go p fuel (h + 1) j
    else
      i

-- `sort.Search`. The range gets smaller with every step, so that there are at most `n` steps.
def search (n : Nat) (p : Nat → Bool) : Nat :=
  go p n 0 n

structure Between (p : Nat → Bool) (n i j : Nat) : Prop where
  le : i ≤ j
  below : ∀ k < i, p k = false
  above : ∀ k, j ≤ k → k < n → p k = true

theorem go_between (hm : ∀ a b, a ≤ b → b < n → p a → p b) (h : Between p n i j) (hj : j ≤ n)
    (hf : j - i ≤ fuel) : Between p n (go p fuel i j) (go p fuel i j) := by
  induction fuel generalizing i j
  case zero =>
    have hij : i = j := by have := h.le; omega
    exact { le := le_rfl, below := h.below, above := hij ▸ h.above }
  case succ fuel hi =>
    rw [go]
    split
    case isFalse hij =>
      have hij : i = j := by have := h.le; omega
      exact { le := le_rfl, below := h.below, above := hij ▸ h.above }
    case isTrue hij =>
      dsimp only
      generalize hk : (i + j) / 2 = k
      split
      case isTrue hp =>
        refine hi ⟨by omega, h.below, fun l hl hn => hm k l hl hn hp⟩ (by omega) (by omega)
      case isFalse hp =>
        refine hi ⟨by omega, fun l hl => ?_, h.above⟩ hj (by omega)
        by_contra hl'
        exact hp <| hm l k (by omega) (by omega) <| by simpa using hl'

theorem search_between (hm : ∀ a b, a ≤ b → b < n → p a → p b) :
    Between p n (search n p) (search n p) :=
  go_between hm ⟨Nat.zero_le n, nofun, fun _ hk hn => (hn.not_ge hk).elim⟩ le_rfl le_rfl

theorem go_le (h : i ≤ j) : go p fuel i j ≤ j := by
  induction fuel generalizing i j
  case zero => exact h
  case succ fuel hi =>
    rw [go]
    split
    case isFalse => exact h
    case isTrue hij =>
      dsimp only
      split
      case isTrue => exact (hi (by omega)).trans (by omega)
      case isFalse => exact hi (by omega)

theorem search_le : search n p ≤ n :=
  go_le (Nat.zero_le n)

theorem le_go : i ≤ go p fuel i j := by
  induction fuel generalizing i j
  case zero => exact le_rfl
  case succ fuel hi =>
    rw [go]
    split
    case isFalse => exact le_rfl
    case isTrue hij =>
      dsimp only
      split
      case isTrue => exact hi
      case isFalse => exact le_trans (by omega) (hi (i := (i + j) / 2 + 1))

theorem search_anti (h : ∀ k, q k → p k) : search n p ≤ search n q := by
  have hg (fuel) : ∀ i j, go p fuel i j ≤ go q fuel i j := by
    induction fuel
    case zero => exact fun _ _ => le_rfl
    case succ fuel hi =>
      intro i j
      rw [go, go]
      split
      case isFalse => exact le_rfl
      case isTrue hij =>
        dsimp only
        by_cases hq : q ((i + j) / 2)
        case pos => rw [if_pos hq, if_pos (h _ hq)]; exact hi _ _
        case neg =>
          rw [if_neg hq]
          split
          case isTrue => exact (go_le (by omega)).trans <| le_trans (by omega) le_go
          case isFalse => exact hi _ _
  exact hg n 0 n

theorem exists_of_search_lt (h : search n p < search n q) : ∃ k < n, p k ∧ ¬q k := by
  have hg (fuel) : ∀ i j, j ≤ n → go p fuel i j < go q fuel i j → ∃ k < n, p k ∧ ¬q k := by
    induction fuel
    case zero => exact fun _ _ _ h => absurd h (lt_irrefl _)
    case succ fuel hi =>
      intro i j hj h
      rw [go, go] at h
      split at h
      case isFalse => exact absurd h (lt_irrefl _)
      case isTrue hij =>
        dsimp only at h
        by_cases hp : p ((i + j) / 2) <;> by_cases hq : q ((i + j) / 2)
        case pos => rw [if_pos hp, if_pos hq] at h; exact hi _ _ (by omega) h
        case neg => exact ⟨(i + j) / 2, by omega, hp, hq⟩
        case neg => rw [if_neg hp, if_neg hq] at h; exact hi _ _ hj h
        case pos =>
          rw [if_neg hp, if_pos hq] at h
          have h₁ : (i + j) / 2 + 1 ≤ go p fuel ((i + j) / 2 + 1) j := le_go
          have h₂ : go q fuel i ((i + j) / 2) ≤ (i + j) / 2 := go_le (by omega)
          omega
  exact hg n 0 n le_rfl h

theorem monotone_getElem {l : List α} {p : α → Bool} (h : l.Pairwise fun a b => p a → p b) :
    ∀ a b, a ≤ b → b < l.length → l[a]?.any p → l[b]?.any p := by
  intro a b hab hb ha
  rcases hab.eq_or_lt with rfl | hab
  case inl => exact ha
  case inr =>
    have hp := pairwise_iff_getElem.mp h a b (hab.trans hb) hb hab
    simp_all [hab.trans hb]

theorem getElem?_search {l : List α} {p : α → Bool} (h : l.Pairwise fun a b => p a → p b) :
    l[search l.length fun i => l[i]?.any p]? = l.find? p := by
  have hb := search_between (monotone_getElem h)
  set k := search l.length fun i => l[i]?.any p
  by_cases hk : k < l.length
  case neg =>
    rw [getElem?_eq_none (not_lt.mp hk), eq_comm, find?_eq_none]
    intro a ha
    obtain ⟨i, hi, rfl⟩ := mem_iff_getElem.mp ha
    have := hb.below i (by omega)
    simpa [getElem?_eq_getElem hi] using this
  case pos =>
    rw [getElem?_eq_getElem hk, eq_comm, find?_eq_some_iff_getElem]
    refine ⟨?_, k, hk, rfl, fun i hi => ?_⟩
    · simpa [getElem?_eq_getElem hk] using hb.above k le_rfl hk
    · simpa [getElem?_eq_getElem (hi.trans hk)] using hb.below i hi

section Split

variable {l : List α} {p : α → Bool} (h : l.Pairwise fun a b => p a → p b)
include h

theorem not_of_mem_take_search (ha : a ∈ l.take (search l.length fun i => l[i]?.any p)) : ¬p a := by
  have hb := search_between (monotone_getElem h)
  obtain ⟨i, hi, rfl⟩ := mem_take_iff_getElem.mp ha
  have := hb.below i (by omega)
  simpa [getElem?_eq_getElem (by omega : i < l.length)] using this

theorem of_mem_drop_search (ha : a ∈ l.drop (search l.length fun i => l[i]?.any p)) : p a := by
  have hb := search_between (monotone_getElem h)
  generalize search l.length (fun i => l[i]?.any p) = k at hb ha
  obtain ⟨i, hi, rfl⟩ := mem_drop_iff_getElem.mp ha
  have := hb.above (k + i) (by omega) (by omega)
  simpa [getElem?_eq_getElem (by omega : k + i < l.length)] using this

theorem take_search : l.take (search l.length fun i => l[i]?.any p) = l.filter (!p ·) := by
  conv_rhs =>
    rw [← take_append_drop (search l.length fun i => l[i]?.any p) l, filter_append]
  rw [filter_eq_self.mpr fun a ha => by simpa using not_of_mem_take_search h ha,
    filter_eq_nil_iff.mpr fun a ha => by simpa using of_mem_drop_search h ha, append_nil]

theorem drop_search : l.drop (search l.length fun i => l[i]?.any p) = l.filter p := by
  conv_rhs =>
    rw [← take_append_drop (search l.length fun i => l[i]?.any p) l, filter_append]
  rw [filter_eq_nil_iff.mpr fun a ha => not_of_mem_take_search h ha,
    filter_eq_self.mpr fun a ha => of_mem_drop_search h ha, nil_append]

end Split

end Search
