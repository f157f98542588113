import Myts.Tsm1.Theorems.Cache

open List

namespace Tsm1

open Series (Ascending last)

namespace Values

variable {τ α : Type} [LinearOrder τ] {a : Series τ α}

theorem mem_exclude_self (hi : a[i]? = some v) (hs : search a v.1 ≠ i) :
    v ∈ exclude a v.1 v.1 := by
  rw [exclude]
  split
  case h_1 => exact mem_of_getElem? hi
  case h_2 hr =>
    obtain ⟨hr, -⟩ := findRange_eq_some hr
    cases hr
    rw [mem_append]
    rcases lt_or_gt_of_ne hs with hs | hs
    case inr => exact .inl <| mem_of_getElem? (by rw [getElem?_take_of_lt hs, hi])
    case inl =>
      have he : rangeEnd a v.1 (search a v.1) ≤ i := by
        rw [rangeEnd]
        split <;> omega
      refine .inr <| mem_of_getElem? (i := i - rangeEnd a v.1 (search a v.1)) ?_
      rw [getElem?_drop, Nat.add_sub_cancel' he, hi]

theorem ascending_of_exclude (h : ∀ v ∈ a, v ∉ exclude a v.1 v.1) : Ascending a := by
  have hs {i : Nat} (hi : i < a.length) : search a a[i].1 = i := by
    by_contra hs
    exact h _ (getElem_mem hi) (mem_exclude_self (getElem?_eq_getElem hi) hs)
  refine pairwise_iff_getElem.mpr fun i j hi hj hij => ?_
  have hl : search a a[i].1 < search a a[j].1 := by rwa [hs hi, hs hj]
  obtain ⟨k, hk, h₁, h₂⟩ := Search.exists_of_search_lt hl
  rw [getElem?_eq_getElem hk] at h₁ h₂
  simp only [Option.any_some, decide_eq_true_eq, not_le] at h₁ h₂
  exact h₁.trans_lt h₂

end Values

namespace Cache

variable {c : Cache}

theorem values_of_no_snapshot (h : c.snap.store = ∅) (k : Bytes) :
    (c.values k).2 = Values.deduplicate (c.store.values k) := by
  have hn : Store.values ∅ k = [] := rfl
  have he : Values.deduplicate ([] : Values) = [] := rfl
  rw [values_eq, h, hn, he, nil_append,
    Values.deduplicate_of_ascending (Values.ascending_deduplicate _)]

def remaining (min max : Int64) (vs : Values) : Values :=
  if min = Int64.minValue ∧ max = Int64.maxValue then [] else Values.exclude vs min max

theorem snapshot_deleteKey : (deleteKey lo hi c k).snapshot = c.snapshot := by
  rw [deleteKey]
  split
  · rfl
  · split
    · rfl
    · dsimp only
      split <;> rfl

theorem values_erase {s : Store} :
    Store.values (s.erase k) k' = if k' = k then [] else s.values k' := by
  split
  case isTrue h => subst h; rw [Store.values, Finmap.lookup_erase]; rfl
  case isFalse h => rw [Store.values, Finmap.lookup_erase_ne h, Store.values]

theorem values_deleteKey : (deleteKey lo hi c k).store.values k' =
    if k' = k then remaining lo hi (c.store.values k) else c.store.values k' := by
  rw [deleteKey]
  cases hl : c.store.lookup k
  case none =>
    have hv : c.store.values k = [] := by rw [Store.values, hl]; rfl
    dsimp only
    split
    case isTrue hk => rw [hk, hv, remaining]; exact (ite_self _).symm
    case isFalse => rfl
  case some e =>
    have hv : c.store.values k = e.values := by rw [Store.values, hl]; rfl
    dsimp only
    rw [hv, remaining]
    split
    case isTrue hf => rw [values_erase]
    case isFalse hf =>
      dsimp only [decreaseSize]
      split
      case isTrue hn =>
        have hn : Values.exclude e.values lo hi = [] := hn
        rw [values_erase, hn]
      case isFalse hn => rw [Store.values_insert, Entry.filter]

theorem remaining_of_ascending {vs : Values} (h : Ascending vs) :
    remaining lo hi vs = vs.filter fun v => ¬(lo ≤ v.1 ∧ v.1 ≤ hi) := by
  rw [remaining]
  split
  case isFalse => exact Values.exclude_eq h
  case isTrue hf =>
    refine (filter_eq_nil_iff.mpr fun v _ => ?_).symm
    rw [hf.1, hf.2]
    simp [v.1.minValue_le, v.1.le_maxValue]

theorem snapshot_deleteRange (keys : List Bytes) :
    (c.deleteRange keys lo hi).snapshot = c.snapshot := by
  induction keys generalizing c
  case nil => rfl
  case cons k keys hi => exact hi.trans snapshot_deleteKey

theorem values_deleteRange {keys : List Bytes} (h : ∀ k ∈ keys, Ascending (c.store.values k))
    (k : Bytes) : (c.deleteRange keys lo hi).store.values k =
      if k ∈ keys then (c.store.values k).filter fun v => ¬(lo ≤ v.1 ∧ v.1 ≤ hi)
      else c.store.values k := by
  induction keys generalizing c
  case nil => rfl
  case cons x keys ih =>
    have hx (k' : Bytes) : (deleteKey lo hi c x).store.values k' = if k' = x then
        (c.store.values x).filter fun v => ¬(lo ≤ v.1 ∧ v.1 ≤ hi) else c.store.values k' := by
      rw [values_deleteKey, remaining_of_ascending (h x mem_cons_self)]
    have ha : ∀ k ∈ keys, Ascending ((deleteKey lo hi c x).store.values k) := fun k hk => by
      rw [hx]
      split
      · exact (h x mem_cons_self).filter _
      · exact h k (mem_cons_of_mem _ hk)
    rw [deleteRange, foldl_cons]
    refine (ih ha).trans ?_
    rw [hx]
    by_cases hk : k = x
    case pos => subst hk; simp [filter_filter]
    case neg => simp [hk]

theorem deletesExactly (h : c.snap.store = ∅) {keys : List Bytes}
    (ha : ∀ k ∈ keys, Ascending (c.store.values k)) : c.DeletesExactly keys lo hi := by
  intro k
  have h' : (c.deleteRange keys lo hi).snap.store = ∅ := by
    rw [snap, snapshot_deleteRange]
    exact h
  rw [values_of_no_snapshot h', values_of_no_snapshot h, values_deleteRange ha]
  split
  case isFalse => rfl
  case isTrue hk =>
    rw [Values.deduplicate_of_ascending (ha k hk),
      Values.deduplicate_of_ascending ((ha k hk).filter _)]

-- Values that are not in order are not found.
theorem deletes_exactly_iff (h : c.snap.store = ∅) :
    (∀ keys min max, c.DeletesExactly keys min max) ↔ ∀ k, Ascending (c.store.values k) := by
  refine ⟨fun hd k => Values.ascending_of_exclude fun v hv hm => ?_,
    fun ha keys min max => deletesExactly h fun k _ => ha k⟩
  have hk := hd [k] v.1 v.1 k
  have h' : (c.deleteRange [k] v.1 v.1).snap.store = ∅ := by
    rw [snap, snapshot_deleteRange]
    exact h
  have hf : ¬(v.1 = Int64.minValue ∧ v.1 = Int64.maxValue) := fun hf =>
    absurd (hf.1.symm.trans hf.2) (by decide)
  have hr : (c.deleteRange [k] v.1 v.1).store.values k =
      Values.exclude (c.store.values k) v.1 v.1 := by
    rw [deleteRange, foldl_cons, foldl_nil, values_deleteKey, if_pos rfl, remaining,
      if_neg hf]
  rw [values_of_no_snapshot h', values_of_no_snapshot h, if_pos (mem_singleton.mpr rfl), hr]
    at hk
  obtain ⟨x, hx⟩ := Option.isSome_iff_exists.mp (Series.last_isSome hm)
  rw [← Values.last_deduplicate, hk] at hx
  simpa using of_mem_filter (Series.mem_of_last hx)

theorem deletes_exactly_ordered :
    ((newCache 0).write [1] [(1, .float 0), (5, .float 1)]).1.snap.store = ∅ ∧
    ∀ keys min max,
      ((newCache 0).write [1] [(1, .float 0), (5, .float 1)]).1.DeletesExactly keys min max := by
  refine ⟨rfl, (deletes_exactly_iff rfl).mpr fun k => ?_⟩
  have hw : ((newCache 0).write [1] [(1, .float 0), (5, .float 1)]).1.store =
      (∅ : Store).insert [1] { values := [(1, .float 0), (5, .float 1)], vtype := 1 } := rfl
  rw [hw, Store.values_insert]
  split
  · decide
  · exact .nil

theorem unordered_value_survives :
    let c := ((newCache 0).write [1] [(5, .float 1), (1, .float 0)]).1
    ((c.deleteRange [[1]] 5 5).values [1]).2 = [(1, .float 0), (5, .float 1)] ∧
    (((c.values [1]).1.deleteRange [[1]] 5 5).values [1]).2 = [(1, .float 0)] ∧
    ¬c.DeletesExactly [[1]] 5 5 := by
  intro c
  have h₁ : ((c.deleteRange [[1]] 5 5).values [1]).2 = [(1, .float 0), (5, .float 1)] := by
    decide +kernel
  refine ⟨h₁, by decide +kernel, fun h => ?_⟩
  have hv : (c.values [1]).2 = [(1, .float 0), (5, .float 1)] := by decide +kernel
  have hk := h [1]
  rw [h₁, hv, if_pos (by decide)] at hk
  exact absurd hk (by decide)

end Cache

end Tsm1
