import Myts.Tsm1.Values

open List

namespace Tsm1.Values

open Series Ascending

open Series (Ascending last)

variable {τ α : Type} [LinearOrder τ] {a b : Series τ α} {t min max : τ}

section Deduplicate

theorem last_orderedInsert (v : τ × α) (a : Series τ α) :
    last (a.orderedInsert (·.1 ≤ ·.1) v) t = last (v :: a) t := by
  induction a
  case nil => rfl
  case cons w a hi =>
    rw [List.orderedInsert]
    split
    case isTrue => rfl
    case isFalse hvw =>
      rw [last_cons, hi, last_cons, last_cons, last_cons]
      by_cases hv : v.1 = t
      case neg => simp [hv]
      case pos =>
        have hw : w.1 ≠ t := fun hw => hvw (hv.trans hw.symm).le
        simp [hw]

theorem last_insertionSort : last (a.insertionSort (·.1 ≤ ·.1)) t = last a t := by
  induction a
  case nil => rfl
  case cons v a hi =>
    rw [insertionSort_cons, last_orderedInsert, last_cons, hi, ← last_cons]

theorem last_go (v : τ × α) (a : Series τ α) : last (compact.go v a) t = last (v :: a) t := by
  induction a generalizing v
  case nil => rfl
  case cons w a hi =>
    rw [compact.go]
    split
    case isTrue => rw [last_cons, hi, ← last_cons]
    case isFalse hw =>
      rw [hi, last_cons, last_cons, last_cons]
      by_cases ht : w.1 = t
      case pos => simp [ht]
      case neg => simp [← not_not.mp hw, ht]

theorem mem_go (h : p ∈ compact.go v a) : p ∈ v :: a := by
  induction a generalizing v
  case nil => exact h
  case cons w a hi =>
    rw [compact.go] at h
    split at h
    case isTrue =>
      rcases mem_cons.mp h with rfl | h
      case inl => exact mem_cons_self
      case inr => exact mem_cons_of_mem _ (hi h)
    case isFalse => exact mem_cons_of_mem _ (hi h)

theorem ascending_go (h : (v :: a).Pairwise (·.1 ≤ ·.1)) : Ascending (compact.go v a) := by
  induction a generalizing v
  case nil => exact pairwise_singleton ..
  case cons w a hi =>
    obtain ⟨hv, hw⟩ := pairwise_cons.mp h
    rw [compact.go]
    split
    case isFalse => exact hi hw
    case isTrue hvw =>
      refine cons_iff.mpr ⟨fun p hp => ?_, hi hw⟩
      have hlt : v.1 < w.1 := lt_of_le_of_ne (hv w mem_cons_self) hvw.symm
      rcases mem_cons.mp (mem_go hp) with rfl | hp
      case inl => exact hlt
      case inr => exact hlt.trans_le (rel_of_pairwise_cons hw hp)

theorem last_compact : last (compact a) t = last a t := by
  cases a
  case nil => rfl
  case cons => exact last_go ..

theorem ascending_iff_isChain : a.Ascending ↔ a.IsChain (·.1 < ·.1) :=
  isChain_iff_pairwise.symm

theorem deduplicate_of_ascending (h : a.Ascending) : deduplicate a = a :=
  if_pos (ascending_iff_isChain.mp h)

@[simp]
theorem last_deduplicate : last (deduplicate a) t = last a t := by
  unfold deduplicate
  split
  case isTrue => rfl
  case isFalse => rw [last_compact, last_insertionSort]

theorem ascending_deduplicate (a : Series τ α) : Ascending (deduplicate a) := by
  unfold deduplicate
  split
  case isTrue h => exact ascending_iff_isChain.mpr h
  case isFalse =>
    have hs := a.pairwise_insertionSort (·.1 ≤ ·.1)
    generalize a.insertionSort (·.1 ≤ ·.1) = b at hs
    cases b
    case nil => exact .nil
    case cons => exact ascending_go hs

end Deduplicate

section Range

theorem pairwise_le (h : a.Ascending) (t : τ) :
    a.Pairwise fun v w => decide (t ≤ v.1) → decide (t ≤ w.1) :=
  List.Pairwise.imp (fun hvw => by simpa using hvw.le.trans') h

theorem take_search (h : a.Ascending) (t : τ) : a.take (search a t) = a.filter (·.1 < t) := by
  rw [search, Search.take_search (pairwise_le h t)]
  refine filter_congr fun v _ => ?_
  simp [← not_le]

theorem drop_search (h : a.Ascending) (t : τ) : a.drop (search a t) = a.filter (t ≤ ·.1) :=
  Search.drop_search (pairwise_le h t)

theorem drop_rangeEnd (h : a.Ascending) :
    a.drop (rangeEnd a max (search a max)) = a.filter (max < ·.1) := by
  have hd := drop_search h max
  have hf : a.filter (max < ·.1) = (a.drop (search a max)).filter (max < ·.1) := by
    rw [hd, filter_filter]
    refine filter_congr fun v _ => ?_
    simpa using le_of_lt
  have ha : Ascending (a.drop (search a max)) := h.sublist (drop_sublist ..)
  rw [hf, rangeEnd]
  generalize hk : search a max = k at hd ha
  cases hb : a.drop k
  case nil =>
    have hn : a[k]? = none := getElem?_eq_none (drop_eq_nil_iff.mp hb)
    simp [hn, hb]
  case cons v b =>
    have hv : a[k]? = some v := by rw [← head?_drop, hb]; rfl
    rw [hb] at ha hd
    obtain ⟨hvb, -⟩ := cons_iff.mp ha
    have hm : max ≤ v.1 := by
      have : v ∈ a.filter (max ≤ ·.1) := hd ▸ mem_cons_self
      simpa using (mem_filter.mp this).2
    have hb' : b.filter (max < ·.1) = b :=
      filter_eq_self.mpr fun w hw => by simpa using hm.trans_lt (hvb w hw)
    rw [hv, filter_cons]
    split
    case isTrue he =>
      have he : v.1 = max := by simpa using he
      rw [← drop_drop, hb, hb']
      simp [he]
    case isFalse he =>
      have he : max < v.1 := lt_of_le_of_ne hm fun hv => he (by simp [hv])
      rw [hb, hb', if_pos (by simpa using he)]

theorem filter_append_filter (h : a.Ascending) {p q r : τ → Prop} [DecidablePred p]
    [DecidablePred q] [DecidablePred r] (hl : ∀ s t, p s → q t → s < t)
    (hr : ∀ t, r t ↔ p t ∨ q t) :
    a.filter (p ·.1) ++ a.filter (q ·.1) = a.filter (r ·.1) := by
  refine ext (append_iff.mpr ⟨h.filter _, h.filter _, ?_⟩) (h.filter _) ?_
  · intro v hv w hw
    simp only [mem_filter, decide_eq_true_eq] at hv hw
    exact hl _ _ hv.2 hw.2
  · intro t
    rw [last_append, last_filter, last_filter, last_filter]
    by_cases hp : p t <;> by_cases hq : q t <;> simp [hr, hp, hq]

theorem take_rangeEnd (h : a.Ascending) :
    a.take (rangeEnd a max (search a max)) = a.filter (·.1 ≤ max) := by
  have hs : a.filter (·.1 ≤ max) ++ a.filter (max < ·.1) = a.filter fun _ => True :=
    filter_append_filter h (p := (· ≤ max)) (q := (max < ·)) (r := fun _ => True)
      (fun s t => lt_of_le_of_lt) fun t => by simp [le_or_gt]
  apply (append_left_inj (a.filter (max < ·.1))).mp
  rw [hs, ← drop_rangeEnd h, take_append_drop]
  simp

theorem findRange_eq_some (hr : findRange a min max = some r) :
    r = (search a min, search a max) ∧ min ≤ max := by
  rw [findRange] at hr
  split at hr <;> try cases hr
  case h_1 =>
    split at hr <;> cases hr
    case isFalse hn => exact ⟨rfl, not_lt.mp fun h => hn <| .inl h⟩

theorem le_getLast (h : a.Ascending) (hl : a.getLast? = some l) {v : τ × α} (hv : v ∈ a) :
    v.1 ≤ l.1 := by
  obtain ⟨b, rfl⟩ := getLast?_eq_some_iff.mp hl
  rcases mem_append.mp hv with hv | hv
  case inl => exact (append_iff.mp h |>.2.2 v hv _ mem_cons_self).le
  case inr => rw [mem_singleton.mp hv]

theorem head_le (h : a.Ascending) (hf : a.head? = some f) {v : τ × α} (hv : v ∈ a) :
    f.1 ≤ v.1 := by
  obtain ⟨b, rfl⟩ := head?_eq_some_iff.mp hf
  rcases mem_cons.mp hv with hv | hv
  case inl => rw [hv]
  case inr => exact (cons_iff.mp h |>.1 v hv).le

theorem findRange_le (hr : findRange a min max = some r) : r.1 ≤ rangeEnd a max r.2 := by
  obtain ⟨rfl, hm⟩ := findRange_eq_some hr
  have hs : search a min ≤ search a max := Search.search_anti fun k hk => by
    rw [Option.any_eq_true] at hk ⊢
    have ⟨v, hv, ht⟩ := hk
    exact ⟨v, hv, by simpa using hm.trans (by simpa using ht)⟩
  dsimp only [rangeEnd]
  split <;> omega

theorem not_mem_range (h : a.Ascending) (hr : findRange a min max = none) {v : τ × α} (hv : v ∈ a) :
    ¬(min ≤ v.1 ∧ v.1 ≤ max) := by
  intro ⟨hmin, hmax⟩
  have hne : a ≠ [] := List.ne_nil_of_mem hv
  have hf := head_le h (head?_eq_some_head hne) hv
  have hl := le_getLast h (getLast?_eq_some_getLast hne) hv
  rw [findRange, head?_eq_some_head hne, getLast?_eq_some_getLast hne] at hr
  dsimp only at hr
  split at hr <;> cases hr
  case isTrue hn =>
    rcases hn with hn | hn | hn
    · exact (hmin.trans hmax).not_gt hn
    · exact (hmin.trans hl).not_gt hn
    · exact (hf.trans hmax).not_gt hn

theorem exclude_eq (h : a.Ascending) :
    exclude a min max = a.filter fun v => ¬(min ≤ v.1 ∧ v.1 ≤ max) := by
  rw [exclude]
  split
  case h_1 hr =>
    exact (filter_eq_self.mpr fun v hv => decide_eq_true <| not_mem_range h hr hv).symm
  case h_2 hr =>
    obtain ⟨hr, hm⟩ := findRange_eq_some hr
    cases hr
    rw [take_search h, drop_rangeEnd h]
    exact filter_append_filter h (p := (· < min)) (q := (max < ·))
      (r := fun t => ¬(min ≤ t ∧ t ≤ max)) (fun s t hs ht => hs.trans <| hm.trans_lt ht) fun t => by
        rw [not_and_or, not_le, not_le]

theorem includeRange_eq (h : a.Ascending) :
    includeRange a min max = a.filter fun v => min ≤ v.1 ∧ v.1 ≤ max := by
  rw [includeRange]
  split
  case h_1 hr =>
    refine (filter_eq_nil_iff.mpr fun v hv => ?_).symm
    simpa using not_mem_range h hr hv
  case h_2 hr =>
    obtain ⟨hr, hm⟩ := findRange_eq_some hr
    cases hr
    rw [take_rangeEnd h]
    -- The values before the range are the first ones of those that are taken.
    have hf : (a.take (search a min)).filter (·.1 ≤ max) = a.take (search a min) := by
      refine filter_eq_self.mpr fun v hv => ?_
      rw [take_search h, mem_filter] at hv
      have : v.1 < min := by simpa using hv.2
      simpa using (this.trans_le hm).le
    have hs : a.filter (·.1 ≤ max) =
        a.take (search a min) ++ (a.drop (search a min)).filter (·.1 ≤ max) := by
      rw [← hf, ← filter_append, take_append_drop]
    have hk : (a.take (search a min)).length = search a min :=
      length_take_of_le Search.search_le
    rw [hs, drop_left' hk, drop_search h, filter_filter]
    refine filter_congr fun v _ => ?_
    simp [Bool.and_comm]

end Range

section Merge

theorem mergeLoop_cons_cons {v w : τ × α} : mergeLoop (v :: a) (w :: b) =
    if v.1 < w.1 then v :: mergeLoop a (w :: b)
    else if v.1 = w.1 then mergeLoop a (w :: b)
    else w :: mergeLoop (v :: a) b :=
  rfl

theorem mem_mergeLoop {x : τ × α} (h : x ∈ mergeLoop a b) : x ∈ a ∨ x ∈ b := by
  induction a generalizing b
  case nil => exact .inr h
  case cons v a ha =>
    induction b
    case nil => exact .inl h
    case cons w b hb =>
      rw [mergeLoop_cons_cons] at h
      grind

theorem ascending_mergeLoop (ha : a.Ascending) (hb : b.Ascending) : (mergeLoop a b).Ascending := by
  induction a generalizing b
  case nil => exact hb
  case cons v a hia =>
    obtain ⟨hv, ha'⟩ := cons_iff.mp ha
    induction b
    case nil => exact ha
    case cons w b hib =>
      obtain ⟨hw, hb'⟩ := cons_iff.mp hb
      rw [mergeLoop_cons_cons]
      split_ifs with hlt heq
      case pos =>
        refine cons_iff.mpr ⟨fun x hx => ?_, hia ha' hb⟩
        rcases mem_mergeLoop hx with hx | hx
        case inl => exact hv x hx
        case inr =>
          rcases mem_cons.mp hx with rfl | hx
          case inl => exact hlt
          case inr => exact hlt.trans (hw x hx)
      case pos => exact hia ha' hb
      case neg =>
        have hgt : w.1 < v.1 := lt_of_le_of_ne (not_lt.mp hlt) (Ne.symm heq)
        refine cons_iff.mpr ⟨fun x hx => ?_, hib hb'⟩
        rcases mem_mergeLoop hx with hx | hx
        case inr => exact hw x hx
        case inl =>
          rcases mem_cons.mp hx with rfl | hx
          case inl => exact hgt
          case inr => exact hgt.trans (hv x hx)

theorem last_mergeLoop (ha : a.Ascending) (hb : b.Ascending) :
    last (mergeLoop a b) t = (last b t).or (last a t) := by
  induction a generalizing b
  case nil => simp [mergeLoop]
  case cons v a hia =>
    obtain ⟨hv, ha'⟩ := cons_iff.mp ha
    induction b
    case nil => simp [mergeLoop, mergeLoop.go]
    case cons w b hib =>
      obtain ⟨hw, hb'⟩ := cons_iff.mp hb
      rw [mergeLoop_cons_cons]
      split_ifs with hlt heq
      case pos => rw [last_cons, hia ha' hb, Option.or_assoc, ← last_cons]
      case pos =>
        rw [hia ha' hb, last_cons (a := a), last_cons, heq]
        by_cases hw : w.1 = t <;> cases last b t <;> simp [hw]
      case neg =>
        rw [last_cons, hib hb', last_cons (a := b)]
        by_cases hw : w.1 = t
        case neg => simp [hw]
        case pos =>
          have hgt : w.1 < v.1 := lt_of_le_of_ne (not_lt.mp hlt) (Ne.symm heq)
          have hn : last (v :: a) t = none := by
            refine last_eq_none_iff.mpr fun x hx => hw ▸ ne_of_gt ?_
            rcases mem_cons.mp hx with rfl | hx
            case inl => exact hgt
            case inr => exact hgt.trans (hv x hx)
          simp [hn]

theorem merge_cases (ha : a.Ascending) (hb : b.Ascending) :
    (merge a b = a ++ b ∧ ∀ v ∈ a, ∀ w ∈ b, v.1 < w.1) ∨
    (merge a b = b ++ a ∧ ∀ w ∈ b, ∀ v ∈ a, w.1 < v.1) ∨ merge a b = mergeLoop a b := by
  rw [merge]
  split_ifs with hna hnb
  case pos => exact .inl <| by simp [hna]
  case pos => exact .inl <| by simp [hnb]
  case neg =>
    dsimp only
    rw [deduplicate_of_ascending ha, deduplicate_of_ascending hb]
    split
    case h_2 => exact .inr <| .inr rfl
    case h_1 aLast bFirst bLast aFirst hal hbf hbl haf =>
      split_ifs with hab hba
      case pos =>
        exact .inl ⟨rfl, fun v hv w hw => (le_getLast ha hal hv).trans_lt <|
          hab.trans_le <| head_le hb hbf hw⟩
      case pos =>
        exact .inr <| .inl ⟨rfl, fun w hw v hv => (le_getLast hb hbl hw).trans_lt <|
          hba.trans_le <| head_le ha haf hv⟩
      case neg => exact .inr <| .inr rfl

theorem last_merge (ha : a.Ascending) (hb : b.Ascending) :
    last (merge a b) t = (last b t).or (last a t) := by
  rcases merge_cases ha hb with ⟨h, -⟩ | ⟨h, hlt⟩ | h
  · rw [h, last_append]
  · rw [h, last_append]
    cases hat : last a t <;> cases hbt : last b t <;> try rfl
    case some.some =>
      exact (hlt _ (mem_of_last hbt) _ (mem_of_last hat)).false.elim
  · rw [h, last_mergeLoop ha hb]

theorem ascending_merge (ha : a.Ascending) (hb : b.Ascending) : (merge a b).Ascending := by
  rcases merge_cases ha hb with ⟨h, hlt⟩ | ⟨h, hlt⟩ | h <;> rw [h]
  · exact append_iff.mpr ⟨ha, hb, hlt⟩
  · exact append_iff.mpr ⟨hb, ha, hlt⟩
  · exact ascending_mergeLoop ha hb

theorem deduplicate_ne_nil (h : a ≠ []) : deduplicate a ≠ [] := by
  intro hd
  have hn : ∀ t, last a t = none := fun t => by rw [← last_deduplicate, hd, last_nil]
  obtain ⟨v, hv⟩ := exists_mem_of_ne_nil a h
  exact last_eq_none_iff.mp (hn v.1) v hv rfl

theorem merge_deduplicate (ha : a ≠ []) (hb : b ≠ []) :
    merge (deduplicate a) (deduplicate b) = merge a b := by
  simp only [merge, ha, hb, deduplicate_ne_nil, ne_eq, not_false_eq_true, if_false,
    deduplicate_of_ascending (ascending_deduplicate _)]

end Merge

theorem values_algebra (a b : Series τ α) :
    (Ascending (deduplicate a) ∧ ∀ t, last (deduplicate a) t = last a t) ∧
    (a.Ascending → ∀ min max,
      exclude a min max = a.filter (fun v => ¬(min ≤ v.1 ∧ v.1 ≤ max)) ∧
      includeRange a min max = a.filter fun v => min ≤ v.1 ∧ v.1 ≤ max) ∧
    (a ≠ [] → b ≠ [] →
      (merge a b).Ascending ∧ ∀ t, last (merge a b) t = (last b t).or (last a t)) := by
  refine ⟨⟨ascending_deduplicate a, fun t => last_deduplicate⟩,
    fun h min max => ⟨exclude_eq h, includeRange_eq h⟩, fun ha hb => ?_⟩
  have hda := ascending_deduplicate a
  have hdb := ascending_deduplicate b
  rw [← merge_deduplicate ha hb]
  refine ⟨ascending_merge hda hdb, fun t => ?_⟩
  rw [last_merge hda hdb, last_deduplicate, last_deduplicate]

section Laws

variable {a b c : Series τ α} (ha : a.Ascending) (hb : b.Ascending)

include ha hb

theorem filter_merge (p : τ → Prop) [DecidablePred p] : (merge a b).filter (fun v => p v.1) =
    merge (a.filter fun v => p v.1) (b.filter fun v => p v.1) := by
  have hfa := ha.filter fun v => p v.1
  have hfb := hb.filter fun v => p v.1
  refine ext ((ascending_merge ha hb).filter _) (ascending_merge hfa hfb) fun t => ?_
  rw [last_merge hfa hfb, last_filter, last_filter, last_filter,
    last_merge ha hb]
  split <;> rfl

-- Blocks may be merged in any grouping, and ranges may be deleted and cut out before or after.
theorem merge_laws (hc : c.Ascending) (min max : τ) :
    merge (merge a b) c = merge a (merge b c) ∧
    exclude (merge a b) min max = merge (exclude a min max) (exclude b min max) ∧
    includeRange (merge a b) min max = merge (includeRange a min max) (includeRange b min max) := by
  have hab := ascending_merge ha hb
  have hbc := ascending_merge hb hc
  refine ⟨ext (ascending_merge hab hc) (ascending_merge ha hbc) fun t => ?_, ?_, ?_⟩
  · rw [last_merge hab hc, last_merge ha hb, last_merge ha hbc, last_merge hb hc, Option.or_assoc]
  · rw [exclude_eq hab, exclude_eq ha, exclude_eq hb]
    exact filter_merge ha hb fun t => ¬(min ≤ t ∧ t ≤ max)
  · rw [includeRange_eq hab, includeRange_eq ha, includeRange_eq hb]
    exact filter_merge ha hb fun t => min ≤ t ∧ t ≤ max

omit ha hb

theorem merge_laws_overlapping :
    merge (merge [(1, 'a'), (3, 'a')] [(2, 'b'), (3, 'b')]) [(3, 'c')] =
      merge [(1, 'a'), (3, 'a')] (merge [(2, 'b'), (3, 'b')] [(3, 'c')]) :=
  (merge_laws (by decide) (by decide) (by decide) 2 3).left

-- Blocks that are merged one after the other are the values of all of them, deduplicated at once.
theorem foldl_merge {bs : List (Series τ α)} (h : ∀ b ∈ bs, b.Ascending) :
    bs.foldl merge [] = deduplicate bs.flatten := by
  induction bs using reverseRecOn
  case nil => rfl
  case append_singleton bs b hi =>
    have ⟨hbs, hb⟩ := forall_mem_append.mp h
    have hb := forall_mem_singleton.mp hb
    have hd := ascending_deduplicate bs.flatten
    rw [foldl_append, foldl_cons, foldl_nil, hi hbs, flatten_append, flatten_singleton]
    refine ext (ascending_merge hd hb) (ascending_deduplicate _) fun t => ?_
    rw [last_merge hd hb, last_deduplicate, last_deduplicate, last_append]

theorem foldl_merge_overlapping :
    [[(1, 'a'), (3, 'a')], [(2, 'b')], [(1, 'c')]].foldl merge [] =
      [(1, 'c'), (2, 'b'), (3, 'a')] :=
  (foldl_merge (by decide)).trans (by decide)

end Laws

end Tsm1.Values
