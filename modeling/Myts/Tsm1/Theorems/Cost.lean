import Myts.Tsm1.Cost

open List

namespace Tsm1

namespace FileStore

variable {key : Bytes} {min max : Int64} {fd : TSMFile} {files : List TSMFile}

def Across (min max : Int64) (l : Location) : Prop :=
  min < l.entry.maxTime ∧ l.entry.minTime < max

instance : DecidablePred (Across min max) :=
  fun _ => inferInstanceAs (Decidable (_ ∧ _))

def Spanned (key : Bytes) (fd : TSMFile) : Prop :=
  ∀ ie ∈ fd.readEntries key, fd.timeRange.min ≤ ie.minTime ∧ ie.maxTime ≤ fd.timeRange.max

theorem foldl_costEntry (es : List IndexEntry) (c : BlockCost) (skipped : Bool) :
    es.foldl (costEntry key fd min max) (c, skipped) =
      let ls := (es.filterMap (locate key min true fd)).filter (Across min max)
      ({ c with
        blocksRead := c.blocksRead + .ofNat ls.length,
        blockSize := c.blockSize + .ofNat (ls.map (·.entry.size.toNat)).sum },
        skipped && ls.isEmpty) := by
  induction es generalizing c skipped
  case nil => simp
  case cons ie es hi =>
    rw [foldl_cons, costEntry, filterMap_cons, locate]
    by_cases ht : fd.Tombstoned key ie
    · simp [ht, hi]
    · by_cases hlt : ie.maxTime < min
      · have hn : ¬min < ie.maxTime := hlt.not_gt
        simp [hlt, hn, hi]
      · by_cases ha : min < ie.maxTime ∧ ie.minTime < max
        · simp [ht, hlt, ha, hi, Across, Int64.ofNat_add, Int64.add_assoc, Int64.add_comm]
        · simp [ht, hlt, ha, hi, Across]

theorem entry_mem (h : l ∈ locationsIn key min true fd) : l.entry ∈ fd.readEntries key := by
  rw [locationsIn] at h
  split_ifs at h
  · cases h
  · cases h
  · obtain ⟨ie, hm, he⟩ := mem_filterMap.mp h
    simp only [locate, if_true] at he
    split_ifs at he
    cases he
    exact hm

theorem costFile_eq (h : Spanned key fd) (c : BlockCost) : costFile key min max c fd =
    let ls := (locationsIn key min true fd).filter (Across min max)
    { numFiles := c.numFiles + if ls.isEmpty then 0 else 1,
      blocksRead := c.blocksRead + .ofNat ls.length,
      blockSize := c.blockSize + .ofNat (ls.map (·.entry.size.toNat)).sum } := by
  rw [costFile]
  split_ifs with hf
  case pos =>
    have hn : ¬fd.timeRange.max < min := hf.left.not_gt
    rw [foldl_costEntry, locationsIn, if_neg (by simp [hn]), if_neg (by simp)]
    dsimp only
    generalize ((fd.readEntries key).filterMap (locate key min true fd)).filter _ = ls
    cases ls <;> simp
  case neg =>
    -- No block of the file is across.
    have hn : (locationsIn key min true fd).filter (Across min max) = [] := by
      refine filter_eq_nil_iff.mpr fun l hl ha => hf ?_
      have ⟨hmin, hmax⟩ := h l.entry (entry_mem hl)
      have ⟨h₁, h₂⟩ := of_decide_eq_true ha
      exact ⟨h₁.trans_le hmax, hmin.trans_lt h₂⟩
    simp [hn]

theorem foldl_costFile (h : ∀ fd ∈ files, Spanned key fd) (c : BlockCost) :
    files.foldl (costFile key min max) c =
      let ls := (locations key files min true).filter (Across min max)
      { numFiles := c.numFiles +
          .ofNat (files.countP fun fd => ∃ l ∈ locationsIn key min true fd, Across min max l),
        blocksRead := c.blocksRead + .ofNat ls.length,
        blockSize := c.blockSize + .ofNat (ls.map (·.entry.size.toNat)).sum } := by
  induction files generalizing c
  case nil => simp [locations]
  case cons fd files hi =>
    have ⟨hfd, hfs⟩ := forall_mem_cons.mp h
    rw [foldl_cons, costFile_eq hfd, hi hfs]
    have hc : (if ((locationsIn key min true fd).filter (Across min max)).isEmpty then 0 else 1) =
        Int64.ofNat
          (if decide (∃ l ∈ locationsIn key min true fd, Across min max l) then 1 else 0) := by
      by_cases hx : ∃ l ∈ locationsIn key min true fd, Across min max l
      · rw [if_pos (decide_eq_true hx), if_neg (by simpa [List.isEmpty_iff] using hx)]
        rfl
      · rw [if_neg (hx ∘ of_decide_eq_true), if_pos (by simpa [List.isEmpty_iff] using hx)]
        rfl
    simp only [locations, flatMap_cons, filter_append, length_append, map_append, sum_append,
      countP_cons, Int64.ofNat_add, hc, Int64.add_assoc]
    rw [Int64.add_comm (Int64.ofNat (countP _ _))]

theorem cost_eq (h : ∀ fd ∈ files, Spanned key fd) :
    let ls := (locations key files min true).filter (Across min max)
    cost key files min max = {
      numFiles :=
        .ofNat (files.countP fun fd => ∃ l ∈ locationsIn key min true fd, Across min max l),
      blocksRead := .ofNat ls.length,
      blockSize := .ofNat (ls.map (·.entry.size.toNat)).sum } := by
  rw [cost, foldl_costFile h]
  simp only [Int64.zero_add]

def older : TSMFile where
  timeRange := ⟨1, 9⟩
  tombstoneRange _ := [⟨6, 7⟩]
  readEntries _ := [⟨1, 5, 5, 20⟩, ⟨6, 7, 25, 30⟩, ⟨8, 9, 55, 40⟩]

def newer : TSMFile where
  timeRange := ⟨9, 12⟩
  tombstoneRange _ := []
  readEntries _ := [⟨9, 12, 5, 50⟩]

theorem spanned_files : ∀ fd ∈ [older, newer], Spanned [97] fd := by
  simp [Spanned, older, newer]

theorem cost_touching : (locations [97] [older, newer] 5 true).length = 3 ∧
    cost [97] [older, newer] 5 9 = { numFiles := 1, blocksRead := 1, blockSize := 40 } :=
  ⟨by decide, (cost_eq spanned_files).trans (by decide)⟩

section Selected

def selected (key : Bytes) (min max : Int64) (fd : TSMFile) : List IndexEntry :=
  (fd.readEntries key).filter fun ie =>
    min ≤ ie.maxTime ∧ ie.minTime ≤ max ∧ ¬fd.Tombstoned key ie

theorem map_entry_locationsIn (h : Spanned key fd) :
    ((locationsIn key min true fd).filter (·.entry.minTime ≤ max)).map (·.entry) =
      selected key min max fd := by
  rw [locationsIn, selected]
  split_ifs with hf hn
  · refine (filter_eq_nil_iff.mpr fun ie hm hs => ?_).symm
    have hs := of_decide_eq_true hs
    exact absurd ((h ie hm).2.trans_lt hf.2) hs.1.not_gt
  · exact absurd rfl hn.1
  · clear h hf hn
    induction fd.readEntries key
    case nil => rfl
    case cons ie es hi =>
      rw [filterMap_cons, locate]
      by_cases ht : fd.Tombstoned key ie
      · simpa [ht] using hi
      · by_cases hlt : ie.maxTime < min
        · simpa [ht, hlt, hlt.not_ge] using hi
        · by_cases hle : ie.minTime ≤ max
          · simpa [ht, hlt, hle, not_lt.mp hlt] using hi
          · simpa [ht, hlt, hle] using hi

theorem map_entry_locations (h : ∀ fd ∈ files, Spanned key fd) :
    ((locations key files min true).filter (·.entry.minTime ≤ max)).map (·.entry) =
      files.flatMap (selected key min max) := by
  rw [locations, filter_flatMap, map_flatMap]
  exact flatMap_congr fun fd hfd => map_entry_locationsIn (h fd hfd)

theorem filter_across (ls : List Location) : ls.filter (Across min max) =
    (ls.filter (·.entry.minTime ≤ max)).filter (Across min max) := by
  rw [filter_filter]
  refine filter_congr fun l _ => ?_
  by_cases ha : Across min max l
  · simp [ha, ha.2.le]
  · simp [ha]

theorem exists_across_iff (h : Spanned key fd)
    (ht : ∀ ie ∈ selected key min max fd, min < ie.maxTime ∧ ie.minTime < max) :
    (∃ l ∈ locationsIn key min true fd, Across min max l) ↔ selected key min max fd ≠ [] := by
  have hm : _ = selected key min max fd := map_entry_locationsIn h
  constructor
  · rintro ⟨l, hl, ha⟩
    rw [← hm]
    exact ne_nil_of_mem (mem_map_of_mem (mem_filter.mpr ⟨hl, decide_eq_true ha.2.le⟩))
  · intro hne
    obtain ⟨ie, hie⟩ := exists_mem_of_ne_nil _ hne
    have ha := ht ie hie
    obtain ⟨l, hl, rfl⟩ := mem_map.mp (hm ▸ hie)
    exact ⟨l, (mem_filter.mp hl).1, ha⟩

theorem ofNat_inj {m n : Nat} (hm : m < 2 ^ 63) (hn : n < 2 ^ 63)
    (h : Int64.ofNat m = Int64.ofNat n) : m = n := by
  have h := congrArg Int64.toInt h
  rwa [Int64.toInt_ofNat_of_lt hm, Int64.toInt_ofNat_of_lt hn, Int.natCast_inj] at h

theorem cost_selected_iff (h : ∀ fd ∈ files, Spanned key fd)
    (hn : (files.flatMap (selected key min max)).length < 2 ^ 63) :
    ((locations key files min true).filter (·.entry.minTime ≤ max)).map (·.entry) =
        files.flatMap (selected key min max) ∧
      ((cost key files min max).blocksRead =
            .ofNat (files.flatMap (selected key min max)).length ∧
          (cost key files min max).numFiles =
            .ofNat (files.countP fun fd => selected key min max fd ≠ []) ↔
        ∀ fd ∈ files, ∀ ie ∈ selected key min max fd, ie.maxTime ≠ min ∧ ie.minTime ≠ max) := by
  have hm : _ = files.flatMap (selected key min max) := map_entry_locations h
  refine ⟨hm, ?_⟩
  have hl : ((locations key files min true).filter (Across min max)).length =
      ((files.flatMap (selected key min max)).filter
        fun ie => min < ie.maxTime ∧ ie.minTime < max).length := by
    rw [filter_across, ← hm, filter_map, length_map]
    rfl
  rw [cost, foldl_costFile h]
  simp only [Int64.zero_add, hl]
  constructor
  · intro ⟨hb, _⟩ fd hfd ie hie
    have he := ofNat_inj ((length_filter_le ..).trans_lt hn) hn hb
    have ha := length_filter_eq_length_iff.mp he ie (mem_flatMap.mpr ⟨fd, hfd, hie⟩)
    have ⟨h₁, h₂⟩ := of_decide_eq_true ha
    exact ⟨h₁.ne', h₂.ne⟩
  · intro ht
    have ha : ∀ fd ∈ files, ∀ ie ∈ selected key min max fd,
        min < ie.maxTime ∧ ie.minTime < max := by
      intro fd hfd ie hie
      have ⟨h₁, h₂⟩ := ht fd hfd ie hie
      have hs := of_decide_eq_true (mem_filter.mp hie).2
      exact ⟨lt_of_le_of_ne hs.1 h₁.symm, lt_of_le_of_ne hs.2.1 h₂⟩
    refine ⟨congrArg _ (length_filter_eq_length_iff.mpr fun ie hie => ?_), congrArg _ ?_⟩
    · have ⟨fd, hfd, hie⟩ := mem_flatMap.mp hie
      exact decide_eq_true (ha fd hfd ie hie)
    · refine countP_congr fun fd hfd => ?_
      simpa using exists_across_iff (h fd hfd) (ha fd hfd)

theorem cost_selected_wider :
    (cost [97] [older, newer] 4 10).blocksRead = 3 ∧ (cost [97] [older, newer] 4 10).numFiles = 2 :=
  (cost_selected_iff spanned_files (by decide)).2.mpr (by decide)

theorem cost_not_selected :
    (cost [97] [older, newer] 5 9).blocksRead = 1 ∧ (cost [97] [older, newer] 5 9).numFiles = 1 ∧
      [older, newer].flatMap (selected [97] 5 9) =
        [⟨1, 5, 5, 20⟩, ⟨8, 9, 55, 40⟩, ⟨9, 12, 5, 50⟩] ∧
      [older, newer].countP (fun fd => selected [97] 5 9 fd ≠ []) = 2 := by
  decide

end Selected

end FileStore

end Tsm1
