import Myts.Tsm1.Planner

open List

namespace Tsm1

variable {a run : TsmGenerations} {s : PlannerStore}

namespace TsmGenerations

theorem isInfix_flatten {L : List (List α)} (h : l ∈ L) : l.IsInfix L.flatten := by
  have ⟨L₁, L₂, hL⟩ := append_of_mem h
  exact ⟨L₁.flatten, L₂.flatten, by simp [hL]⟩

theorem flatten_groupByLevel : (groupByLevel current a).flatten = current ++ a := by
  induction a generalizing current
  case nil =>
    rw [groupByLevel]
    split <;> simp_all
  case cons cur a hi =>
    rw [groupByLevel]
    split
    case isTrue => rw [hi, append_assoc, singleton_append]
    case isFalse => rw [flatten_cons, hi, singleton_append]

theorem flatten_chunk_go (h : 0 < size) (hf : a.length ≤ fuel) :
    (chunk.go size fuel a).flatten = a := by
  induction fuel generalizing a
  case zero => simp_all [chunk.go]
  case succ fuel hi =>
    rw [chunk.go]
    split_ifs with hn hs
    · simp [hn]
    · have hd : (a.drop size).length ≤ fuel := by rw [length_drop]; omega
      rw [flatten_cons, hi hd, take_append_drop]
    · simp

theorem flatten_chunk (h : 0 < size) : (chunk size a).flatten = a :=
  flatten_chunk_go h le_rfl

end TsmGenerations

section Runs

open TsmGenerations

theorem flatten_flatMap_chunk {L : List TsmGenerations} (h : 0 < size) :
    (L.flatMap <| chunk size).flatten = L.flatten := by
  induction L
  case nil => rfl
  case cons run L hi =>
    rw [flatMap_cons, flatten_append, flatten_chunk h, hi, flatten_cons]

theorem flatten_groups_sublist : ((groupByLevel [] a).filter p).flatten.Sublist a := by
  have h : (groupByLevel [] a).flatten = a := flatten_groupByLevel
  conv => rhs; rw [← h]
  exact filter_sublist.flatten

theorem levelRuns_sublist : (levelRuns lvl a).flatten.Sublist a := by
  have h : 0 < if lvl = 1 then 8 else 4 := by split <;> decide
  rw [levelRuns]
  split
  case isTrue => exact nil_sublist a
  case isFalse =>
    apply filter_sublist.flatten.trans
    rw [flatten_flatMap_chunk h]
    exact flatten_groups_sublist

theorem optimizeRuns_sublist : (optimizeRuns a).flatten.Sublist a := by
  rw [optimizeRuns]
  split
  case isTrue => exact nil_sublist a
  case isFalse => exact filter_sublist.flatten.trans flatten_groups_sublist

theorem fullKept_sublist : (fullKept s n a).Sublist a := by
  induction a
  case nil => exact nil_sublist []
  case cons g a hi =>
    rw [fullKept]
    split
    case isTrue => exact hi.cons g
    case isFalse => exact hi.cons_cons g

theorem fullRuns_sublist : (fullRuns s a).flatten.Sublist a := by
  rw [fullRuns]
  split
  case isTrue => exact nil_sublist a
  case isFalse => simpa using fullKept_sublist

theorem windowRun_suffix (h : windowRun s a = some run) : run <:+ a := by
  simp only [windowRun] at h
  split_ifs at h
  rw [← Option.some.inj h]
  exact drop_suffix _ a

theorem flatten_filterMap_sublist {L : List (List α)} {f : List α → Option (List α)}
    (h : ∀ l r, f l = some r → r.Sublist l) : (L.filterMap f).flatten.Sublist L.flatten := by
  induction L
  case nil => exact nil_sublist []
  case cons l L hi =>
    cases hl : f l
    case none =>
      rw [filterMap_cons_none hl]
      exact hi.trans <| sublist_append_right l _
    case some r =>
      rw [filterMap_cons_some hl]
      exact (h l r hl).append hi

theorem flatten_planChunks :
    (chunk (min 4 stop) ((a.take stop).drop start)).flatten = (a.take stop).drop start := by
  cases stop
  case zero => simp [chunk, chunk.go]
  case succ => exact flatten_chunk (by omega)

theorem planRuns_sublist : (planRuns s a).flatten.Sublist a := by
  apply filter_sublist.flatten.trans
  apply (flatten_filterMap_sublist fun _ _ h => (windowRun_suffix h).sublist).trans
  rw [flatten_planChunks]
  exact (drop_sublist ..).trans (take_sublist ..)

theorem runs_sublist {p : Planner} : (p.runs s a call).2.flatten.Sublist a := by
  cases call
  case level => exact levelRuns_sublist
  case optimize => exact optimizeRuns_sublist
  case plan =>
    simp only [Planner.runs]
    split_ifs
    · exact fullRuns_sublist
    · exact nil_sublist a
    · exact nil_sublist a
    · exact planRuns_sublist

theorem infix_of_mem_groups (h : run ∈ groupByLevel [] a) : run <:+: a := by
  have hi := TsmGenerations.isInfix_flatten h
  rwa [flatten_groupByLevel] at hi

theorem infix_of_mem_levelRuns (h : run ∈ levelRuns lvl a) : run <:+: a := by
  have hs : 0 < if lvl = 1 then 8 else 4 := by split <;> decide
  rw [levelRuns] at h
  split at h
  case isTrue => nomatch h
  case isFalse =>
    have ⟨g, hg, hr⟩ := mem_flatMap.mp (mem_of_mem_filter h)
    have hi := isInfix_flatten hr
    rw [flatten_chunk hs] at hi
    exact hi.trans <| infix_of_mem_groups <| mem_of_mem_filter hg

theorem infix_of_mem_optimizeRuns (h : run ∈ optimizeRuns a) : run <:+: a := by
  rw [optimizeRuns] at h
  split at h
  case isTrue => nomatch h
  case isFalse => exact infix_of_mem_groups <| mem_of_mem_filter <| mem_of_mem_filter h

theorem infix_of_mem_planRuns (h : run ∈ planRuns s a) : run <:+: a := by
  have ⟨w, hw, hr⟩ := mem_filterMap.mp (mem_of_mem_filter h)
  have hi := isInfix_flatten hw
  rw [flatten_planChunks] at hi
  apply (windowRun_suffix hr).isInfix.trans
  apply hi.trans
  exact (drop_suffix ..).isInfix.trans ( take_prefix ..).isInfix

theorem runs_cold {p : Planner} (h : run ∈ (p.runs s a <| .plan now lastWrite).2)
    (hc : p.Cold now lastWrite a) : run = fullKept s a.length a := by
  simp only [Planner.runs, hc, if_true, fullRuns] at h
  split at h
  case isTrue => nomatch h
  case isFalse => exact mem_singleton.mp h

theorem runs_cases {p : Planner} (h : run ∈ (p.runs s a call).2) :
    run <:+: a ∨
      run = fullKept s a.length a ∧
        ∃ now lastWrite, call = .plan now lastWrite ∧ p.Cold now lastWrite a := by
  cases call
  case level => exact .inl <| infix_of_mem_levelRuns h
  case optimize => exact .inl <| infix_of_mem_optimizeRuns h
  case plan now lastWrite =>
    by_cases hc : p.Cold now lastWrite a
    · exact .inr ⟨runs_cold h hc, now, lastWrite, rfl, hc⟩
    · simp only [Planner.runs, hc, if_false] at h
      split_ifs at h
      · nomatch h
      · nomatch h
      · exact .inl <| infix_of_mem_planRuns h

theorem mem_fullKept (h : ¬Skips s n g y.head?) : g ∈ fullKept s n (x ++ g :: y) := by
  induction x
  case nil => simp [fullKept, h]
  case cons g' x hi =>
    rw [cons_append, fullKept]
    split
    case isTrue => exact hi
    case isFalse => exact mem_cons_of_mem g' hi

theorem fullKept_sublist_of_skips (h : Skips s n g y.head?) :
    (fullKept s n (x ++ g :: y)).Sublist (x ++ y) := by
  induction x
  case nil => simpa [fullKept, h] using fullKept_sublist
  case cons g' x hi =>
    rw [cons_append, fullKept]
    split
    case isTrue => exact hi.cons g'
    case isFalse => exact hi.cons_cons g'

end Runs

section Listing

open TsmGenerations

variable {files : List FileStat}

theorem mem_ofFiles :
    g ∈ ofFiles files ↔
      (∃ f ∈ files, generationOf f.path = g.id) ∧
        g.files = files.filter (generationOf ·.path = g.id) := by
  rcases g with ⟨n, fs⟩
  simp only [ofFiles, mem_map, mem_insertionSort, mem_dedup, TsmGeneration.mk.injEq]
  constructor
  case mp =>
    rintro ⟨_, ⟨f, hf, rfl⟩, rfl, rfl⟩
    exact ⟨⟨f, hf, rfl⟩, rfl⟩
  case mpr =>
    rintro ⟨hf, hfs⟩
    exact ⟨n, hf, rfl, hfs.symm⟩

theorem mem_files_of_mem_ofFiles (h : g ∈ ofFiles files) :
    f ∈ g.files ↔ f ∈ files ∧ generationOf f.path = g.id := by
  simp [(mem_ofFiles.mp h).2]

theorem pairwise_ofFiles : (ofFiles files).Pairwise (·.id < ·.id) := by
  rw [ofFiles, pairwise_map]
  have hs := pairwise_insertionSort (· ≤ ·) (files.map (generationOf ·.path)).dedup
  have hd : ((files.map (generationOf ·.path)).dedup.insertionSort (· ≤ ·)).Nodup :=
    (perm_insertionSort ..).nodup_iff.mpr <| nodup_dedup _
  exact hs.and hd |>.imp fun ⟨hle, hne⟩ => lt_of_le_of_ne hle hne

theorem mem_paths : f ∈ TsmGenerations.paths a ↔ ∃ g ∈ a, ∃ st ∈ g.files, st.path = f := by
  simp [TsmGenerations.paths, TsmGeneration.paths]

theorem generationOf_of_mem (hg : g ∈ ofFiles files) (hf : f ∈ g.files) :
    generationOf f.path = g.id :=
  ((mem_files_of_mem_ofFiles hg).mp hf).2

theorem mem_of_between_infix (ha : a.Pairwise (·.id < ·.id)) (hr : run <:+: a) (hg : g ∈ a)
    (hb : Planner.Between run g.id) : g ∈ run := by
  have ⟨x, y, h⟩ := hr
  have ⟨⟨l, hl, hlg⟩, u, hu, hug⟩ := hb
  subst h
  simp only [mem_append] at hg
  rcases hg with (hx | hg) | hy
  · have := (pairwise_append.mp (pairwise_append.mp ha).1).2.2 g hx l hl
    omega
  · exact hg
  · have := (pairwise_append.mp ha).2.2 u (mem_append_right x hu) g hy
    omega

end Listing

namespace Planner

variable {p : Planner} {hidden : Finset FileName} {c : PlanCall}

theorem mem_groupOf : f ∈ groupOf run c ↔ f ∈ TsmGenerations.paths run := by
  cases c
  case plan => exact mem_insertionSort ..
  all_goals rfl

theorem runs_congr {q : Planner}
    (hd : q.compactFullWriteColdDuration = p.compactFullWriteColdDuration)
    (hl : q.lastPlanCheck = p.lastPlanCheck) : (q.runs s a c).2 = (p.runs s a c).2 := by
  cases c
  case plan =>
    simp only [runs, Cold, hd, hl]
    split_ifs <;> rfl
  all_goals rfl

theorem runs_filesInUse : (p.runs s a c).1.filesInUse = p.filesInUse := by
  cases c
  case plan =>
    simp only [runs]
    split_ifs <;> rfl
  all_goals rfl

theorem findGenerations_frame :
    (p.findGenerations s b).1.compactFullWriteColdDuration = p.compactFullWriteColdDuration ∧
      (p.findGenerations s b).1.lastPlanCheck = p.lastPlanCheck ∧
        (p.findGenerations s b).1.filesInUse = p.filesInUse := by
  rw [findGenerations]
  split <;> exact ⟨rfl, rfl, rfl⟩

theorem Hides.findGenerations_eq (h : p.Hides s hidden) :
    (p.findGenerations s true).2 = listing s hidden := by
  rw [Hides] at h
  rw [findGenerations]
  split at h
  case isTrue hc => rw [if_pos hc, h]
  case isFalse hc =>
    rw [if_neg hc, listing, h]
    simp

theorem take_eq {groups : List CompactionGroup} :
    (p.take groups).2 = if ∃ g ∈ groups, ∃ f ∈ g, f ∈ p.filesInUse then [] else groups := by
  by_cases h : ∃ g ∈ groups, ∃ f ∈ g, f ∈ p.filesInUse
  · simp only [take, acquire, if_pos h, Bool.false_eq_true, if_false]
  · simp only [take, acquire, if_neg h, if_true]

theorem Hides.call_eq (h : p.Hides s hidden) :
    (p.call s c).2 =
      if ∃ run ∈ (p.runs s (listing s hidden) c).2,
          ∃ f ∈ TsmGenerations.paths run, f ∈ p.filesInUse then
        []
      else
        (p.runs s (listing s hidden) c).2.map (groupOf · c) := by
  have ⟨hd, hl, hf⟩ := p.findGenerations_frame (s := s) (b := true)
  simp only [call, candidates, take_eq, runs_filesInUse, h.findGenerations_eq, runs_congr hd hl, hf,
    mem_map, exists_exists_and_eq_and, mem_groupOf]

theorem mem_stats_of_mem_listing (hg : g ∈ listing s hidden) (hf : f ∈ g.files) :
    f ∈ s.stats ∧ f.path ∉ hidden := by
  have ⟨h, _⟩ := (mem_files_of_mem_ofFiles hg).mp hf
  simpa using h

theorem exists_mem_listing (hf : f ∈ s.stats) (hn : f.path ∉ hidden) :
    ∃ g ∈ listing s hidden, f ∈ g.files ∧ g.id = generationOf f.path := by
  have hl : f ∈ s.stats.filter (·.path ∉ hidden) := by simpa using ⟨hf, hn⟩
  let files := (s.stats.filter (·.path ∉ hidden)).filter (generationOf ·.path = generationOf f.path)
  have hg : ⟨generationOf f.path, files⟩ ∈ listing s hidden := mem_ofFiles.mpr ⟨⟨f, hl, rfl⟩, rfl⟩
  exact ⟨_, hg, (mem_files_of_mem_ofFiles hg).mpr ⟨hl, rfl⟩, rfl⟩

theorem exists_file_of_mem_listing (hg : g ∈ listing s hidden) :
    ∃ f ∈ s.stats, f ∈ g.files ∧ generationOf f.path = g.id := by
  have ⟨⟨f, hf, hi⟩, _⟩ := mem_ofFiles.mp hg
  exact ⟨f, mem_of_mem_filter hf, (mem_files_of_mem_ofFiles hg).mpr ⟨hf, hi⟩, hi⟩

theorem eq_of_id_eq (hg : g ∈ listing s hidden) (hg' : g' ∈ listing s hidden)
    (h : g.id = g'.id) : g = g' := by
  have hf := (mem_ofFiles.mp hg).2
  have hf' := (mem_ofFiles.mp hg').2
  rw [h, ← hf'] at hf
  exact TsmGeneration.ext h hf

section Contiguity

variable (hs : run.Sublist (listing s hidden))

include hs

theorem between_of_mem_groupOf (hl : ∃ a ∈ groupOf run c, generationOf a ≤ n)
    (hu : ∃ b ∈ groupOf run c, n ≤ generationOf b) : Between run n := by
  have ⟨a, ha, han⟩ := hl
  have ⟨b, hb, hbn⟩ := hu
  have ⟨g, hg, st, hst, hga⟩ := mem_paths.mp <| mem_groupOf.mp ha
  have ⟨g', hg', st', hst', hgb⟩ := mem_paths.mp <| mem_groupOf.mp hb
  have hi := generationOf_of_mem (hs.subset hg) hst
  have hi' := generationOf_of_mem (hs.subset hg') hst'
  subst hga hgb
  exact ⟨⟨g, hg, hi ▸ han⟩, g', hg', hi' ▸ hbn⟩

theorem Between.exists_mem_groupOf (h : Between run n) :
    (∃ a ∈ groupOf run c, generationOf a ≤ n) ∧ ∃ b ∈ groupOf run c, n ≤ generationOf b := by
  have ⟨⟨g, hg, hl⟩, g', hg', hu⟩ := h
  have ⟨f, _, hf, hi⟩ := exists_file_of_mem_listing <| hs.subset hg
  have ⟨f', _, hf', hi'⟩ := exists_file_of_mem_listing <| hs.subset hg'
  exact ⟨⟨f.path, mem_groupOf.mpr <| mem_paths.mpr ⟨g, hg, f, hf, rfl⟩, hi ▸ hl⟩,
    f'.path, mem_groupOf.mpr <| mem_paths.mpr ⟨g', hg', f', hf', rfl⟩, hi' ▸ hu⟩

theorem mem_stats_of_mem_groupOf (hf : f ∈ groupOf run c) : f ∈ s.stats.map (·.path) := by
  have ⟨g, hg, st, hst, hp⟩ := mem_paths.mp <| mem_groupOf.mp hf
  exact mem_map.mpr ⟨st, (mem_stats_of_mem_listing (hs.subset hg) hst).1, hp⟩

theorem not_hidden_of_mem_groupOf (hf : f ∈ groupOf run c) : f ∉ hidden := by
  have ⟨g, hg, st, hst, hp⟩ := mem_paths.mp <| mem_groupOf.mp hf
  exact hp ▸ (mem_stats_of_mem_listing (hs.subset hg) hst).2

theorem not_between_of_contiguous (hr : run ∈ (p.runs s (listing s hidden) c).2)
    (hc : Contiguous s (groupOf run c)) (hn : p.PassedOver s hidden c n) : ¬Between run n := by
  intro hb
  have ⟨hl, hu⟩ := Between.exists_mem_groupOf (c := c) hs hb
  rcases hn with ⟨f, hf, hh, hi⟩ | ⟨now, lastWrite, rfl, hcold, x, g, y, ha, hk, hi⟩
  · exact not_hidden_of_mem_groupOf hs (hc.2 f hf (hi ▸ hl) (hi ▸ hu)) hh
  · have hg : g ∈ listing s hidden := ha ▸ mem_append_right x mem_cons_self
    have ⟨f, hf, hfg, hfi⟩ := exists_file_of_mem_listing hg
    have hi := hfi.trans hi
    have hm := hc.2 f hf (hi ▸ hl) (hi ▸ hu)
    have ⟨g', hg', st, hst, hp⟩ := mem_paths.mp <| mem_groupOf.mp hm
    have hid : g'.id = g.id := by
      rw [← generationOf_of_mem (hs.subset hg') hst, hp, hfi]
    rw [eq_of_id_eq (hs.subset hg') hg hid, runs_cold hr hcold] at hg'
    -- The run is without the generation, which is in the listing only once.
    have hp : (listing s hidden).Pairwise (·.id < ·.id) := pairwise_ofFiles
    rw [ha] at hg' hp
    have ⟨_, hy, hx⟩ := pairwise_append.mp hp
    rcases mem_append.mp <| (fullKept_sublist_of_skips (ha ▸ hk)).subset hg' with h | h
    · exact (hx g h g mem_cons_self).false
    · exact ((pairwise_cons.mp hy).1 g h).false

theorem contiguous_of_not_between (hr : run ∈ (p.runs s (listing s hidden) c).2)
    (h : ∀ n, p.PassedOver s hidden c n → ¬Between run n) : Contiguous s (groupOf run c) := by
  use fun f hf => mem_stats_of_mem_groupOf hs hf
  intro f hf hl hu
  have hb := between_of_mem_groupOf hs hl hu
  have hn : f.path ∉ hidden := fun hh => h _ (.inl ⟨f, hf, hh, rfl⟩) hb
  have ⟨g, hg, hfg, hi⟩ := exists_mem_listing hf hn
  rw [← hi] at hb
  suffices hgr : g ∈ run from mem_groupOf.mpr <| mem_paths.mpr ⟨g, hgr, f, hfg, rfl⟩
  rcases runs_cases hr with hinf | ⟨rfl, now, lastWrite, hc, hcold⟩
  · exact mem_of_between_infix pairwise_ofFiles hinf hg hb
  · have ⟨x, y, ha⟩ := append_of_mem hg
    rw [ha]
    apply mem_fullKept
    intro hk
    exact h g.id (.inr ⟨now, lastWrite, hc, hcold, x, g, y, ha, ha ▸ hk, rfl⟩) hb

end Contiguity

theorem call_contiguous_iff (h : p.Hides s hidden) :
    ((∀ g ∈ (p.call s c).2, Contiguous s g) ↔ p.Unbroken s hidden c) ∧
      ((∀ n, ¬p.PassedOver s hidden c n) → ∀ g ∈ (p.call s c).2, Contiguous s g) := by
  suffices hi : (∀ g ∈ (p.call s c).2, Contiguous s g) ↔ p.Unbroken s hidden c from
    ⟨hi, fun hn => hi.mpr <| .inr fun _ _ n hp => absurd hp (hn n)⟩
  have hs {run} (hr : run ∈ (p.runs s (listing s hidden) c).2) : run.Sublist (listing s hidden) :=
    (sublist_flatten_of_mem hr).trans runs_sublist
  rw [h.call_eq, Unbroken]
  split
  case isTrue hu => simpa using .inl hu
  case isFalse hu =>
    simp only [hu, false_or, forall_mem_map]
    constructor
    case mp => exact fun hc run hr n hn => not_between_of_contiguous (hs hr) hr (hc run hr) hn
    case mpr => exact fun hc run hr => contiguous_of_not_between (hs hr) hr (hc run hr)

section Reordered

def tsmFile (generation : Char) (sequence : Char) (size : UInt32) : FileStat :=
  { path := [generation, '-', sequence] ++ ".tsm".toList, size, hasTombstone := false }

def newPlanner (filesInUse : Finset FileName) : Planner :=
  { compactFullWriteColdDuration := 10,
    lastPlanCheck := 0,
    lastFindGenerations := 0,
    lastGenerations := [],
    filesInUse }

def fileStore (stats : List FileStat) : PlannerStore :=
  { stats, lastModified := 1, fullBlock := fun _ => true }

def flushed : PlannerStore :=
  fileStore [tsmFile '1' '1' 1, tsmFile '2' '1' 1, tsmFile '3' '1' 1]

def compacted : PlannerStore :=
  fileStore [tsmFile '1' '4' 1, tsmFile '2' '4' (2 ^ 32 - 1), tsmFile '3' '4' 1]

-- The file of the second generation is in use. Or it is large, and nothing was written in a while.
theorem call_not_contiguous :
    (((newPlanner {"2-1.tsm".toList}).call flushed (.level 1)).2 =
        [["1-1.tsm".toList, "3-1.tsm".toList]] ∧
      ¬Contiguous flushed ["1-1.tsm".toList, "3-1.tsm".toList]) ∧
    ((newPlanner ∅).call compacted (.plan 20 5)).2 = [["1-4.tsm".toList, "3-4.tsm".toList]] ∧
      ¬Contiguous compacted ["1-4.tsm".toList, "3-4.tsm".toList] := by
  decide

theorem call_contiguous_iff_in_use :
    Hides (newPlanner {"2-1.tsm".toList}) flushed {"2-1.tsm".toList} ∧
      ((∀ g ∈ ((newPlanner {"2-1.tsm".toList}).call flushed (.level 1)).2, Contiguous flushed g) ↔
        Unbroken (newPlanner {"2-1.tsm".toList}) flushed {"2-1.tsm".toList} (.level 1)) ∧
      ∀ g ∈ ((newPlanner ∅).call flushed (.level 1)).2, Contiguous flushed g := by
  have h : Hides (newPlanner {"2-1.tsm".toList}) flushed {"2-1.tsm".toList} := rfl
  have h' : Hides (newPlanner ∅) flushed ∅ := rfl
  refine ⟨h, (call_contiguous_iff h).1, (call_contiguous_iff h').2 ?_⟩
  rintro n (⟨_, _, hf, _⟩ | ⟨_, _, hc, _⟩)
  case inl => simp at hf
  case inr => cases hc

end Reordered

end Planner

end Tsm1
