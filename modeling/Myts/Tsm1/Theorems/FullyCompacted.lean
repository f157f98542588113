import Myts.Tsm1.FullyCompacted
import Myts.Tsm1.Theorems.Planner

namespace Tsm1.PlannedStore

open TsmGenerations (ofFiles)

variable {x : PlannedStore}

structure Fresh (x : PlannedStore) : Prop where
  all : x.planner.Cached x.store → x.planner.lastGenerations = ofFiles x.store.stats
  le : x.planner.lastFindGenerations ≤ x.store.lastModified

theorem Fresh.init : Fresh (init coldDuration st) where
  all h := absurd rfl h.left
  le := Nat.zero_le _

theorem Fresh.modify (h : Fresh x) (hl : x.store.lastModified < s.lastModified) :
    Fresh { x with store := s } where
  all hc := absurd hc.right (h.le.trans_lt hl).ne'
  le := h.le.trans hl.le

theorem Fresh.congr (h : Fresh x) {p : Planner}
    (hl : p.lastFindGenerations = x.planner.lastFindGenerations)
    (hg : p.lastGenerations = x.planner.lastGenerations) : Fresh { x with planner := p } where
  all hc := hg.trans <| h.all (by simpa only [Planner.Cached, hl] using hc)
  le := hl.trans_le h.le

theorem Fresh.findGenerations (h : Fresh x)
    (hu : x.planner.Cached x.store ∨ skipInUse = false ∨
      ∀ f ∈ x.store.stats, f.path ∉ x.planner.filesInUse) :
    Fresh { x with planner := (x.planner.findGenerations x.store skipInUse).1 } := by
  by_cases hc : x.planner.Cached x.store
  · rw [Planner.findGenerations, if_pos hc]
    exact h
  · have hf : x.store.stats.filter (fun f => ¬(skipInUse ∧ f.path ∈ x.planner.filesInUse)) =
        x.store.stats := by
      refine List.filter_eq_self.mpr fun f hf => ?_
      rcases hu.resolve_left hc with hs | hn
      · simp [hs]
      · simp [hn f hf]
    rw [Planner.findGenerations, if_neg hc, hf]
    exact ⟨fun _ => rfl, le_rfl⟩

theorem runs_cache (p : Planner) (s : PlannerStore) (a : TsmGenerations) (c : PlanCall) :
    (p.runs s a c).1.lastFindGenerations = p.lastFindGenerations ∧
    (p.runs s a c).1.lastGenerations = p.lastGenerations := by
  cases c
  case level => exact ⟨rfl, rfl⟩
  case optimize => exact ⟨rfl, rfl⟩
  case plan now lastWrite =>
    simp only [Planner.runs]
    split_ifs <;> exact ⟨rfl, rfl⟩

theorem take_cache (p : Planner) (groups : List CompactionGroup) :
    (p.take groups).1.lastFindGenerations = p.lastFindGenerations ∧
    (p.take groups).1.lastGenerations = p.lastGenerations := by
  simp only [Planner.take, Planner.acquire]
  split <;> exact ⟨rfl, rfl⟩

theorem call_cache (p : Planner) (s : PlannerStore) (c : PlanCall) :
    (p.call s c).1.lastFindGenerations = (p.findGenerations s true).1.lastFindGenerations ∧
    (p.call s c).1.lastGenerations = (p.findGenerations s true).1.lastGenerations := by
  have ⟨hr, hr'⟩ := runs_cache (p.findGenerations s true).1 s (p.findGenerations s true).2 c
  have ⟨ht, ht'⟩ := take_cache (p.candidates s c).1 (p.candidates s c).2
  exact ⟨ht.trans hr, ht'.trans hr'⟩

theorem Fresh.step (h : Fresh x) (hl : x.ListsAll e) : Fresh (x.step e) := by
  cases e
  case modify s =>
    unfold PlannedStore.step
    dsimp only
    split
    case isTrue hl => exact h.modify hl
    case isFalse => exact h
  case plan c =>
    have ⟨h₁, h₂⟩ := call_cache x.planner x.store c
    exact (h.findGenerations (hl.imp_right .inr)).congr h₁ h₂
  case release groups => exact h.congr rfl rfl
  case fullyCompacted => exact h.findGenerations (.inr <| .inl rfl)

theorem Fresh.findGenerations_false (h : Fresh x) :
    (x.planner.findGenerations x.store false).2 = ofFiles x.store.stats := by
  rw [Planner.findGenerations]
  split
  case isTrue hc => exact h.all hc
  case isFalse => simp

theorem exists_mem_ofFiles (hf : f ∈ files) : ∃ g ∈ ofFiles files, f ∈ g.files := by
  have hg : ⟨generationOf f.path, files.filter (generationOf ·.path = generationOf f.path)⟩ ∈
      ofFiles files := mem_ofFiles.mpr ⟨⟨f, hf, rfl⟩, rfl⟩
  exact ⟨_, hg, (mem_files_of_mem_ofFiles hg).mpr ⟨hf, rfl⟩⟩

theorem Fresh.considered_release (h : Fresh x) (hf : f ∈ x.store.stats)
    (hg : f.path ∈ groups.flatten) :
    ∃ g ∈ (x.step (.release groups)).considered, f ∈ g.files := by
  have hr : Fresh (x.step (.release groups)) := h.congr rfl rfl
  have hn : f.path ∉ (x.step (.release groups)).planner.filesInUse := fun hm =>
    (Finset.mem_sdiff.mp hm).right (List.mem_toFinset.mpr hg)
  rw [considered, Planner.findGenerations]
  split
  case isTrue hc =>
    rw [hr.all hc]
    exact exists_mem_ofFiles hf
  case isFalse =>
    exact exists_mem_ofFiles <| List.mem_filter.mpr ⟨hf, by simpa using hn⟩

theorem Fresh.upToDate (h : Fresh x) : UpToDate x where
  full hc := by
    have hd : nothingToDo (x.planner.findGenerations x.store false).2 := of_decide_eq_true hc
    rwa [h.findGenerations_false] at hd
  released groups f hf hg := h.considered_release hf hg

theorem planner_upToDate (h : Run step ListsAll (init coldDuration st) x) : UpToDate x :=
  (h.invariant .init fun hi hl => hi.step hl : Fresh x).upToDate

def older : FileStat := ⟨"000000001-000000001.tsm".toList, 100, true⟩

def newer : FileStat := ⟨"000000002-000000001.tsm".toList, 100, false⟩

def oneFile : PlannerStore := ⟨[older], 1, fun _ => false⟩

def twoFiles : PlannerStore := ⟨[older, newer], 2, fun _ => false⟩

def stale : PlannedStore :=
  [.plan (.level 1), .modify twoFiles, .plan (.level 1)].foldl step (init 0 oneFile)

-- The two generations with tombstones are taken for one without. After the files of the compaction
-- have been released the planner still does not see them.
theorem stale_fullyCompacted :
    (stale.planner.fullyCompacted stale.store).2 = true ∧
    stale.store = twoFiles ∧ older.path ∈ stale.planner.filesInUse ∧
    (stale.step (.release [[older.path]])).considered = [⟨2, [newer]⟩] ∧
    ¬UpToDate stale := by
  have hc : (stale.planner.fullyCompacted stale.store).2 = true := by decide +kernel
  have hs : stale.store.stats = [older, newer] := by decide +kernel
  refine ⟨hc, rfl, by decide +kernel, by decide +kernel, fun h => ?_⟩
  exact absurd (hs ▸ h.full hc) (by decide +kernel)

theorem upToDate_sequential :
    UpToDate ([.plan (.level 1), .release [[older.path]], .modify twoFiles, .plan (.level 1)].foldl
      step (init 0 oneFile)) :=
  planner_upToDate (Run.foldl (by decide +kernel))

end Tsm1.PlannedStore
