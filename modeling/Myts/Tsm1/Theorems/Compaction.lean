import Myts.Lib.Ownership
import Myts.Tsm1.Compaction
import Myts.Tsm1.Theorems.Planner

open List

namespace Tsm1

open TsmGenerations Function

section Paths

variable {files : List FileStat} {a : TsmGenerations}

theorem nodup_paths_ofFiles (h : (files.map (·.path)).Nodup) :
    (paths (.ofFiles files)).Nodup := by
  apply nodup_flatMap.mpr
  constructor
  case left =>
    intro g hg
    rw [TsmGeneration.paths, (mem_ofFiles.mp hg).2]
    exact h.sublist <| filter_sublist.map _
  case right =>
    apply pairwise_ofFiles.imp_of_mem
    intro g g' hg hg' hlt f hf hf'
    obtain ⟨st, hst, hp⟩ := mem_map.mp hf
    obtain ⟨st', hst', hp'⟩ := mem_map.mp hf'
    have hi := generationOf_of_mem hg hst
    have hi' := generationOf_of_mem hg' hst'
    rw [hp] at hi
    rw [hp'] at hi'
    exact hlt.ne (hi.symm.trans hi')

theorem Planner.groupOf_perm : (groupOf run c).Perm (paths run) := by
  cases c
  case plan => exact perm_insertionSort ..
  all_goals exact .refl _

theorem paths_flatten {L : List TsmGenerations} :
    paths L.flatten = L.flatMap paths := by
  simp only [paths, flatten_eq_flatMap, flatMap_assoc, id]
  rfl

theorem Planner.disjoint_groups {p : Planner} (h : (paths a).Nodup) :
    ((p.runs s a c).2.map (groupOf · c)).Pairwise List.Disjoint := by
  have hn : (paths (p.runs s a c).2.flatten).Nodup :=
    h.sublist <| runs_sublist.flatMap _
  rw [paths_flatten] at hn
  have hd := (nodup_flatMap.mp hn).2
  rw [pairwise_map]
  apply hd.imp
  intro run run' hd f hf hf'
  exact hd (groupOf_perm.mem_iff.mp hf) (groupOf_perm.mem_iff.mp hf')

theorem Planner.findGenerations_nodup {p : Planner} (s : FileView)
    (h : (paths p.lastGenerations).Nodup) :
    (paths (p.findGenerations s.toPlannerStore b).2).Nodup ∧
      (paths (p.findGenerations s.toPlannerStore b).1.lastGenerations).Nodup := by
  have hs q : ((s.stats.filter q).map (·.path)).Nodup :=
    s.distinct.sublist <| filter_sublist.map _
  rw [Planner.findGenerations]
  split
  case isTrue => exact ⟨h, h⟩
  case isFalse => exact ⟨nodup_paths_ofFiles (hs _), nodup_paths_ofFiles (hs _)⟩

theorem Planner.runs_lastGenerations {p : Planner} :
    (p.runs s a c).1.lastGenerations = p.lastGenerations := by
  cases c
  case plan =>
    simp only [runs]
    split_ifs <;> rfl
  all_goals rfl

theorem Planner.take_lastGenerations {p : Planner} {groups : List CompactionGroup} :
    (p.take groups).1.lastGenerations = p.lastGenerations := by
  simp only [take, acquire]
  split <;> rfl

theorem Planner.owns_take {p : Planner} {groups : List CompactionGroup}
    (h : Owns p.filesInUse held) (hd : groups.Pairwise List.Disjoint) :
    Owns (p.take groups).1.filesInUse ((p.take groups).2 ++ held) := by
  by_cases hu : ∃ g ∈ groups, ∃ f ∈ g, f ∈ p.filesInUse
  · simpa only [take, acquire, if_pos hu, Bool.false_eq_true, if_false, nil_append] using h
  · simp only [take, acquire, if_neg hu, if_true]
    push Not at hu
    exact h.acquire hd hu

end Paths

namespace Scheduler

variable {w : Weights} {s : Scheduler}

theorem queue_ne_zero_of_foldl (levels : List (Fin 4)) :
    0 ≤ (levels.foldl (s.heavier w) (none, 0)).2 ∧
      ∀ i, (levels.foldl (s.heavier w) (none, 0)).1 = some i → s.queues i ≠ 0 := by
  refine List.foldlRecOn (motive := fun best => 0 ≤ best.2 ∧ ∀ i, best.1 = some i → s.queues i ≠ 0)
    levels (s.heavier w) ?init ?step
  case init => exact ⟨le_rfl, nofun⟩
  case step =>
    intro best ⟨hp, hq⟩ i _
    rw [heavier]
    split
    case isFalse => exact ⟨hp, hq⟩
    case isTrue hlt =>
      refine ⟨hp.trans hlt.le, fun j hj hz => ?_⟩
      cases hj
      rw [hz, w.product_zero] at hlt
      exact absurd hlt hp.not_gt

theorem queue_ne_zero_of_next (h : s.next w active = some i) : s.queues i ≠ 0 := by
  simp only [next] at h
  split at h
  case isTrue => nomatch h
  case isFalse => exact (queue_ne_zero_of_foldl _).2 i h

end Scheduler

namespace Compaction

variable {x x' : Compaction} {w : Weights}

theorem setDepths_queues : x.setDepths.queues i = (x.groups i).length := by
  fin_cases i <;> simp [setDepths, Scheduler.setDepth, update]

theorem flatMap_update (groups : Fin 4 → List CompactionGroup) (i : Fin 4)
    (gs : List CompactionGroup) :
    ([0, 1, 2, 3].flatMap <| update groups i gs).Perm
      (gs ++ [0, 1, 2, 3].flatMap (update groups i [])) := by
  rw [← Multiset.coe_eq_coe]
  fin_cases i <;> simp [update, ← Multiset.coe_add] <;> abel

theorem held_update (x : Compaction) :
    x.held.Perm
      (x.groups i ++ ([0, 1, 2, 3].flatMap (update x.groups i []) ++ x.running)) := by
  have h := (flatMap_update x.groups i (x.groups i)).append_right x.running
  rwa [update_eq_self, append_assoc] at h

theorem held_acquire (groups : List CompactionGroup) (hg : x.groups i = []) :
    ([0, 1, 2, 3].flatMap (update x.groups i groups) ++ x.running).Perm
      (groups ++ x.held) := by
  have h := (flatMap_update x.groups i groups).append_right x.running
  have hu : update x.groups i [] = x.groups := by rw [← hg, update_eq_self]
  rwa [hu, append_assoc] at h

theorem held_start (hg : x.groups i = group :: rest) :
    ([0, 1, 2, 3].flatMap (update x.groups i rest) ++ (x.running ++ [group])).Perm
      x.held := by
  apply ((flatMap_update x.groups i rest).append_right _).trans
  apply List.Perm.trans ?_ (x.held_update (i := i)).symm
  rw [hg, perm_iff_count]
  intro g
  simp only [count_append, count_cons, count_nil]
  omega

theorem le_of_lt_add_one {i j : Fin 4} (hi : i ≠ 3) (h : j < i + 1) : j ≤ i := by
  revert i j
  decide

def Ready (x : Compaction) : Phase → Prop
  | .idle => ∀ i, x.groups i = []
  | .list c => ∀ i, c.slot ≤ i → x.groups i = []
  | .acquire c a => (paths a).Nodup ∧ ∀ i, c.slot ≤ i → x.groups i = []
  | .start => True
  | .release j => ∀ i < j, x.groups i = []
  | .panicked => False

structure Returns (gs : List CompactionGroup) (x x' : Compaction) : Prop where
  held : x.held.Perm (gs ++ x'.held)
  released : x'.released = x.released ++ gs
  files : x'.planner.filesInUse = x.planner.filesInUse \ gs.flatten.toFinset

theorem returns_complete (hi : x.running[i]? = some group) :
    Returns [group] x (x.complete i) := by
  rw [complete, hi]
  have ⟨hlt, hg⟩ := List.getElem?_eq_some_iff.mp hi
  have he := hg ▸ getElem_cons_eraseIdx_perm hlt
  exact ⟨(he.symm.append_left _).trans perm_middle, rfl, rfl⟩

theorem returns_release : Returns (x.groups i) x (x.release i) :=
  ⟨x.held_update, rfl, rfl⟩

structure Inv (x : Compaction) : Prop where
  owns : Owns x.planner.filesInUse x.held
  perm : x.planned.Perm (x.released ++ x.held)
  listed : (paths x.planner.lastGenerations).Nodup
  ready : x.Ready x.phase

theorem inv_init : (init coldDuration maxConcurrency).Inv where
  owns := .nil
  perm := .refl []
  listed := nodup_nil
  ready := fun _ => rfl

namespace Inv

theorem list (h : x.Inv) (hp : x.phase = .list c) : (x.list c s).Inv := by
  have ⟨hn, hl⟩ := Planner.findGenerations_nodup s (b := true) h.listed
  have ⟨_, _, hf⟩ := x.planner.findGenerations_frame (s := s.toPlannerStore) (b := true)
  have hr := h.ready
  rw [hp] at hr
  exact {
    owns := by
      simp only [Compaction.list, hf]
      exact h.owns
    perm := h.perm
    listed := hl
    ready := ⟨hn, hr⟩ }

theorem fullyCompacted (h : x.Inv) (s : FileView) :
    (x.step w <| .fullyCompacted s).Inv := by
  have ⟨_, hl⟩ := Planner.findGenerations_nodup s (b := false) h.listed
  have ⟨_, _, hf⟩ := x.planner.findGenerations_frame (s := s.toPlannerStore) (b := false)
  exact {
    owns := by
      simp only [Compaction.step, hf]
      exact h.owns
    perm := h.perm
    listed := hl
    ready := h.ready }

theorem ready_next {groups : List CompactionGroup} {c : Planning}
    (hg : ∀ i, c.slot ≤ i → x.groups i = [])
    (hx : x'.groups = update x.groups c.slot groups) : x'.Ready (.next groups c) := by
  have hn i (hi : c.slot < i) : x'.groups i = [] := by
    rw [hx, update_of_ne hi.ne', hg i hi.le]
  cases c
  case level1 => exact fun i hi => hn i <| lt_of_lt_of_le (by decide) hi
  case level2 => exact fun i hi => hn i <| lt_of_lt_of_le (by decide) hi
  case level3 => exact fun i hi => hn i <| lt_of_lt_of_le (by decide) hi
  case optimize => trivial
  case plan =>
    rw [Phase.next]
    split
    case isFalse => trivial
    case isTrue he =>
      intro i hi
      rw [hx, le_antisymm (Fin.le_last i) hi, he]
      exact update_self ..

theorem acquire (h : x.Inv) (hp : x.phase = .acquire c a) :
    (x.acquire c a s now lastWrite).Inv := by
  have ⟨hn, hg⟩ : x.Ready (.acquire c a) := hp ▸ h.ready
  have ho call : Owns (x.planner.runs s.toPlannerStore a call).1.filesInUse x.held := by
    rw [Planner.runs_filesInUse]
    exact h.owns
  have hh groups := held_acquire groups (hg c.slot le_rfl)
  exact {
    owns := (Planner.owns_take (ho _) <| Planner.disjoint_groups hn).perm (hh _).symm
    perm := by
      apply (h.perm.append_right _).trans
      rw [append_assoc]
      exact (perm_append_comm.trans (hh _).symm).append_left _
    listed := by
      simp only [Compaction.acquire, Planner.take_lastGenerations, Planner.runs_lastGenerations]
      exact h.listed
    ready := ready_next hg rfl }

theorem start (h : x.Inv) : (x.start w active taken).Inv := by
  have hr {y : Compaction} : y.Ready (.release 0) := fun i hi => absurd hi i.zero_le.not_gt
  rw [Compaction.start]
  split
  case h_1 => exact { h with ready := hr }
  case h_2 i hi =>
    have hq := Scheduler.queue_ne_zero_of_next hi
    rw [setDepths_queues] at hq
    rw [startGroup]
    split
    case h_1 hg => exact absurd (congrArg List.length hg) hq
    case h_2 group rest hg =>
      split
      case isFalse => exact { h with ready := hr }
      case isTrue =>
        have hh := held_start hg
        exact {
          owns := h.owns.perm hh.symm
          perm := h.perm.trans (hh.symm.append_left _)
          listed := h.listed
          ready := hr }

theorem returns (h : x.Inv) (hr : Returns gs x x')
    (hl : x'.planner.lastGenerations = x.planner.lastGenerations)
    (hp : x'.planned = x.planned) (hx : x'.Ready x'.phase) : x'.Inv where
  owns := hr.files ▸ (h.owns.perm hr.held).release
  perm := by
    rw [hp, hr.released, append_assoc]
    exact h.perm.trans (hr.held.append_left _)
  listed := hl ▸ h.listed
  ready := hx

theorem release (h : x.Inv) (hp : x.phase = .release i) : (x.release i).Inv := by
  have hr : x.Ready (.release i) := hp ▸ h.ready
  refine h.returns returns_release rfl rfl ?_
  have hj j (hj : j ≤ i) : (x.release i).groups j = [] := by
    rcases hj.eq_or_lt with rfl | hj
    · exact update_self ..
    · exact (update_of_ne hj.ne ..).trans <| hr j hj
  simp only [Compaction.release]
  split
  case isTrue hi => exact fun j => hj j <| hi ▸ Fin.le_last j
  case isFalse hi => exact fun j hlt => hj j <| le_of_lt_add_one hi hlt

theorem complete (h : x.Inv) : (x.complete i).Inv := by
  cases hi : x.running[i]?
  case none => rwa [Compaction.complete, hi]
  case some group =>
    have hr := returns_complete hi
    rw [Compaction.complete, hi] at hr ⊢
    exact h.returns hr rfl rfl h.ready

theorem step (h : x.Inv) : (x.step w e).Inv := by
  cases e
  case fullyCompacted s => exact h.fullyCompacted s
  case complete => exact h.complete
  case tick =>
    rw [Compaction.step]
    split
    case isFalse => exact h
    case isTrue hp =>
      have hr : x.Ready .idle := hp ▸ h.ready
      exact { h with ready := fun i _ => hr i }
  case start =>
    rw [Compaction.step]
    split
    case isTrue => exact h.start
    case isFalse => exact h
  case list =>
    dsimp only [Compaction.step]
    split
    case h_1 hp => exact h.list hp
    case h_2 => exact h
  case acquire =>
    dsimp only [Compaction.step]
    split
    case h_1 hp => exact h.acquire hp
    case h_2 => exact h
  case release =>
    dsimp only [Compaction.step]
    split
    case h_1 hp => exact h.release hp
    case h_2 => exact h

end Inv

structure Accounted (w : Weights) (x : Compaction) : Prop where
  inUse : x.planner.filesInUse = x.held.flatten.toFinset
  disjoint : x.held.Pairwise List.Disjoint
  planned : x.planned.Perm (x.released ++ x.held)
  complete : ∀ i group, x.running[i]? = some group → Returns [group] x (x.step w <| .complete i)
  release : ∀ i, x.phase = .release i → Returns (x.groups i) x (x.step w .release)
  idle : x.phase = .idle → x.held = x.running
  finished : x.phase = .idle → x.running = [] → x.planned.Perm x.released
  exists_group : x.phase ≠ .panicked

theorem held_groups (h : Run (step w) (fun _ _ => True) (init coldDuration maxConcurrency) x) :
    x.Accounted w := by
  have hi : x.Inv := h.invariant inv_init fun hi _ => hi.step
  have hidle (hp : x.phase = .idle) : x.held = x.running := by
    have hr : x.Ready .idle := hp ▸ hi.ready
    simp [held, hr _]
  refine ⟨hi.owns.eq, hi.owns.disjoint, hi.perm, fun i g => returns_complete, fun i hp => ?_,
    hidle, fun hp hr => ?_, fun hp => ?_⟩
  · simp only [step, hp]
    exact returns_release
  · have hperm := hi.perm
    rwa [hidle hp, hr, append_nil] at hperm
  · have hr : x.Ready .panicked := hp ▸ hi.ready
    exact hr

section Started

def defaultWeights : Weights where
  product i depth := depth * ![4, 3, 2, 1] i / 10
  product_zero i := by simp

def flushedView : FileView where
  stats := ['1', '2', '3'].map fun c => Planner.tsmFile c '1' 1
  lastModified := 1
  fullBlock _ := false
  distinct := by decide

def planning : List Event :=
  [.list flushedView, .acquire flushedView 2 1]

def turn (taken : Bool) : List Event :=
  .tick :: planning ++ planning ++ planning ++ planning ++ planning ++
    [.start (fun _ => 0) taken, .release, .release, .release, .release]

def twoTurns : List Event :=
  turn true ++ [.complete 0] ++ turn false

def after (n : Nat) : Compaction :=
  (twoTurns.take n).foldl (step defaultWeights) (init 10 2)

theorem held_groups_two_turns :
    ((after 16).running = [flushedView.stats.map (·.path)] ∧ (after 16).Accounted defaultWeights) ∧
      ((after 33).released = [flushedView.stats.map (·.path), flushedView.stats.map (·.path)] ∧
        (after 33).phase = .idle ∧ (after 33).running = []) ∧
      (after 33).Accounted defaultWeights :=
  ⟨⟨by decide +kernel, held_groups <| Run.foldl <| by decide⟩, by decide +kernel,
    held_groups <| Run.foldl <| by decide⟩

end Started

end Compaction

end Tsm1
