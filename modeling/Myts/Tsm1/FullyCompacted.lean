import Myts.Lib.Run
import Myts.Tsm1.Planner

namespace Tsm1

def Planner.fullyCompacted (p : Planner) (s : PlannerStore) : Planner × Bool :=
  let (p, gens) := p.findGenerations s false
  (p, gens.length ≤ 1 ∧ ¬TsmGenerations.hasTombstones gens)

-- A planner together with the file store that it looks at.
structure PlannedStore where
  planner : Planner
  store : PlannerStore

namespace PlannedStore

inductive Event
  | modify (s : PlannerStore)
  | plan (c : PlanCall)
  -- A compaction that has finished or has been aborted releases its files.
  | release (groups : List CompactionGroup)
  | fullyCompacted

def step (x : PlannedStore) : Event → PlannedStore
  | .modify s => if x.store.lastModified < s.lastModified then { x with store := s } else x
  | .plan c => { x with planner := (x.planner.call x.store c).1 }
  | .release groups => { x with planner := x.planner.release groups }
  | .fullyCompacted => { x with planner := (x.planner.fullyCompacted x.store).1 }

def init (coldDuration : Nat) (store : PlannerStore) : PlannedStore where
  planner := {
    compactFullWriteColdDuration := coldDuration
    lastPlanCheck := 0
    lastFindGenerations := 0
    lastGenerations := []
    filesInUse := ∅ }
  store := store

-- The generations that the next call for a plan looks at.
def considered (x : PlannedStore) : TsmGenerations :=
  (x.planner.findGenerations x.store true).2

structure UpToDate (x : PlannedStore) : Prop where
  full : (x.planner.fullyCompacted x.store).2 →
    nothingToDo (TsmGenerations.ofFiles x.store.stats)
  released : ∀ groups, ∀ f ∈ x.store.stats, f.path ∈ groups.flatten →
    ∃ g ∈ (x.step (.release groups)).considered, f ∈ g.files

-- The files are listed for a plan only if none of them is in use.
def ListsAll (x : PlannedStore) : Event → Prop
  | .plan _ => x.planner.Cached x.store ∨ ∀ f ∈ x.store.stats, f.path ∉ x.planner.filesInUse
  | _ => True

instance (x : PlannedStore) (e : Event) : Decidable (x.ListsAll e) := by
  cases e <;> dsimp only [ListsAll] <;> infer_instance

end PlannedStore
end Tsm1
