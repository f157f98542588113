import Myts.Lib.Run
import Myts.Tsm1.Planner

-- The loop that plans and starts the compactions of an engine.
namespace Tsm1

-- The depth of a queue times its weight, as the floating point numbers round it.
structure Weights where
  product : Fin 4 → (depth : Nat) → ℚ
  product_zero : ∀ i, product i 0 = 0

structure Scheduler where
  maxConcurrency : Nat
  queues : Fin 4 → Nat

namespace Scheduler

def setDepth (s : Scheduler) (level : Fin 4) (depth : Nat) : Scheduler :=
  { s with queues := Function.update s.queues level depth }

def loLimit (s : Scheduler) : Nat :=
  s.maxConcurrency / 5 + 1

def heavier (w : Weights) (s : Scheduler) (best : Option (Fin 4) × ℚ) (i : Fin 4) :
    Option (Fin 4) × ℚ :=
  if best.2 < w.product i (s.queues i) then (some i, w.product i (s.queues i)) else best

-- The level of the compaction to start, by the numbers of compactions that are active.
def next (w : Weights) (s : Scheduler) (active : Fin 4 → Nat) : Option (Fin 4) :=
  if s.maxConcurrency ≤ active 0 + active 1 + active 2 + active 3 then
    none
  else
    let full :=
      s.loLimit ≤ active 2 + active 3 ∧ (s.maxConcurrency : Int) - (active 0 + active 1) = 0
    let levels := if full then [0, 1] else [0, 1, 2, 3]
    (levels.foldl (s.heavier w) (none, 0)).1

end Scheduler

-- What a call of the planner sees of the files, which may change between two of its reads.
structure FileView extends PlannerStore where
  distinct : (stats.map (·.path)).Nodup

-- The calls of the planner in one turn of the loop.
inductive Planning
  | level1
  | level2
  | level3
  | plan
  | optimize
deriving DecidableEq

namespace Planning

def call (now lastWrite : Nat) : Planning → PlanCall
  | level1 => .level 1
  | level2 => .level 2
  | level3 => .level 3
  | plan => .plan now lastWrite
  | optimize => .optimize

def slot : Planning → Fin 4
  | level1 => 0
  | level2 => 1
  | level3 => 2
  | plan | optimize => 3

end Planning

inductive Phase
  | idle
  -- In a call of the planner, before the generations are listed and before the files are acquired.
  | list (c : Planning)
  | acquire (c : Planning) (a : TsmGenerations)
  | start
  | release (i : Fin 4)
  | panicked
deriving DecidableEq

-- After the result of a call is there. The files are optimized only if there is nothing else to do
-- on the highest level.
def Phase.next (groups : List CompactionGroup) : Planning → Phase
  | .level1 => .list .level2
  | .level2 => .list .level3
  | .level3 => .list .plan
  | .plan => if groups = [] then .list .optimize else .start
  | .optimize => .start

structure Compaction where
  planner : Planner
  scheduler : Scheduler
  phase : Phase
  -- The groups of each level that the loop has planned and not started.
  groups : Fin 4 → List CompactionGroup
  -- The groups of the compactions that have been started and have not released their files.
  running : List CompactionGroup
  planned : List CompactionGroup
  released : List CompactionGroup

namespace Compaction

inductive Event
  | tick
  | list (s : FileView)
  | acquire (s : FileView) (now lastWrite : Nat)
  -- The numbers of active compactions that the scheduler has read, and whether there is room for
  -- another compaction.
  | start (active : Fin 4 → Nat) (taken : Bool)
  | release
  | complete (i : Nat)
  | fullyCompacted (s : FileView)

variable (w : Weights)

def setDepths (x : Compaction) : Scheduler :=
  [0, 1, 2, 3].foldl (fun s i => s.setDepth i (x.groups i).length) x.scheduler

def startGroup (x : Compaction) (i : Fin 4) (taken : Bool) : Compaction :=
  match x.groups i with
  | [] => { x with phase := .panicked }
  | group :: rest =>
    if taken then
      { x with
        groups := Function.update x.groups i rest,
        running := x.running ++ [group],
        phase := .release 0 }
    else
      { x with phase := .release 0 }

def start (x : Compaction) (active : Fin 4 → Nat) (taken : Bool) : Compaction :=
  let x := { x with scheduler := x.setDepths }
  match x.scheduler.next w active with
  | none => { x with phase := .release 0 }
  | some i => x.startGroup i taken

def acquire (x : Compaction) (c : Planning) (a : TsmGenerations) (s : FileView)
    (now lastWrite : Nat) : Compaction :=
  let call := c.call now lastWrite
  let (p, runs) := x.planner.runs s.toPlannerStore a call
  let (p, groups) := p.take (runs.map (Planner.groupOf · call))
  { x with
    planner := p,
    groups := Function.update x.groups c.slot groups,
    phase := .next groups c,
    planned := x.planned ++ groups }

def release (x : Compaction) (i : Fin 4) : Compaction :=
  { x with
    planner := x.planner.release (x.groups i),
    groups := Function.update x.groups i [],
    phase := if i = 3 then .idle else .release (i + 1),
    released := x.released ++ x.groups i }

def complete (x : Compaction) (i : Nat) : Compaction :=
  match x.running[i]? with
  | none => x
  | some group =>
    { x with
      planner := x.planner.release [group],
      running := x.running.eraseIdx i,
      released := x.released ++ [group] }

def list (x : Compaction) (c : Planning) (s : FileView) : Compaction :=
  let (p, a) := x.planner.findGenerations s.toPlannerStore true
  { x with planner := p, phase := .acquire c a }

-- An event at a time at which it cannot happen changes nothing.
def step (x : Compaction) : Event → Compaction
  | .tick => if x.phase = .idle then { x with phase := .list .level1 } else x
  | .list s =>
    match x.phase with
    | .list c => x.list c s
    | _ => x
  | .acquire s now lastWrite =>
    match x.phase with
    | .acquire c a => x.acquire c a s now lastWrite
    | _ => x
  | .start active taken => if x.phase = .start then x.start w active taken else x
  | .release =>
    match x.phase with
    | .release i => x.release i
    | _ => x
  | .complete i => x.complete i
  | .fullyCompacted s =>
    { x with planner := (x.planner.findGenerations s.toPlannerStore false).1 }

def init (coldDuration maxConcurrency : Nat) : Compaction :=
  { planner :=
      { compactFullWriteColdDuration := coldDuration,
        lastPlanCheck := 0,
        lastFindGenerations := 0,
        lastGenerations := [],
        filesInUse := ∅ },
    scheduler := { maxConcurrency, queues := fun _ => 0 },
    phase := .idle,
    groups := fun _ => [],
    running := [],
    planned := [],
    released := [] }

def held (x : Compaction) : List CompactionGroup :=
  [0, 1, 2, 3].flatMap x.groups ++ x.running

end Compaction

end Tsm1
