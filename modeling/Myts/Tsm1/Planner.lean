import Myts.Lib.Decimal

-- Which files are compacted together.
namespace Tsm1

-- The generation and the sequence number of a file.
def parseTSMFileName (name : FileName) : Option (Nat × Nat) := do
  let base := (name.reverse.takeWhile (· ≠ '/')).reverse
  guard ('.' ∈ base)
  let id := base.takeWhile (· ≠ '.')
  guard ('-' ∈ id)
  let generation ← (Decimal.parseUint <| id.takeWhile (· ≠ '-')).filter (· < 2 ^ 32)
  let sequence ← (Decimal.parseUint <| (id.dropWhile (· ≠ '-')).drop 1).filter (· < 2 ^ 32)
  return (generation, sequence)

-- The planner does not look at the error.
def generationOf (name : FileName) : Nat :=
  ((parseTSMFileName name).getD (0, 0)).1

def sequenceOf (name : FileName) : Nat :=
  ((parseTSMFileName name).getD (0, 0)).2

structure FileStat where
  path : FileName
  size : UInt32
  hasTombstone : Bool
deriving DecidableEq

def maxTSMFileSize : UInt64 :=
  2048 * 1024 * 1024

@[ext]
structure TsmGeneration where
  id : Nat
  files : List FileStat
deriving DecidableEq

namespace TsmGeneration

def size (g : TsmGeneration) : UInt64 :=
  (g.files.map (·.size.toUInt64)).sum

-- The name of the first file says what the level is.
def level (g : TsmGeneration) : Nat :=
  let seq := (g.files.head?.map (sequenceOf ·.path)).getD 0
  if seq < 4 then seq else 4

def hasTombstones (g : TsmGeneration) : Bool :=
  g.files.any (·.hasTombstone)

def paths (g : TsmGeneration) : List FileName :=
  g.files.map (·.path)

end TsmGeneration

abbrev TsmGenerations := List TsmGeneration

namespace TsmGenerations

def hasTombstones (a : TsmGenerations) : Bool :=
  a.any (·.hasTombstones)

def level (a : TsmGenerations) : Nat :=
  a.foldl (fun level g => if level < g.level then g.level else level) 0

-- There are at most as many chunks as generations.
def chunk (size : Nat) (a : TsmGenerations) : List TsmGenerations :=
  go a.length a
where
  go : (fuel : Nat) → TsmGenerations → List TsmGenerations
    | 0, _ => []
    | fuel + 1, a =>
      if a = [] then
        []
      else if size ≤ a.length then
        a.take size :: go fuel (a.drop size)
      else
        [a]

def paths (a : TsmGenerations) : List FileName :=
  a.flatMap (·.paths)

-- The files by generation, in the order of the generations.
def ofFiles (files : List FileStat) : TsmGenerations :=
  let ids := (files.map (generationOf ·.path)).dedup.insertionSort (· ≤ ·)
  ids.map fun id => { id, files := files.filter (generationOf ·.path = id) }

-- Adjacent generations of the same level. A generation below the level of the next one would be
-- left behind otherwise.
def groupByLevel (current : TsmGenerations) : TsmGenerations → List TsmGenerations
  | [] => if current = [] then [] else [current]
  | cur :: rest =>
    if rest.head?.any (cur.level < ·.level) ∨ current = [] ∨ level current = cur.level then
      groupByLevel (current ++ [cur]) rest
    else
      current :: groupByLevel [cur] rest

end TsmGenerations

abbrev CompactionGroup := List FileName

-- What the planner sees of the file store.
structure PlannerStore where
  stats : List FileStat
  lastModified : Nat
  -- Whether the number of values of the file's second block is that of a full block.
  fullBlock : FileName → Bool

namespace PlannerStore

def full (s : PlannerStore) (g : TsmGeneration) : Bool :=
  g.files.head?.any (s.fullBlock ·.path)

end PlannerStore

section Runs

open TsmGenerations

variable (s : PlannerStore)

-- There is nothing to do with one generation without tombstones.
def nothingToDo (a : TsmGenerations) : Prop :=
  a.length ≤ 1 ∧ ¬TsmGenerations.hasTombstones a

instance (a : TsmGenerations) : Decidable (nothingToDo a) :=
  inferInstanceAs (Decidable (_ ∧ _))

def levelRuns (lvl : Nat) (a : TsmGenerations) : List TsmGenerations :=
  if nothingToDo a then
    []
  else
    let minGenerations := if lvl % 2 ≠ 0 then lvl + 1 else lvl
    let groupSize := if lvl = 1 then 8 else 4
    (groupByLevel [] a).filter (level · = lvl) |>.flatMap (chunk groupSize) |>.filter fun run =>
      minGenerations ≤ run.length ∨ TsmGenerations.hasTombstones run

def optimizeRuns (a : TsmGenerations) : List TsmGenerations :=
  if nothingToDo a then
    []
  else
    (groupByLevel [] a).filter (level · = 4) |>.filter fun run =>
      4 ≤ run.length ∨ TsmGenerations.hasTombstones run

-- A large generation is left out of a full compaction, unless the next one has to be combined with
-- it. There are `n` generations.
def Skips (n : Nat) (g : TsmGeneration) (next : Option TsmGeneration) : Prop :=
  (2 < n ∧ maxTSMFileSize < g.size ∧ s.full g ∧ ¬g.hasTombstones) ∧ ¬next.any (·.level ≤ 3)

instance : Decidable (Skips s n g next) :=
  inferInstanceAs (Decidable (_ ∧ _))

def fullKept (n : Nat) : TsmGenerations → TsmGenerations
  | [] => []
  | g :: a => if Skips s n g a.head? then fullKept n a else g :: fullKept n a

def fullRuns (a : TsmGenerations) : List TsmGenerations :=
  let run := fullKept s a.length a
  if (TsmGenerations.paths run).length ≤ 1 ∨ run.length ≤ 1 then [] else [run]

-- Where to start, so that the large generations at the start are left out. Once there are
-- tombstones, the start does not change any more.
def startIndex (i : Nat) (prev : Option TsmGeneration) (start : Nat) : TsmGenerations → Nat
  | [] => start
  | g :: a =>
    if g.hasTombstones then
      start
    else if prev.any (g.size * 2 < ·.size) then
      i
    else
      startIndex (i + 1) (some g) (if maxTSMFileSize < g.size ∧ s.full g then i + 1 else start) a

-- The generations of a window without as many of the first ones as there are large ones.
def windowRun (window : TsmGenerations) : Option TsmGenerations :=
  if window.any (·.level ≤ 3) then
    none
  else
    let run := window.drop <| window.countP fun g =>
      maxTSMFileSize ≤ g.size ∧ s.full g ∧ ¬g.hasTombstones
    if run = [] then none else some run

def planRuns (a : TsmGenerations) : List TsmGenerations :=
  let stop := (a.takeWhile (3 < ·.level)).length
  let start := startIndex s 0 none 0 (a.take stop)
  let step := min 4 stop
  (chunk step ((a.take stop).drop start)).filterMap (windowRun s) |>.filter fun run =>
    2 ≤ run.length ∨ TsmGenerations.hasTombstones run

end Runs

structure Planner where
  compactFullWriteColdDuration : Nat
  lastPlanCheck : Nat
  lastFindGenerations : Nat
  lastGenerations : TsmGenerations
  filesInUse : Finset FileName

-- The calls of the planner that return groups.
inductive PlanCall
  | level (level : Nat)
  | plan (now lastWrite : Nat)
  | optimize
deriving DecidableEq

namespace Planner

-- The generations are listed again only if the file store has been modified.
def Cached (p : Planner) (s : PlannerStore) : Prop :=
  p.lastFindGenerations ≠ 0 ∧ s.lastModified = p.lastFindGenerations

instance (p : Planner) (s : PlannerStore) : Decidable (p.Cached s) :=
  inferInstanceAs (Decidable (_ ∧ _))

def findGenerations (p : Planner) (s : PlannerStore) (skipInUse : Bool) :
    Planner × TsmGenerations :=
  if p.Cached s then
    (p, p.lastGenerations)
  else
    let files := s.stats.filter fun f => ¬(skipInUse ∧ f.path ∈ p.filesInUse)
    let a := TsmGenerations.ofFiles files
    ({ p with lastFindGenerations := s.lastModified, lastGenerations := a }, a)

def acquire (p : Planner) (groups : List CompactionGroup) : Planner × Bool :=
  if ∃ g ∈ groups, ∃ f ∈ g, f ∈ p.filesInUse then
    (p, false)
  else
    ({ p with filesInUse := p.filesInUse ∪ groups.flatten.toFinset }, true)

def release (p : Planner) (groups : List CompactionGroup) : Planner :=
  { p with filesInUse := p.filesInUse \ groups.flatten.toFinset }

-- A full compaction is due if nothing has been written in a long time.
def Cold (p : Planner) (now lastWrite : Nat) (a : TsmGenerations) : Prop :=
  0 < p.compactFullWriteColdDuration ∧ p.compactFullWriteColdDuration < now - lastWrite ∧
    1 < a.length

instance : Decidable (Cold p now lastWrite a) :=
  inferInstanceAs (Decidable (_ ∧ _))

-- The generations of each group, before the files are acquired.
def runs (p : Planner) (s : PlannerStore) (a : TsmGenerations) :
    PlanCall → Planner × List TsmGenerations
  | .level lvl => (p, levelRuns lvl a)
  | .optimize => (p, optimizeRuns a)
  | .plan now lastWrite =>
    if p.Cold now lastWrite a then
      (p, fullRuns s a)
    else if s.lastModified < p.lastPlanCheck ∧ ¬TsmGenerations.hasTombstones a then
      (p, [])
    else
      let p := { p with lastPlanCheck := now }
      (p, if nothingToDo a then [] else planRuns s a)

-- `Plan` sorts the files of a group.
def groupOf (run : TsmGenerations) : PlanCall → CompactionGroup
  | .plan _ _ => (TsmGenerations.paths run).insertionSort (FileName.lexLe · ·)
  | _ => TsmGenerations.paths run

def candidates (p : Planner) (s : PlannerStore) (call : PlanCall) :
    Planner × List CompactionGroup :=
  let (p, a) := p.findGenerations s true
  let (p, runs) := p.runs s a call
  (p, runs.map (groupOf · call))

def take (p : Planner) (groups : List CompactionGroup) : Planner × List CompactionGroup :=
  let (p, ok) := p.acquire groups
  (p, if ok then groups else [])

def call (p : Planner) (s : PlannerStore) (call : PlanCall) : Planner × List CompactionGroup :=
  let (p, groups) := p.candidates s call
  p.take groups

section Spec

-- The group has all files of its generations and of those in between.
def Contiguous (s : PlannerStore) (g : CompactionGroup) : Prop :=
  (∀ f ∈ g, f ∈ s.stats.map (·.path)) ∧
    ∀ f ∈ s.stats, (∃ a ∈ g, generationOf a ≤ generationOf f.path) →
      (∃ b ∈ g, generationOf f.path ≤ generationOf b) → f.path ∈ g

instance (s : PlannerStore) (g : CompactionGroup) : Decidable (Contiguous s g) :=
  inferInstanceAs (Decidable (_ ∧ _))

-- The generations without the files that are hidden from the planner.
def listing (s : PlannerStore) (hidden : Finset FileName) : TsmGenerations :=
  TsmGenerations.ofFiles (s.stats.filter (·.path ∉ hidden))

-- The files that the planner does not see are those that were in use when it listed the files.
def Hides (p : Planner) (s : PlannerStore) (hidden : Finset FileName) : Prop :=
  if p.Cached s then
    p.lastGenerations = listing s hidden
  else
    hidden = p.filesInUse

-- A generation has a hidden file, or a full compaction leaves it out since it is large.
def PassedOver (p : Planner) (s : PlannerStore) (hidden : Finset FileName) (call : PlanCall)
    (n : Nat) : Prop :=
  (∃ f ∈ s.stats, f.path ∈ hidden ∧ generationOf f.path = n) ∨
    ∃ now lastWrite, call = .plan now lastWrite ∧ p.Cold now lastWrite (listing s hidden) ∧
      ∃ x g y, listing s hidden = x ++ g :: y ∧
        Skips s (listing s hidden).length g y.head? ∧ g.id = n

def Between (run : TsmGenerations) (n : Nat) : Prop :=
  (∃ g ∈ run, g.id ≤ n) ∧ ∃ g ∈ run, n ≤ g.id

-- The listed generations that belong together are in use, or none of those that are passed over
-- lies between them.
def Unbroken (p : Planner) (s : PlannerStore) (hidden : Finset FileName) (call : PlanCall) : Prop :=
  let runs := (p.runs s (listing s hidden) call).2
  (∃ run ∈ runs, ∃ f ∈ TsmGenerations.paths run, f ∈ p.filesInUse) ∨
    ∀ run ∈ runs, ∀ n, p.PassedOver s hidden call n → ¬Between run n

end Spec

end Planner

end Tsm1
