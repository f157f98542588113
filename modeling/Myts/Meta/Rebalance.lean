import Myts.Meta.Owners

namespace Meta

open Influx (Package ShardOwner ShardInfo)

def defaultReplicaN : Nat := 2

structure ShardRestoreTask where
  shardID : UInt64
  currentOwners : List ShardOwner
  newOwners : List ShardOwner
deriving DecidableEq

-- The loop that looks for new owners of a shard. It tries the same node again and again.
def choose (nodeID : UInt64) (owners : List ShardOwner) :
    (need maxChooseCount nodeIndex : Nat) → List ShardOwner → List ShardOwner × Nat
  | 0, _, nodeIndex, newOwners => (newOwners, nodeIndex)
  | _ + 1, 0, nodeIndex, newOwners => (newOwners, nodeIndex + 1)
  | need + 1, count + 1, nodeIndex, newOwners =>
    if owners.any (·.nodeID == nodeID) then
      choose nodeID owners (need + 1) count (nodeIndex + 1) newOwners
    else
      choose nodeID owners need count (nodeIndex + 1) (newOwners ++ [{ nodeID }])

def Data.needRebalance (d : Data) : List ShardRestoreTask :=
  if d.dataNodes = [] then
    []
  else
    go d.data.shards (d.data.index.toNat % d.dataNodes.length)
where
  go : List ShardInfo → Nat → List ShardRestoreTask
  | [], _ => []
  | si :: shards, nodeIndex =>
    if si.owners.length < defaultReplicaN then
      let nodeID := d.dataNodes[nodeIndex % d.dataNodes.length]?.elim 0 (·.id)
      let need := defaultReplicaN - si.owners.length
      let (newOwners, nodeIndex) := choose nodeID si.owners need 5 nodeIndex []
      { shardID := si.id, currentOwners := si.owners, newOwners } :: go shards nodeIndex
    else
      go shards nodeIndex

-- The commands in question, together with what the sender knew.
inductive Entry
  | addOwners (task : ShardRestoreTask)
  | setStatus (shardID node : UInt64)
  | deleteDataNode (id : UInt64)
deriving DecidableEq

def Entry.cmd : Entry → Command
  | addOwners t => .updateShard t.shardID (t.newOwners.map (·.nodeID)) none
  | setStatus shardID node => .updateShard shardID [] (some (some node, some shardWriteRead))
  | deleteDataNode id => .deleteDataNode id

-- The commands of a run in their order. The state of a new owner is sent after its shard has been
-- restored.
def doRebalance (tasks : List ShardRestoreTask) : List Entry :=
  tasks.flatMap fun task =>
    if task.currentOwners = [] then
      []
    else
      .addOwners task :: task.newOwners.map fun o => .setStatus task.shardID o.nodeID

-- The metadata with the runs that are in flight. A leader that has not applied the whole log sees a
-- state of the past. The owners that shards have been given by rebalancing are remembered.
structure Cluster where
  data : Data
  past : List Data
  runs : List (List Entry)
  log : List Entry
  given : List (List UInt64)

namespace Cluster

inductive Event
  | tick (seen : Nat)
  | append (run : Nat)
  -- The next command of a run is not sent as the shard could not be restored, or it is lost.
  | skip (run : Nat)
  | delete (id : UInt64)
  | commit (E : Env) (term index : UInt64)

def init (d : Data) : Cluster where
  data := d
  past := []
  runs := []
  log := []
  given := []

-- The owners of the shards that an entry adds owners to, as they are afterwards.
def givenBy (e : Entry) (d : Data) : List (List UInt64) :=
  match e with
  | .addOwners t =>
    if t.newOwners = [] then
      []
    else
      (d.data.shards.filter (·.id = t.shardID)).map ShardInfo.ownerIDs
  | _ => []

def commit (I : Package) (c : Cluster) (E : Env) (term index : UInt64) : Option Cluster :=
  match c.log with
  | [] => some c
  | e :: l => (c.data.apply I E { term, index, cmd := e.cmd }).map fun (d, _) => { c with
    data := d
    past := c.data :: c.past
    log := l
    given := givenBy e d ++ c.given }

def step (I : Package) (c : Option Cluster) (e : Event) : Option Cluster :=
  c.bind fun c =>
    match e with
    | .tick seen =>
      some { c with runs := c.runs ++ ((c.data :: c.past)[seen]?.map fun d =>
        doRebalance d.needRebalance).toList }
    | .append run => some { c with
      runs := c.runs.modify run List.tail
      log := c.log ++ (c.runs[run]?.bind List.head?).toList }
    | .skip run => some { c with runs := c.runs.modify run List.tail }
    | .delete id => some { c with log := c.log ++ [.deleteDataNode id] }
    | .commit E term index => c.commit I E term index

-- The owners of the shard have not changed since the task was made.
def UpToDate (d : Data) : Entry → Prop
  | .addOwners t => ∀ s ∈ d.data.shards, s.id = t.shardID → s.owners = t.currentOwners
  | _ => True

instance : DecidablePred (UpToDate d) := fun e => by
  cases e <;> dsimp only [UpToDate] <;> infer_instance

def InTime (c : Option Cluster) : Event → Prop
  | .commit _ _ _ => ∀ c' ∈ c, ∀ e ∈ c'.log.head?, UpToDate c'.data e
  | _ => True

instance : Decidable (InTime c e) := by
  cases e <;> dsimp only [InTime] <;> infer_instance

end Cluster

end Meta
