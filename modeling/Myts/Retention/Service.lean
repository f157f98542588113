import Myts.Lib.Run
import Myts.Meta.Data

-- The service that deletes the shards of a node that are expired or that are not in the metadata.
namespace Retention

open Influx (Package RetentionPolicyInfo ShardGroupInfo)

-- Where a pass is.
inductive Pass
  | idle
  -- The groups that are still to be deleted, and the shards of those that have been.
  | expired (groups : List (String × String × ShardGroupInfo)) (deletedShardIDs : List UInt64)
  -- The loop over the shards of the store for those that belong to the groups.
  | stored (ids deletedShardIDs : List UInt64)
  | expected (expectedShardIds : List UInt64)
  -- The loop over the shards of the store for those that are not expected.
  | removing (ids expectedShardIds : List UInt64)

structure System where
  authority : Meta.Data
  cache : Meta.Data
  -- The metadata that is on its way to the client.
  snapshot : Meta.Data
  shardIDs : List UInt64
  pass : Pass
  -- The calls of `DeleteShard`, with the metadata of the moment.
  calls : List (UInt64 × Meta.Data)

inductive Event
  | start (now : String → String → GoTime)
  -- The command may be applied and still be reported as failed.
  | deleteShardGroup (applied reported : Bool) (now : GoTime)
  | readStore
  | deleteShard (ok : Bool)
  | readExpected
  | finish
  | createShardGroup (database policy : String) (timestamp : GoTime)
  | sendSnapshot
  | receiveSnapshot
  | createShard (id : UInt64)

def shardIDsByNode (d : Meta.Data) (node : UInt64) : List UInt64 :=
  let a := (d.data.groups.filter fun g => ¬g.Deleted).flatMap fun g =>
    (g.shards.filter (·.OwnedBy node)).map (·.id)
  a.insertionSort (· ≤ ·)

namespace System

variable (I : Package) (expired : RetentionPolicyInfo → GoTime → List ShardGroupInfo) (node : UInt64)
variable (s : System)

def start (now : String → String → GoTime) : System :=
  match s.pass with
  | .idle =>
    let groups := s.cache.data.databases.flatMap fun d => d.retentionPolicies.flatMap fun r =>
      (expired r (now d.name r.name)).map fun g => (d.name, r.name, g)
    { s with pass := .expired groups [] }
  | _ => s

def deleteShardGroup (applied reported : Bool) (now : GoTime) : System :=
  match s.pass with
  | .expired ((db, rp, g) :: groups) deletedShardIDs =>
    match applied, I.run (.deleteShardGroup db rp g.id now) s.authority.data with
    | true, (data, none) =>
      let ids := g.shards.map (·.id)
      { s with
        authority := { s.authority with data }
        pass := .expired groups (if reported then ids ++ deletedShardIDs else deletedShardIDs) }
    | _, _ => { s with pass := .expired groups deletedShardIDs }
  | _ => s

def readStore : System :=
  match s.pass with
  | .expired [] deletedShardIDs => { s with pass := .stored s.shardIDs deletedShardIDs }
  | .expected expectedShardIds => { s with pass := .removing s.shardIDs expectedShardIds }
  | _ => s

-- `TSDBStore.DeleteShard`
def callDelete (ok : Bool) (id : UInt64) : System :=
  { s with
    shardIDs := if ok then s.shardIDs.filter (· ≠ id) else s.shardIDs
    calls := s.calls ++ [(id, s.authority)] }

def deleteShard (ok : Bool) : System :=
  match s.pass with
  | .stored (id :: ids) deletedShardIDs =>
    let s := { s with pass := .stored ids deletedShardIDs }
    if id ∈ deletedShardIDs then s.callDelete ok id else s
  | .removing (id :: ids) expectedShardIds =>
    let s := { s with pass := .removing ids expectedShardIds }
    if id ∉ expectedShardIds then s.callDelete ok id else s
  | _ => s

def readExpected : System :=
  match s.pass with
  | .stored [] _ => { s with pass := .expected (shardIDsByNode s.cache node) }
  | _ => s

-- `PruneShardGroups` does not change anything.
def finish : System :=
  match s.pass with
  | .removing [] _ => { s with pass := .idle }
  | _ => s

def createShardGroup (database policy : String) (timestamp : GoTime) : System :=
  match s.authority.createShardGroup I database policy timestamp with
  | .ok _ d => { s with authority := d }
  | .error _ _ => s

-- Points are written to shards that the metadata has.
def createShard (id : UInt64) : System :=
  if (∃ si ∈ s.authority.data.shards, si.id = id) ∧ id ∉ s.shardIDs then
    { s with shardIDs := s.shardIDs ++ [id] }
  else
    s

def step (s : System) : Event → System
  | .start now => s.start expired now
  | .deleteShardGroup applied reported now => s.deleteShardGroup I applied reported now
  | .readStore => s.readStore
  | .deleteShard ok => s.deleteShard ok
  | .readExpected => s.readExpected node
  | .finish => s.finish
  | .createShardGroup database policy t => s.createShardGroup I database policy t
  | .sendSnapshot => { s with snapshot := s.authority }
  | .receiveSnapshot => { s with cache := s.snapshot }
  | .createShard id => s.createShard id

end System

-- A shard of a group that is not deleted, on one of its owners.
def Live (d : Meta.Data) (node id : UInt64) : Prop :=
  ∃ g ∈ d.data.groups, ¬g.Deleted ∧ ∃ si ∈ g.shards, si.id = id ∧ si.OwnedBy node

instance : Decidable (Live d node x) := inferInstanceAs (Decidable (∃ g ∈ d.data.groups, _))

-- The shard belongs to a deleted group or is not owned by the node.
def Disposable (d : Meta.Data) (node id : UInt64) : Prop :=
  (∃ g ∈ d.data.groups, g.Deleted ∧ ∃ si ∈ g.shards, si.id = id) ∨
  ¬∃ g ∈ d.data.groups, ∃ si ∈ g.shards, si.id = id ∧ si.OwnedBy node

instance : Decidable (Disposable d node x) := inferInstanceAs (Decidable (_ ∨ _))

-- The groups of some metadata are still there in other metadata.
def Precedes (d d' : Meta.Data) : Prop :=
  ∀ g ∈ d.data.groups, ∃ g' ∈ d'.data.groups, g'.id = g.id ∧ g'.shards = g.shards ∧
    (g.Deleted → g'.Deleted)

instance : Decidable (Precedes d d') := inferInstanceAs (Decidable (∀ g ∈ d.data.groups, _))

-- Ids are given to groups and shards in ascending order.
@[mk_iff]
structure Numbered (d : Meta.Data) : Prop where
  nodup : (d.data.groups.map (·.id)).Nodup
  groups : ∀ g ∈ d.data.groups, g.id ≤ d.data.maxShardGroupID
  shards : ∀ si ∈ d.data.shards, si.id ≤ d.data.maxShardID

instance : Decidable (Numbered d) :=
  decidable_of_iff' _ (numbered_iff ..)

namespace System

-- No pass has been started. All metadata comes from the metastore, and so do the shards.
structure Initial (s : System) : Prop where
  numbered : Numbered s.authority
  cache : Precedes s.cache s.authority
  snapshot : Precedes s.snapshot s.authority
  shardIDs : ∀ id ∈ s.shardIDs, id ≤ s.authority.data.maxShardID
  pass : s.pass = .idle
  calls : s.calls = []

-- When the expected shards are read, the cache knows all live shards of the store, and from then on
-- until the shards of the store are read no other ones are created. There are ids left, and the clock
-- does not show the zero time.
def Careful (node : UInt64) (s : System) : Event → Prop
  | .deleteShardGroup _ _ now => now ≠ GoTime.zero
  | .readExpected => ∀ id ∈ s.shardIDs, Live s.authority node id → Live s.cache node id
  | .createShardGroup _ _ _ =>
    s.authority.data.maxShardID.toNat + s.authority.dataNodes.length < UInt64.size ∧
    s.authority.data.maxShardGroupID.toNat + 1 < UInt64.size
  | .createShard id =>
    match s.pass with
    | .expected expectedShardIds => id ∈ expectedShardIds
    | _ => True
  | _ => True

instance (s : System) (e : Event) : Decidable (s.Careful node e) := by
  apply Event.casesOn (motive := fun e => Decidable (s.Careful node e)) e
  case readExpected =>
    exact List.decidableBAll (fun x => Live s.authority node x → Live s.cache node x) s.shardIDs
  all_goals
    intros
    dsimp only [Careful]
    try split
    all_goals infer_instance

end System

end Retention
