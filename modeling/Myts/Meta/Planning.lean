import Myts.Meta.Rebalance

namespace Meta

open Influx (ShardOwner ShardInfo ShardGroupInfo RetentionPolicyInfo DatabaseInfo)

-- A task with all that is needed to restore the shard.
structure RestorePlan extends ShardRestoreTask where
  database : String
  retentionPolicy : String
  newOwnerAddress : GoMap UInt64 String

structure LocatedShard where
  database : String
  retentionPolicy : String
  shard : ShardInfo

namespace Data

def locatedShards (d : Data) : List LocatedShard :=
  d.data.databases.flatMap fun dbi =>
    dbi.retentionPolicies.flatMap fun rpi =>
      rpi.shardGroups.flatMap fun sgi =>
        sgi.shards.map fun si => ⟨dbi.name, rpi.name, si⟩

variable (getAdminHost : String → String)

-- The loop over the nodes that is run for each new owner.
def ownerAddress (d : Data) (newOwners : List ShardOwner) : GoMap UInt64 String :=
  newOwners.foldl (fun m o => d.dataNodes.foldl (add o.nodeID) m) ∅
where
  add (nodeID : UInt64) (m : GoMap UInt64 String) (n : Influx.NodeInfo) : GoMap UInt64 String :=
    if n.id = nodeID then m.insert nodeID (getAdminHost n.tcpHost) else m

def task (d : Data) (s : LocatedShard) (newOwners : List ShardOwner) : RestorePlan where
  shardID := s.shard.id
  currentOwners := s.shard.owners
  newOwners := newOwners
  database := s.database
  retentionPolicy := s.retentionPolicy
  newOwnerAddress := d.ownerAddress getAdminHost newOwners

def plan (d : Data) : List LocatedShard → Nat → List RestorePlan
  | [], _ => []
  | s :: shards, nodeIndex =>
    if s.shard.owners.length < defaultReplicaN then
      let nodeID := d.dataNodes[nodeIndex % d.dataNodes.length]?.elim 0 (·.id)
      let need := defaultReplicaN - s.shard.owners.length
      let (newOwners, nodeIndex) := choose nodeID s.shard.owners need 5 nodeIndex []
      d.task getAdminHost s newOwners :: plan d shards nodeIndex
    else
      plan d shards nodeIndex

def planRebalance (isLeader : Bool) (d : Data) : Bool × List RestorePlan :=
  if ¬isLeader ∨ d.dataNodes = [] then
    (false, [])
  else
    let tasks := d.plan getAdminHost d.locatedShards (d.data.index.toNat % d.dataNodes.length)
    (tasks ≠ [], tasks)

def underReplicated (d : Data) : List LocatedShard :=
  d.locatedShards.filter (·.shard.owners.length < defaultReplicaN)

-- The task makes up for what the shard is missing.
structure Restores (d : Data) (s : LocatedShard) (t : RestorePlan) : Prop where
  shardID : t.shardID = s.shard.id
  currentOwners : t.currentOwners = s.shard.owners
  database : t.database = s.database
  retentionPolicy : t.retentionPolicy = s.retentionPolicy
  length : t.newOwners.length = defaultReplicaN - s.shard.owners.length
  nodup : t.newOwners.Nodup
  fresh : ∀ o ∈ t.newOwners, o ∉ s.shard.owners
  address : ∀ o ∈ t.newOwners, ∃ n ∈ d.dataNodes, n.id = o.nodeID ∧
    t.newOwnerAddress.lookup o.nodeID = some (getAdminHost n.tcpHost)

-- There is one task for each shard that has too few owners.
structure CompletePlan (d : Data) (r : Bool × List RestorePlan) : Prop where
  needed : r.1 = true ↔ d.underReplicated ≠ []
  tasks : List.Forall₂ (d.Restores getAdminHost) d.underReplicated r.2

-- The shard has one owner, which is not the node that has the turn.
def OwnedElsewhere (d : Data) (turn : Nat) (s : LocatedShard) : Prop :=
  ∃ o ∈ s.shard.owners.head?, s.shard.owners = [o] ∧
    ∀ n ∈ d.dataNodes[turn % d.dataNodes.length]?, n.id ≠ o.nodeID

-- The nodes take turns at the shards that have too few owners.
def TurnsFit (d : Data) : Prop :=
  ∀ k, ∀ s ∈ d.underReplicated[k]?, d.OwnedElsewhere (d.data.index.toNat + k) s

end Data
end Meta
