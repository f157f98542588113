import Myts.Meta.Isolation

namespace Meta

open Influx (Package ShardInfo)

def ShardInfo.ownerIDs (s : ShardInfo) : List UInt64 :=
  s.owners.map (·.nodeID)

-- The states of some shards are the states of their owners, which are all among the nodes.
@[mk_iff]
structure Tracked (shards : List ShardInfo) (nodes : List UInt64) (m : StatusMap) : Prop where
  nodup : ∀ s ∈ shards, (ShardInfo.ownerIDs s).Nodup
  exist : ∀ s ∈ shards, ShardInfo.ownerIDs s ⊆ nodes
  status : ∀ s ∈ shards, ((m.lookup s.id).getD ∅).keys = (ShardInfo.ownerIDs s).toFinset
  known : m.keys ⊆ (shards.map (·.id)).toFinset

instance : Decidable (Tracked shards nodes m) :=
  decidable_of_iff' _ (tracked_iff ..)

namespace Data

def nodeIDs (d : Data) : List UInt64 :=
  d.dataNodes.map (·.id)

def status (d : Data) : StatusMap :=
  d.shardStatus.getD ∅

def liveShards (d : Data) : List ShardInfo :=
  (d.data.groups.filter fun g => ¬g.Deleted).flatMap (·.shards)

-- The owners of the shards and the states of the shards belong together.
@[mk_iff]
structure Consistent (d : Data) : Prop where
  nodup : ∀ s ∈ d.liveShards, (ShardInfo.ownerIDs s).Nodup
  exist : ∀ s ∈ d.liveShards, ShardInfo.ownerIDs s ⊆ d.nodeIDs
  status : ∀ s ∈ d.liveShards,
    ((d.status.lookup s.id).getD ∅).keys = (ShardInfo.ownerIDs s).toFinset
  known : d.status.keys ⊆ (d.data.shards.map (·.id)).toFinset

instance : DecidablePred Consistent := fun _ =>
  decidable_of_iff' _ (consistent_iff ..)

-- The states also follow the owners in groups that are deleted, and no shard has an id that is still
-- to be given to a new one.
@[mk_iff]
structure Tracked (d : Data) : Prop where
  tracked : Meta.Tracked d.data.shards d.nodeIDs d.status
  le_max : ∀ s ∈ d.data.shards, s.id ≤ d.data.maxShardID

instance : DecidablePred Tracked := fun _ =>
  decidable_of_iff' _ (tracked_iff ..)

-- New owners are data nodes that do not own the shard yet, and a state is set for an owner.
@[mk_iff]
structure UpdatesOwners (d : Data) (owners : List UInt64) (node : Option UInt64) (s : ShardInfo) :
    Prop where
  nodup : (ShardInfo.ownerIDs s ++ owners).Nodup
  exist : owners ⊆ d.nodeIDs
  entry : owners ≠ [] → s.id ∈ d.status
  owner : node.toList ⊆ ShardInfo.ownerIDs s ++ owners

instance : Decidable (UpdatesOwners d owners node s) :=
  decidable_of_iff' _ (updatesOwners_iff ..)

-- The command changes the owners and the states together.
def KeepsOwners (I : Package) (d : Data) : Command → Prop
  | .createShardGroup _ _ _ =>
    d.nodeIDs.Nodup ∧ d.data.maxShardID.toNat + d.dataNodes.length < UInt64.size
  | .updateShard id owners status => ∀ s ∈ d.data.shards, s.id = id →
    d.UpdatesOwners owners (status.bind Prod.fst) s
  | .deleteDataNode id => ∀ g ∈ d.data.groups,
    ShardGroupInfo.AllOrphaned id g ∨ ShardGroupInfo.orphanedShards id g = []
  | .dropDatabase name => (Influx.Op.dropDatabase name).KeepsShards d.data
  | .dropRetentionPolicy db name => (Influx.Op.dropRetentionPolicy db name).KeepsShards d.data
  | .setData data => (unmarshal I data).Tracked
  | _ => True

instance : DecidablePred (KeepsOwners I d) := fun cmd => by
  apply Command.casesOn (motive := fun cmd => Decidable (KeepsOwners I d cmd)) cmd <;> intros <;>
    dsimp only [KeepsOwners] <;> infer_instance

end Data
end Meta
