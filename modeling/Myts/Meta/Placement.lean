import Myts.Meta.Owners

namespace Meta

open Influx (Package ShardInfo ShardGroupInfo)

namespace Data

-- The metadata with a new group whose shards have `r` owners each. A node owns at most one of them.
structure Places (d : Data) (r : Nat) (g : ShardGroupInfo) (d' : Data) : Prop where
  groups : d'.data.groups.Perm (d.data.groups ++ [g])
  shards : g.shards.length = d.dataNodes.length / r
  owners : ∀ s ∈ g.shards, (ShardInfo.ownerIDs s).length = r ∧ (ShardInfo.ownerIDs s).Nodup
    ∧ ShardInfo.ownerIDs s ⊆ d.nodeIDs
  apart : g.shards.Pairwise fun s s' => (ShardInfo.ownerIDs s).Disjoint (ShardInfo.ownerIDs s')
  status : ∀ s ∈ g.shards, ∀ n ∈ ShardInfo.ownerIDs s,
    (d'.status.lookup s.id).bind (·.lookup n) = some shardWriteRead

def groupIDs (d : Data) : List UInt64 :=
  d.data.groups.map (·.id)

def shardIDs (d : Data) : List UInt64 :=
  d.data.shards.map (·.id)

-- The counters have passed all ids.
structure Counted (d : Data) : Prop where
  groups : ∀ id ∈ d.groupIDs, id ≤ d.data.maxShardGroupID
  shards : ∀ id ∈ d.shardIDs, id ≤ d.data.maxShardID

instance : Decidable (Counted d) :=
  decidable_of_iff (d.groupIDs.all (· ≤ d.data.maxShardGroupID)
      ∧ d.shardIDs.all (· ≤ d.data.maxShardID))
    ⟨fun ⟨h₁, h₂⟩ => ⟨by simpa using h₁, by simpa using h₂⟩,
      fun ⟨h₁, h₂⟩ => ⟨by simpa using h₁, by simpa using h₂⟩⟩

-- The counters do not start again with a new group.
def HasShardIDs (d : Data) : Prop :=
  d.data.maxShardGroupID.toNat + 1 < UInt64.size
    ∧ d.data.maxShardID.toNat + d.dataNodes.length < UInt64.size

instance : Decidable (HasShardIDs d) := inferInstanceAs (Decidable (_ ∧ _))

-- A command that does not set the counters back, nor below the ids that are in use.
def KeepsCounters (I : Package) (d : Data) : Command → Prop
  | .createShardGroup _ _ _ => d.HasShardIDs
  | .setData pb =>
    let d' := Data.unmarshal I pb
    d'.Counted ∧ d.data.maxShardGroupID ≤ d'.data.maxShardGroupID
      ∧ d.data.maxShardID ≤ d'.data.maxShardID
  | _ => True

instance : DecidablePred (KeepsCounters I d) := fun cmd => by
  apply Command.casesOn (motive := fun cmd => Decidable (KeepsCounters I d cmd)) cmd <;> intros <;>
    dsimp only [KeepsCounters] <;> infer_instance

end Data

structure Usage where
  store : Option Store
  groupIDs : List UInt64
  shardIDs : List UInt64

namespace Usage

def init : Usage where
  store := some .init
  groupIDs := []
  shardIDs := []

def step (I : Package) (u : Usage) (i : Env × Log) : Usage :=
  let store := Store.step I u.store i
  { store := store
    groupIDs := u.groupIDs ++ store.elim [] (·.live.groupIDs)
    shardIDs := u.shardIDs ++ store.elim [] (·.live.shardIDs) }

def KeepsCounters (I : Package) (u : Usage) (i : Env × Log) : Prop :=
  ∀ s ∈ u.store, s.live.KeepsCounters I i.2.cmd

instance : Decidable (KeepsCounters I u i) :=
  inferInstanceAs (Decidable (∀ s ∈ u.store, _))

-- The ids of the group and of its shards are used for the first time.
structure Fresh (u : Usage) (g : ShardGroupInfo) : Prop where
  group : g.id ∉ u.groupIDs
  shards : ∀ s ∈ g.shards, s.id ∉ u.shardIDs
  nodup : (g.shards.map (·.id)).Nodup

end Usage
end Meta
