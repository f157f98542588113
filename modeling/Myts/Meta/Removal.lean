import Myts.Lib.Balance
import Myts.Meta.Owners

namespace Meta

open Influx (ShardInfo ShardGroupInfo)

namespace ShardGroupInfo

def owned (shards : List ShardInfo) (node : UInt64) : Nat :=
  shards.countP fun s => decide (s.OwnedBy node)

def Alone (id : UInt64) (s : ShardInfo) : Prop :=
  s.owners = [{ nodeID := id }]

instance : DecidablePred (Alone node) := fun _ => inferInstanceAs (Decidable (_ = _))

-- Another node owns a shard of the group.
def HeldElsewhere (id : UInt64) (g : ShardGroupInfo) : Prop :=
  ∃ s ∈ g.shards, ∃ o ∈ s.owners, o.nodeID ≠ id

instance : DecidablePred (HeldElsewhere node) := fun _ => inferInstanceAs (Decidable (∃ _ ∈ _, _))

-- What becomes of a group if a node goes away and the nodes of `R` remain. When the shard at a
-- position gets its new owner, the shards before it already have theirs.
structure Removed (now : GoTime) (R : Finset UInt64) (id : UInt64) (g g' : ShardGroupInfo) : Prop where
  marked : g'.deletedAt =
    if g.shards = [] ∨ ∀ s ∈ g.shards, Alone id s then now else g.deletedAt
  owners : HeldElsewhere id g → ∀ s ∈ g'.shards, s.owners ≠ [] ∧ ∀ o ∈ s.owners, o.nodeID ∈ R
  adopted : HeldElsewhere id g → ∀ p s, g.shards[p]? = some s → Alone id s →
    ∃ n ∈ R, g'.shards[p]? = some { s with owners := [{ nodeID := n }] } ∧
      ∀ r ∈ R, owned (g'.shards.take p ++ g.shards.drop p) n
        ≤ owned (g'.shards.take p ++ g.shards.drop p) r
  kept : ∀ (p : Nat) (s : ShardInfo), g.shards[p]? = some s → ¬s.OwnedBy id →
    g'.shards[p]? = some s

def small (R : Finset UInt64) : Finset UInt64 :=
  R.filter (·.toNat < 2 ^ 63)

-- The shards that the node owns alone can be given to the nodes of `R`. Only the first shard with an
-- id gets an owner, only nodes that own a shard of the group get another one, and nodes with an id
-- that is negative as an `int` must not get their turn before all of the shards have an owner. The
-- last id is the one that stands for no node in the search.
structure Adoptable (R : Finset UInt64) (id : UInt64) (g : ShardGroupInfo) : Prop where
  first : g.shards.Pairwise fun t s => Alone id s → t.id ≠ s.id
  shared : ∀ r ∈ R, ∃ s ∈ g.shards, s.OwnedBy r
  turns : ∀ a ∈ R, 2 ^ 63 ≤ a.toNat →
    g.shards.countP (fun s => decide (Alone id s))
      ≤ Balance.room (small R) (owned g.shards)
        (owned g.shards a + if a.toNat + 1 = UInt64.size then 1 else 0)

end ShardGroupInfo

namespace Data

def WellOwned (d : Data) : Prop :=
  ∀ s ∈ d.data.shards, (ShardInfo.ownerIDs s).Nodup ∧ ShardInfo.ownerIDs s ⊆ d.nodeIDs

instance : DecidablePred WellOwned := fun _ => inferInstanceAs (Decidable (∀ _ ∈ _, _))

def others (d : Data) (id : UInt64) : Finset UInt64 :=
  d.nodeIDs.toFinset.erase id

-- The removal of a data node as it should be.
def NodeRemoved (M : Machine) (id : UInt64) (d : Data) : Prop :=
  ∃ d', deleteDataNode M id d = .ok () d' ∧ d'.dataNodes = d.dataNodes.filter (·.id ≠ id)
    ∧ (∀ s ∈ d'.data.shards, ¬s.OwnedBy id)
    ∧ List.Forall₂ (ShardGroupInfo.Removed M.now (d.others id) id) d.data.groups d'.data.groups

-- All shards have owners, and those that are owned by the node alone can be given to other nodes.
def Removable (id : UInt64) (d : Data) : Prop :=
  ∀ g ∈ d.data.groups, (∀ s ∈ g.shards, s.owners ≠ []) ∧
    ((∃ s ∈ g.shards, ShardGroupInfo.Alone id s) → ShardGroupInfo.HeldElsewhere id g →
      ShardGroupInfo.Adoptable (d.others id) id g)

end Data
end Meta
