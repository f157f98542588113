import Myts.Meta.Store

namespace Meta

open Influx (Package)

namespace StatusMap

def Has (m : StatusMap) (shard node : UInt64) : Prop :=
  node ∈ (m.lookup shard).getD ∅

instance : Decidable (Has m shard node) := inferInstanceAs (Decidable (_ ∈ _))

end StatusMap

namespace Data

def HasStatus (d : Data) (shard node : UInt64) : Prop :=
  StatusMap.Has (d.shardStatus.getD ∅) shard node

instance : Decidable (HasStatus d shard node) := inferInstanceAs (Decidable (StatusMap.Has _ _ _))

-- The state of the node for a shard of the group is removed when the node is deleted.
def LosesStatus (d : Data) (node : UInt64) (g : Influx.ShardGroupInfo) : Prop :=
  ∃ s ∈ g.shards, ShardInfo.ownedBy node s ∧ d.HasStatus s.id node

instance : DecidablePred (LosesStatus d node) := fun g =>
  inferInstanceAs (Decidable (∃ s ∈ g.shards, _))

-- The groups that are looked through until one of them has an orphaned shard that can not be
-- reassigned.
def visitedGroups (M : Machine) (node : UInt64) (d : Data) : List Influx.ShardGroupInfo :=
  Slice.visited (fun g => (ShardGroupInfo.deleteNode node M g).2) d.data.groups

-- A command that removes states before it is given up.
def Leaks (E : Env) (d : Data) : Command → Prop
  | .deleteDataNode node =>
    (d.dataNode node).isSome ∧ ∃ g ∈ d.visitedGroups E.toMachine node, d.LosesStatus node g
  | _ => False

instance : DecidablePred (Leaks E d) := fun cmd => by
  cases cmd <;> dsimp only [Leaks] <;> infer_instance

-- A command that writes to the map of the shard states.
def WritesStatus (I : Package) (d : Data) : Command → Prop
  | .createShardGroup db policy ts =>
    match d.groupToCreate I db policy (.unix ts) with
    | .ok (some (_, _, g)) => g.shards ≠ []
    | _ => False
  | .deleteDataNode node =>
    (d.dataNode node).isSome ∧ ∃ g ∈ d.data.groups, d.LosesStatus node g
  | .updateShard id owners status =>
    (owners ≠ [] ∧ id ∈ d.data.shards.map (·.id) ∧ id ∈ d.shardStatus.getD ∅) ∨ status ≠ none
  | _ => False

instance : DecidablePred (WritesStatus I d) := fun cmd => by
  cases cmd <;> unfold WritesStatus
  case createShardGroup =>
    dsimp only
    split <;> infer_instance
  all_goals infer_instance

-- A command that leaves other metadata in the store, and does not only stamp the old one.
def Replaces (I : Package) (E : Env) (d : Data) (cmd : Command) : Prop :=
  match dispatch I E cmd with
  | .update m => (m d matches .ok () _)
  | .overwrite _ => True
  | .keep _ => False
  | .panic => False

instance : DecidablePred (Replaces I E d) := fun cmd => by
  unfold Replaces
  split <;> infer_instance

end Data

namespace Store

-- The metadata at the address has the same map as the current metadata.
def SharesMap (s : Store) (p : Nat) : Prop :=
  s.cell.shardStatus.isSome ∧ s.cells[p]?.map (·.shardStatus) = some s.cell.shardStatus

instance : Decidable (SharesMap s p) := inferInstanceAs (Decidable (_ ∧ _))

-- The command does not write to the map of the metadata at the address.
def LeavesMap (I : Package) (p : Nat) (s : Option Store) (i : Env × Log) : Prop :=
  ∀ s' ∈ s, s'.SharesMap p → ¬s'.live.WritesStatus I i.2.cmd

instance : Decidable (LeavesMap I p s i) :=
  inferInstanceAs (Decidable (∀ s' ∈ s, _))

-- The command does not write its term and its index to the metadata at the address.
def LeavesStamp (I : Package) (p : Nat) (s : Option Store) (i : Env × Log) : Prop :=
  ∀ s' ∈ s, s'.data = p → s'.live.Replaces I i.1 i.2.cmd

instance : Decidable (LeavesStamp I p s i) :=
  inferInstanceAs (Decidable (∀ s' ∈ s, _))

end Store
end Meta
