import Myts.Meta.Store

namespace Meta

open Influx (Package ShardGroupInfo RetentionPolicyInfo)

namespace RetentionPolicyInfo

def liveGroups (rp : RetentionPolicyInfo) : List ShardGroupInfo :=
  rp.shardGroups.filter fun g => ¬g.Deleted ∧ ¬g.Truncated

-- The groups of a policy divide the time into intervals of the same length.
structure TimeAxis (rp : RetentionPolicyInfo) : Prop where
  sorted : (liveGroups rp).Pairwise fun g h => g.endTime ≤ h.endTime
  disjoint : (liveGroups rp).Pairwise fun g h => g.endTime ≤ h.startTime ∨ h.endTime ≤ g.startTime
  span : ∀ g ∈ liveGroups rp, g.endTime = g.startTime + rp.shardGroupDuration

def groupsAt (rp : RetentionPolicyInfo) (t : GoTime) : List ShardGroupInfo :=
  rp.shardGroups.filter fun g => ¬g.Deleted ∧ g.Contains t

end RetentionPolicyInfo

def Command.OnGroups : Command → Prop
  | .createShardGroup .. | .deleteShardGroup .. | .deleteDataNode .. => True
  | _ => False

instance : DecidablePred Command.OnGroups := fun cmd => by
  apply Command.casesOn (motive := fun cmd => Decidable (Command.OnGroups cmd)) cmd <;> intros <;>
    dsimp only [Command.OnGroups] <;> infer_instance

-- The clock of a machine does not show the zero time.
def Store.OnGroups (_ : Option Store) (i : Env × Log) : Prop :=
  i.2.cmd.OnGroups ∧ i.1.now ≠ GoTime.zero

instance : Decidable (Store.OnGroups s i) := inferInstanceAs (Decidable (_ ∧ _))

-- The group is one for the time, and it still has its bounds after it has been written and read.
structure ShardGroupInfo.KeepsBounds (I : Package) (t : GoTime) (g : ShardGroupInfo) : Prop where
  contains : g.Contains t
  startTime : (unmarshalShardGroupInfo I (marshalShardGroupInfo I g)).startTime = g.startTime
  endTime : (unmarshalShardGroupInfo I (marshalShardGroupInfo I g)).endTime = g.endTime

-- The slot of length `d` around a timestamp, together with its end, does not leave the range of the
-- timestamps.
def SlotFits (t : Int64) (d : Int) : Prop :=
  -2 ^ 63 ≤ t.toInt - (GoTime.unixEpoch + t.toInt) % d ∧
    t.toInt - (GoTime.unixEpoch + t.toInt) % d + d < 2 ^ 63

instance : Decidable (SlotFits t d) := inferInstanceAs (Decidable (_ ∧ _))

end Meta
