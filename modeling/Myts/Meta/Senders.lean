import Myts.Meta.Owners

namespace Meta

open Influx (Package)

-- The commands that are sent by a method of the client, by a handler or by the store itself, with the
-- fields that are set there.
def Command.Sent : Command → Prop
  | .removePeer .. => False
  | .createNode .. => False
  | .deleteNode .. => False
  | .setDefaultRetentionPolicy .. => False
  | .updateNode .. => False
  | .updateDataNode .. => False
  | .updateRetentionPolicy _ _ _ _ _ makeDefault shardDuration =>
    makeDefault.isSome ∧ shardDuration = none
  -- `doRebalance` sends new owners, and `restoreShard` sends the state of one owner.
  | .updateShard _ _ none => True
  | .updateShard _ owners (some (node, status)) =>
    owners = [] ∧ node.isSome ∧ status = some shardWriteRead
  | _ => True

instance : DecidablePred Command.Sent := fun cmd => by
  apply Command.casesOn (motive := fun cmd => Decidable cmd.Sent) cmd <;> intros
  case updateShard status =>
    rcases status with _ | ⟨_, _⟩ <;> dsimp only [Command.Sent] <;> infer_instance
  all_goals
    dsimp only [Command.Sent]
    infer_instance

-- There is no branch for the command, or a state is to be set in a map that is not there.
def Data.Panics (d : Data) : Command → Prop
  | .dropShard _ => True
  | .updateShard id _ (some _) => id ∉ d.status
  | _ => False

instance : DecidablePred (Data.Panics d) := fun cmd => by
  apply Command.casesOn (motive := fun cmd => Decidable (d.Panics cmd)) cmd <;> intros
  case updateShard status => cases status <;> dsimp only [Data.Panics] <;> infer_instance
  all_goals
    dsimp only [Data.Panics]
    infer_instance

namespace Store

-- What happens to a replica: it applies the next entry of the log, or it is restored from a snapshot
-- of its metadata.
inductive Event
  | apply (E : Env) (l : Log)
  | restore (o : StatusOrder)

def next (I : Package) (s : Option Store) : Event → Option Store
  | .apply E l => step I s (E, l)
  | .restore o => s.bind fun s => (s.persist I o s.data).map (s.restore I)

def SentOnly (s : Option Store) : Event → Prop
  | .apply _ l => l.cmd.Sent
  | .restore o => ∀ s' ∈ s, o.Visits s'.live.status

instance : Decidable (SentOnly s e) := by
  cases e <;> dsimp only [SentOnly] <;> infer_instance

end Store
end Meta
