import Myts.Meta.Client

namespace Meta

open Influx (Package ShardGroupInfo RetentionPolicyInfo DatabaseInfo)

namespace Client

-- What a call of `CreateShardGroup` meets: the cached metadata when it starts, the error of
-- `retryUntilExec`, and the cached metadata after the command has been executed.
structure Exec where
  before : Data
  err : Option String
  after : Data

-- `Client.RetentionPolicy`
def retentionPolicy (I : Package) (d : Data) (database policy : String) :
    Except String (Option RetentionPolicyInfo) :=
  (I.retentionPolicy d.data database policy).map (·.bind fun (i, j) => d.data.policy? i j)

def shardGroupByTimestamp (I : Package) (d : Data) (database policy : String) (timestamp : GoTime) :
    Option ShardGroupInfo :=
  match retentionPolicy I d database policy with
  | .ok (some rpi) => I.shardGroupByTimestamp rpi timestamp
  | _ => none

-- The group is a pointer, which is nil if there is still no group for the time.
def createShardGroup (I : Package) (x : Exec) (database policy : String) (timestamp : GoTime) :
    Except String (Option ShardGroupInfo) :=
  match shardGroupByTimestamp I x.before database policy timestamp with
  | some sg => .ok (some sg)
  | none =>
    match x.err with
    | some err => .error err
    | none =>
      match retentionPolicy I x.after database policy with
      | .error err => .error err
      | .ok none         => .error "retention policy deleted after shard group created"
      | .ok (some rpi) => .ok (I.shardGroupByTimestamp rpi timestamp)

structure Creation where
  database : String
  policy : String
  timestamp : GoTime
deriving DecidableEq

-- The time for which the next group is to be created, if the last group ends soon.
def nextShardGroupTime (tmin tmax : GoTime) (rp : RetentionPolicyInfo) : Option GoTime :=
  match rp.shardGroups.getLast? with
  | none => none
  | some g => if ¬g.Deleted ∧ g.endTime < tmax ∧ tmin < g.endTime then some (g.endTime + 1) else none

-- The calls that have been made, and whether the client is still there.
structure Precreated where
  calls : List Creation
  panicked : Bool
deriving DecidableEq

variable (I : Package) (env : Nat → Exec) (tmin tmax : GoTime)

-- The loop over the policies of a database. The id of the new group is logged. The calls so far are
-- counted.
def precreatePolicies (database : String) : List RetentionPolicyInfo → Nat → Precreated
  | [], _ => { calls := [], panicked := false }
  | rp :: rps, k =>
    match nextShardGroupTime tmin tmax rp with
    | none => precreatePolicies database rps k
    | some t =>
      let call := { database, policy := rp.name, timestamp := t }
      match createShardGroup I (env k) database rp.name t with
      | .ok none => { calls := [call], panicked := true }
      | _ =>
        let r := precreatePolicies database rps (k + 1)
        { r with calls := call :: r.calls }

-- The loop over the databases returns in its first round.
def precreateShardGroups (d : Data) : Precreated :=
  match d.data.databases with
  | [] => { calls := [], panicked := false }
  | di :: _ => precreatePolicies I env tmin tmax di.name di.retentionPolicies 0

-- The groups that should be created for some policies of a database, behind the last group if it
-- is not deleted and ends in between.
def dueOf (database : String) (rps : List RetentionPolicyInfo) : List Creation :=
  rps.flatMap fun rp =>
    (rp.shardGroups.getLast?.toList.filter fun g =>
      ¬g.Deleted ∧ tmin < g.endTime ∧ g.endTime < tmax).map fun g =>
        { database, policy := rp.name, timestamp := g.endTime + 1 }

def dueCreations (di : DatabaseInfo) : List Creation :=
  dueOf tmin tmax di.name di.retentionPolicies

structure PrecreatesAll (d : Data) (r : Precreated) : Prop where
  calls : r.calls = d.data.databases.flatMap (dueCreations tmin tmax)
  alive : r.panicked = false

-- The creation goes well and there is no group for its time.
structure YieldsNothing (x : Exec) (c : Creation) : Prop where
  before : shardGroupByTimestamp I x.before c.database c.policy c.timestamp = none
  err : x.err = none
  after : ∃ rpi, retentionPolicy I x.after c.database c.policy = .ok (some rpi)
    ∧ I.shardGroupByTimestamp rpi c.timestamp = none

-- Only the first database has groups to be created, and each of the creations yields a group or an
-- error.
structure OnlyFirstDue (d : Data) : Prop where
  others : ∀ di ∈ d.data.databases.tail, dueCreations tmin tmax di = []
  yields : ∀ di ∈ d.data.databases.head?, ∀ k, ∀ c ∈ (dueCreations tmin tmax di)[k]?,
    ¬YieldsNothing I (env k) c

end Client
end Meta
