import Myts.Meta.Store

namespace Influx

structure RetentionPolicySpec where
  name : String
  replicaN : Option Int
  duration : Option Int
  shardGroupDuration : Int
deriving DecidableEq

-- What the client takes from the other package to check a request and to prepare its command.
structure Specs where
  minRetentionPolicyDuration : Int
  newRetentionPolicyInfo : RetentionPolicySpec → RetentionPolicyInfo
  retentionPolicy : DatabaseInfo → String → Option RetentionPolicyInfo

-- A specification makes a new policy, which has one replica if nothing else is said.
structure Specs.Laws (S : Specs) : Prop where
  replicaN : ∀ spec, (S.newRetentionPolicyInfo spec).replicaN = spec.replicaN.getD 1
  shardGroups : ∀ spec, (S.newRetentionPolicyInfo spec).shardGroups = []
  subscriptions : ∀ spec, (S.newRetentionPolicyInfo spec).subscriptions = []

def RetentionPolicySpec.DurationTooLow (S : Specs) (spec : RetentionPolicySpec) : Prop :=
  ∃ d ∈ spec.duration, d < S.minRetentionPolicyDuration ∧ d ≠ 0

instance : DecidablePred (RetentionPolicySpec.DurationTooLow S) :=
  fun spec => inferInstanceAs (Decidable (∃ d ∈ spec.duration, _))

end Influx

namespace Meta

open Influx (Package Specs RetentionPolicySpec RetentionPolicyUpdate RetentionPolicyInfo DatabaseInfo)

namespace Client

inductive RequestError
  | nilSpec
  | retentionPolicyDurationTooLow
  | retentionPolicyConflict
  | databaseNotFound (name : String)
deriving DecidableEq

-- A method of the client returns at once, or it sends a command. In the end it then returns what it
-- finds in the cache.
inductive Request (α : Type)
  | returned (r : Except RequestError α)
  | exec (cmd : Command) (result : Data → Except RequestError α)

def Request.command? : Request α → Option Command
  | returned _ => none
  | exec cmd _ => some cmd

def database (cacheData : Data) (name : String) : Option DatabaseInfo :=
  cacheData.data.databases.find? (·.name = name)

variable (I : Package) (S : Specs)

def retentionPolicyOf (cacheData : Data) (db name : String) :
    Except RequestError (Option RetentionPolicyInfo) :=
  match database cacheData db with
  | none => .error (.databaseNotFound db)
  | some di => .ok (S.retentionPolicy di name)

def createDatabaseWithRetentionPolicy (cacheData : Data) (name : String)
    (spec : Option RetentionPolicySpec) : Request (Option DatabaseInfo) :=
  match spec with
  | none => .returned (.error .nilSpec)
  | some spec =>
    if spec.DurationTooLow S then
      .returned (.error .retentionPolicyDurationTooLow)
    else
      let rpi := S.newRetentionPolicyInfo spec
      let db := database cacheData name
      match db.bind (S.retentionPolicy · rpi.name) with
      | some rp =>
        if rp.replicaN ≠ rpi.replicaN ∨ rp.duration ≠ rpi.duration then
          .returned (.error .retentionPolicyConflict)
        else
          .returned (.ok db)
      | none =>
        .exec (.createDatabase name (some (marshalRetentionPolicyInfo I rpi)))
          fun cacheData => .ok (database cacheData name)

def createRetentionPolicy (cacheData : Data) (db : String) (spec : RetentionPolicySpec)
    (makeDefault : Bool) : Request (Option RetentionPolicyInfo) :=
  if spec.DurationTooLow S then
    .returned (.error .retentionPolicyDurationTooLow)
  else
    let rpi := S.newRetentionPolicyInfo spec
    match retentionPolicyOf S cacheData db rpi.name with
    | .ok (some rp) => .returned (.ok (some rp))
    | _ =>
      .exec (.createRetentionPolicy db (marshalRetentionPolicyInfo I rpi) makeDefault)
        (retentionPolicyOf S · db rpi.name)

-- The field of the command for the duration of the groups is not set.
def updateRetentionPolicy (db name : String) (rpu : RetentionPolicyUpdate) (makeDefault : Bool) :
    Request Unit :=
  let replicaN := rpu.replicaN.map fun n => UInt32.ofNat (n % 2 ^ 32).toNat
  .exec (.updateRetentionPolicy db name rpu.name rpu.duration replicaN (some makeDefault) none)
    fun _ => .ok ()

-- What a caller asks for.
inductive Wish
  | createDatabaseWithRetentionPolicy (name : String) (spec : RetentionPolicySpec)
  | createRetentionPolicy (db : String) (spec : RetentionPolicySpec) (makeDefault : Bool)
  | updateRetentionPolicy (db name : String) (rpu : RetentionPolicyUpdate) (makeDefault : Bool)

namespace Wish

-- The command that is built by the client, if there is one.
def command? (cacheData : Data) : Wish → Option Command
  | createDatabaseWithRetentionPolicy name spec =>
    (Client.createDatabaseWithRetentionPolicy I S cacheData name (some spec)).command?
  | createRetentionPolicy db spec makeDefault =>
    (Client.createRetentionPolicy I S cacheData db spec makeDefault).command?
  | updateRetentionPolicy db name rpu makeDefault =>
    (Client.updateRetentionPolicy db name rpu makeDefault).command?

-- The wish in terms of the methods of the metadata.
def method : Wish → DataM Unit
  | createDatabaseWithRetentionPolicy name spec => do
    Data.onInflux I (.createDatabase name)
    Data.onInflux I (.createRetentionPolicy name (S.newRetentionPolicyInfo spec) true)
  | createRetentionPolicy db spec makeDefault =>
    Data.onInflux I (.createRetentionPolicy db (S.newRetentionPolicyInfo spec) makeDefault)
  | updateRetentionPolicy db name rpu makeDefault =>
    Data.onInflux I (.updateRetentionPolicy db name rpu makeDefault)

end Wish
end Client

namespace Data

-- What a replica does if it applies a method to a copy of its metadata.
def applyMethod (l : Log) (m : DataM Unit) (d : Data) : Option (Data × Option Error) :=
  match m d with
  | .ok () d' => some (d'.stamp l, none)
  | .error .panic _ => none
  | .error e d' => some (DataOf.stamp l { d with shardStatus := d.leaked d' }, some e)

end Data

namespace Client

-- The application of the command is the application of the method, whatever the other package does
-- and whatever is in the cache of the client.
def Wish.Granted (S : Specs) (w : Wish) : Prop :=
  ∀ (I : Package) (cacheData : Data), ∀ cmd ∈ w.command? I S cacheData,
    ∀ (E : Env) (l : Log) (d : Data), l.cmd = cmd →
      d.apply I E l = d.applyMethod l (w.method I S)

def FitsReplicaN (replicaN : Option Int) : Prop :=
  ∀ n ∈ replicaN, 0 ≤ n ∧ n < 2 ^ 32

instance : DecidablePred FitsReplicaN :=
  fun replicaN => inferInstanceAs (Decidable (∀ n ∈ replicaN, _))

-- A replication factor must fit into 32 bits, and the duration of the groups can not be updated.
def Wish.Carried (S : Specs) : Wish → Prop
  | createDatabaseWithRetentionPolicy _ spec => spec.DurationTooLow S ∨ FitsReplicaN spec.replicaN
  | createRetentionPolicy _ spec _ => spec.DurationTooLow S ∨ FitsReplicaN spec.replicaN
  | updateRetentionPolicy _ _ rpu _ =>
    rpu.shardGroupDuration = none ∧ FitsReplicaN rpu.replicaN

instance : DecidablePred (Wish.Carried S)
  | .createDatabaseWithRetentionPolicy _ _ => inferInstanceAs (Decidable (_ ∨ _))
  | .createRetentionPolicy _ _ _ => inferInstanceAs (Decidable (_ ∨ _))
  | .updateRetentionPolicy _ _ _ _ => inferInstanceAs (Decidable (_ ∧ _))

end Client
end Meta
