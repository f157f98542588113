import Myts.Data.Mapping
import Myts.Lib.Arrivals

open Influx (Package Point ShardInfo ShardOwner ShardGroupInfo)

inductive ConsistencyLevel
  | any
  | one
  | quorum
  | all
deriving DecidableEq

def WriteError.text : WriteError → String
  | new text => text
  | databaseNotFound name            => "database not found: " ++ name
  | retentionPolicyNotFound name     => "retention policy not found: " ++ name
  | partialWriteError reason dropped => s!"partial write: {reason} dropped={dropped}"
  | external text => text
  | panic                            => ""

def errTimeout : WriteError := .new "timeout"

def errPartialWrite : WriteError := .new "partial write"

def errWriteFailed : WriteError := .new "write failed"

-- `tsdb.ErrShardNotFound` or another error of the local store.
inductive StoreError
  | shardNotFound
  | other (text : String)
deriving DecidableEq

def StoreError.toWriteError : StoreError → WriteError
  | shardNotFound => .external "shard not found"
  | other text => .external text

structure Attempt where
  writeToShard : Option StoreError
  createShard : Option StoreError
  writeToShardAgain : Option StoreError
  writeShard : Option WriteError
  hintedHandoff : Option (Option WriteError)

namespace PointsWriter

section WriteToShard

variable (node : UInt64) (level : ConsistencyLevel)

def required (owners : Nat) : Nat :=
  match level with
  | .any | .one => 1
  | .quorum => owners / 2 + 1
  | .all => owners

def writeLocal (a : Attempt) : Option WriteError :=
  match a.writeToShard with
  | none => none
  | some .shardNotFound =>
    match a.createShard with
    | some e => some e.toWriteError
    | none => a.writeToShardAgain.map StoreError.toWriteError
  | some e => some e.toWriteError

def writeRemote (a : Attempt) : Option WriteError :=
  match a.writeShard with
  | none => none
  | some err =>
    match a.hintedHandoff with
    | none => some err
    | some (some hherr) => some hherr
    -- For other levels the original error propagates.
    | some none => if level = .any then none else some err

def writeToOwner (owner : ShardOwner) (a : Attempt) : Option WriteError :=
  if node = owner.nodeID then writeLocal a else writeRemote level a

-- The loop over the results of the owners. There is no result as long as it is blocked.
def awaitOwners (required : Nat) (result : ι → Option WriteError) :
    (owners wrote : Nat) → (writeError : Option WriteError) → List (Arrival ι) →
    Option (Option WriteError)
  | 0, wrote, writeError, _ =>
    if wrote > 0 then
      some (some errPartialWrite)
    else
      match writeError with
      | some e => some (some (.new ("write failed: " ++ e.text)))
      | none => some (some errWriteFailed)
  | _ + 1, _, _, [] => none
  | _ + 1, _, _, .closing :: _ => some (some errWriteFailed)
  | _ + 1, _, _, .timeout :: _ => some (some errTimeout)
  | owners + 1, wrote, writeError, .sent i :: rest =>
    match result i with
    | some e => awaitOwners required result owners wrote (some (writeError.getD e)) rest
    | none =>
      if wrote + 1 ≥ required then
        some none
      else
        awaitOwners required result owners (wrote + 1) writeError rest

-- What the environment does: the results of the calls and the order in which they arrive.
structure World where
  attempt : (s : ShardInfo) → Fin s.owners.length → Attempt
  owners : (s : ShardInfo) → Arrivals (Fin s.owners.length)
  shards : (ids : Finset UInt64) → Arrivals ids

def writeToShard (W : World) (shard : ShardInfo) : Option (Option WriteError) :=
  awaitOwners (required level shard.owners.length)
    (fun i => writeToOwner node level (shard.owners.get i) (W.attempt shard i))
    shard.owners.length 0 none (W.owners shard).list

end WriteToShard

section WritePoints

variable [Point P] (I : Package) (shardFor : ShardGroupInfo → UInt64 → Option ShardInfo)
variable (node : UInt64)

def awaitShards (result : ι → Option (Option WriteError)) (err : Option WriteError) :
    (shards : Nat) → List (Arrival ι) → Option (Option WriteError)
  | 0, _ => some err
  | _ + 1, [] => none
  | _ + 1, .closing :: _ => some (some errWriteFailed)
  | _ + 1, .timeout :: _ => some (some errTimeout)
  | shards + 1, .sent i :: rest =>
    match result i with
    | none => none
    | some (some e) => some (some e)
    | some none => awaitShards result err shards rest

def writeMapped (level : ConsistencyLevel) (W : World) (m : ShardMapping P) (id : UInt64) :
    Option (Option WriteError) :=
  match m.shards.lookup id with
  | none => some (some .panic)
  | some shard => writeToShard node level W shard

def writeShards (level : ConsistencyLevel) (W : World) (m : ShardMapping P) :
    Option (Option WriteError) :=
  let err :=
    if m.dropped.length > 0 then
      some (.partialWriteError "points beyond retention policy" m.dropped.length)
    else
      none
  awaitShards (ι := m.points.keys) (writeMapped node level W m ·) err m.points.keys.card
    (W.shards m.points.keys).list

def retentionPolicyOr (c : MetaClient) (database retentionPolicy : String) :
    Except WriteError String :=
  if retentionPolicy = "" then
    match c.database database with
    | none => .error (.databaseNotFound database)
    | some db => .ok db.defaultRetentionPolicy
  else
    .ok retentionPolicy

def writePointsPrivileged (W : World) (now : GoTime) (c : MetaClient)
    (database retentionPolicy : String) (level : ConsistencyLevel) (points : List P) :
    Option (Option WriteError) :=
  match retentionPolicyOr c database retentionPolicy with
  | .error e => some (some e)
  | .ok retentionPolicy =>
    match mapShards I shardFor now { database, retentionPolicy, points } c with
    | .error e _ => some (some e)
    | .ok m _ => writeShards node level W m

end WritePoints

-- The points have been stored on behalf of the owner.
def Succeeds (node : UInt64) (level : ConsistencyLevel) (owner : ShardOwner) (a : Attempt) : Prop :=
  if node = owner.nodeID then
    a.writeToShard = none
      ∨ a.writeToShard = some .shardNotFound ∧ a.createShard = none ∧ a.writeToShardAgain = none
  else
    a.writeShard = none ∨ level = .any ∧ a.hintedHandoff = some none

instance : Decidable (Succeeds node level owner a) := inferInstanceAs (Decidable (ite _ _ _))

def successes (node : UInt64) (level : ConsistencyLevel) (W : World) (s : ShardInfo) :
    Finset (Fin s.owners.length) :=
  Finset.univ.filter fun i => Succeeds node level (s.owners.get i) (W.attempt s i)

end PointsWriter

namespace Influx.Standard

def groupOf (id : UInt64) (startTime endTime : GoTime) (nodes : List UInt64) : ShardGroupInfo :=
  { group id startTime endTime with shards := [{ id, owners := nodes.map ShardOwner.mk }] }

-- The writes to some nodes fail. All results arrive, for the shards with the ids 1 and 2.
def world (failing : List UInt64) : PointsWriter.World where
  attempt s i := {
    writeToShard := none
    createShard := none
    writeToShardAgain := none
    writeShard := if (s.owners.get i).nodeID ∈ failing then some (.external "refused") else none
    hintedHandoff := some none }
  owners s := .inOrder (List.finRange _) (List.nodup_finRange _)
  shards ids := .inOrder
    ([1, 2].filterMap fun id => if h : id ∈ ids then some ⟨id, h⟩ else none) <|
    List.Nodup.filterMap (by grind) (by decide)

end Influx.Standard
