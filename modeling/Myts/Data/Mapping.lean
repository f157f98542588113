import Myts.Lib.Search
import Myts.Meta.Standard

namespace Influx

-- What is used of the points, which come from another package.
class Point (P : Type) where
  time : P → GoTime
  hashID : P → UInt64

-- `models.MinNanoTime`
def minNanoTime : Int64 := -9223372036854775806

-- Groups are sorted by their ends and then by their starts.
structure Package.SortsGroups (I : Package) : Prop where
  perm : ∀ l, (I.sortShardGroupInfos l).Perm l
  sorted : ∀ l, (I.sortShardGroupInfos l).Pairwise fun g h =>
    g.endTime < h.endTime ∨ g.endTime = h.endTime ∧ g.startTime ≤ h.startTime

end Influx

open Influx (Package Point DatabaseInfo RetentionPolicyInfo ShardInfo ShardGroupInfo)

inductive WriteError
  | new (text : String)
  | databaseNotFound (name : String)
  | retentionPolicyNotFound (name : String)
  | partialWriteError (reason : String) (dropped : Nat)
  | external (text : String)
  | panic
deriving DecidableEq

structure WritePointsRequest (P : Type) where
  database : String
  retentionPolicy : String
  points : List P

abbrev SgList := List ShardGroupInfo

namespace SgList

def shardGroupAt (l : SgList) (t : GoTime) : Option ShardGroupInfo :=
  match l[Search.search l.length fun i => l[i]?.any (t < ·.endTime)]? with
  | none => none
  | some g => if t < g.startTime then none else some g

def covers (l : SgList) (t : GoTime) : Bool :=
  if l.length = 0 then false else (l.shardGroupAt t).isSome

def append (I : Package) (l : SgList) (sgi : ShardGroupInfo) : SgList :=
  I.sortShardGroupInfos (l ++ [sgi])

end SgList

-- A slice with the capacity of its array.
structure Buffer (P : Type) where
  elems : List P
  cap : Nat

namespace Buffer

def nil : Buffer P where
  elems := []
  cap := 0

def make (cap : Nat) : Buffer P where
  elems := []
  cap

-- A slice that is full is moved to a larger array. How much larger is not specified.
def append (b : Buffer P) (p : P) : Buffer P where
  elems := b.elems ++ [p]
  cap := max b.cap (b.elems.length + 1)

end Buffer

structure ShardMapping (P : Type) where
  n : Nat
  points : GoMap UInt64 (Buffer P)
  shards : GoMap UInt64 ShardInfo
  dropped : List P

namespace ShardMapping

def new (n : Nat) : ShardMapping P where
  n
  points := ∅
  shards := ∅
  dropped := []

def mapPoint (m : ShardMapping P) (shardInfo : ShardInfo) (p : P) : ShardMapping P :=
  let b := (m.points.lookup shardInfo.id).getD .nil
  let b := if b.cap < m.n then .make m.n else b
  { m with
    points := m.points.insert shardInfo.id (b.append p)
    shards := m.shards.insert shardInfo.id shardInfo }

def drop (m : ShardMapping P) (p : P) : ShardMapping P :=
  { m with dropped := m.dropped ++ [p] }

def under (m : ShardMapping P) (id : UInt64) : List P :=
  (m.points.lookup id).elim [] (·.elems)

def all (m : ShardMapping P) : Multiset P :=
  ∑ id ∈ m.points.keys, (m.under id : Multiset P) + m.dropped

end ShardMapping

structure MetaClient where
  database : String → Option DatabaseInfo
  retentionPolicy : (database policy : String) → Except String (Option RetentionPolicyInfo)
  answers : List (Except String (Option ShardGroupInfo))
  asked : List GoTime

abbrev ClientM := EStateM WriteError MetaClient

namespace MetaClient

def createShardGroup (t : GoTime) : ClientM (Option ShardGroupInfo) := fun c =>
  match c.answers with
  | []                    => .error (.external "no answer") c
  | .error e :: answers => .error (.external e) { c with answers, asked := c.asked ++ [t] }
  | .ok sg? :: answers => .ok sg? { c with answers, asked := c.asked ++ [t] }

end MetaClient

namespace PointsWriter

section MapShards

variable [Point P]

-- The parameter stands for `ShardGroupInfo.ShardFor`, which panics if the group has no shards.
variable (I : Package) (shardFor : ShardGroupInfo → UInt64 → Option ShardInfo)

def minTime (rp : RetentionPolicyInfo) (now : GoTime) : GoTime :=
  if rp.duration > 0 then now - rp.duration else .unix Influx.minNanoTime

def shardGroups (min : GoTime) : List P → SgList → ClientM SgList
  | [], list => pure list
  | p :: points, list => do
    if Point.time p < min ∨ list.covers (Point.time p) then
      shardGroups min points list
    else
      match ← MetaClient.createShardGroup (Point.time p) with
      | none    => throw (.new "nil shard group")
      | some sg => shardGroups min points (list.append I sg)

def mapPoints (list : SgList) : List P → ShardMapping P → Except WriteError (ShardMapping P)
  | [], mapping => .ok mapping
  | p :: points, mapping =>
    match list.shardGroupAt (Point.time p) with
    | none => mapPoints list points (mapping.drop p)
    | some sg =>
      match shardFor sg (Point.hashID p) with
      | none => .error .panic
      | some sh => mapPoints list points (mapping.mapPoint sh p)

def mapShards (now : GoTime) (wp : WritePointsRequest P) : ClientM (ShardMapping P) := fun c =>
  match c.retentionPolicy wp.database wp.retentionPolicy with
  | .error e => .error (.external e) c
  | .ok none => .error (.retentionPolicyNotFound wp.retentionPolicy) c
  | .ok (some rp) =>
    match shardGroups I (minTime rp now) wp.points [] c with
    | .error e c => .error e c
    | .ok list c =>
      match mapPoints shardFor list wp.points (.new wp.points.length) with
      | .error e => .error e c
      | .ok mapping => .ok mapping c

end MapShards

-- A point is too old for the policy. A policy without a duration keeps all points.
def Expired (rp : RetentionPolicyInfo) (now t : GoTime) : Prop :=
  rp.duration > 0 ∧ t < now - rp.duration

instance : Decidable (Expired rp now t) := inferInstanceAs (Decidable (_ ∧ _))

-- Every point is mapped to a shard of one of the groups at its time or is dropped, and only points
-- that are too old are dropped.
structure Exact [Point P] (rp : RetentionPolicyInfo) (now : GoTime) (groups : List ShardGroupInfo)
    (points : List P) (m : ShardMapping P) : Prop where
  all : m.all = points
  unique : ∀ {p id₁ id₂}, p ∈ m.under id₁ → p ∈ m.under id₂ → id₁ = id₂
  placed : ∀ {p id}, p ∈ m.under id → p ∉ m.dropped ∧
    ∃ g ∈ groups, g.Contains (Point.time p) ∧ ∃ s ∈ g.shards, s.id = id
  dropped : ∀ p ∈ m.dropped, Expired rp now (Point.time p)

-- A group that starts after a point does not end before all groups that contain the point.
def NotBefore (groups : List ShardGroupInfo) (t : GoTime) : Prop :=
  ∀ f ∈ groups, t < f.startTime → ∃ g ∈ groups, g.Contains t ∧ g.endTime ≤ f.endTime

instance : Decidable (NotBefore groups t) := inferInstanceAs (Decidable (∀ _ ∈ _, _))

end PointsWriter

-- What the model is run with.
namespace Influx.Standard

-- The package before groups could be truncated.
def byEndTime : Package := { Package.standard with
  sortShardGroupInfos l := l.insertionSort fun g h =>
    g.endTime < h.endTime ∨ g.endTime = h.endTime ∧ g.startTime ≤ h.startTime }

def shardFor (g : ShardGroupInfo) (hash : UInt64) : Option ShardInfo :=
  g.shards[hash.toNat % g.shards.length]?

-- A point of which only its time is known.
structure PlainPoint where
  time : GoTime
deriving DecidableEq

instance : Point PlainPoint where
  time := PlainPoint.time
  hashID _ := 0

def policy (duration : Int) : RetentionPolicyInfo :=
  { byEndTime.newRetentionPolicyInfo "rp" with duration }

def group (id : UInt64) (startTime endTime : GoTime) : ShardGroupInfo where
  id
  startTime
  endTime
  deletedAt := .zero
  truncatedAt := .zero
  shards := [{ id, owners := [{ nodeID := 1 }] }]

def write (times : List GoTime) : WritePointsRequest PlainPoint where
  database := "db"
  retentionPolicy := "rp"
  points := times.map PlainPoint.mk

def client (rp : RetentionPolicyInfo) (groups : List ShardGroupInfo) : MetaClient where
  database _ := none
  retentionPolicy _ _ := .ok (some rp)
  answers := groups.map (.ok ∘ some)
  asked := []

end Influx.Standard
