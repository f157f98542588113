import Myts.Lib.Bytes
import Myts.Lib.Go
import Myts.Lib.GoMap
import Myts.Lib.Run
import Myts.Tsm1.Values

namespace Tsm1

-- A value without its time. A float is given by its bits.
inductive Value
  | float (bits : UInt64)
  | integer (v : Int64)
  | unsigned (v : UInt64)
  | boolean (v : Bool)
  | string (v : Bytes)
deriving DecidableEq

namespace Value

def valueType : Value → Nat
  | float _ => 1
  | integer _ => 2
  | string _ => 3
  | boolean _ => 4
  | unsigned _ => 0

def size : Value → Nat
  | float _ | integer _ | unsigned _ => 16
  | boolean _ => 9
  | string v => 8 + v.length

end Value

abbrev Values := Series Int64 Value

def Values.size (a : Values) : Nat :=
  (a.map (·.2.size)).sum

inductive CacheError
  | fieldTypeConflict
  | cacheMemorySizeLimitExceeded (n limit : Nat)
  | snapshotInProgress
deriving DecidableEq

structure Entry where
  values : Values
  vtype : Nat
deriving DecidableEq

namespace Entry

-- The type of an entry without values is that of unsigned values.
def newEntryValues : Values → Except CacheError Entry
  | [] => .ok { values := [], vtype := 0 }
  | v :: values =>
    let et := v.2.valueType
    if ∀ w ∈ v :: values, w.2.valueType = et then
      .ok { values := v :: values, vtype := et }
    else
      .error .fieldTypeConflict

def add (e : Entry) (values : Values) : Except CacheError Entry :=
  if ∀ v ∈ values, v.2.valueType = e.vtype then
    .ok { e with values := e.values ++ values }
  else
    .error .fieldTypeConflict

def deduplicate (e : Entry) : Entry :=
  { e with values := Values.deduplicate e.values }

def filter (e : Entry) (min max : Int64) : Entry :=
  { e with values := Values.exclude e.values min max }

def size (e : Entry) : Nat :=
  e.values.size

end Entry

-- The partitions of the ring are chosen by the hash of the key, so that together they are one map.
abbrev Store := GoMap Bytes Entry

namespace Store

-- Also returns whether the key is a new one.
def write (s : Store) (key : Bytes) (values : Values) : Except CacheError (Bool × Store) :=
  match s.lookup key with
  | some e => (e.add values).map fun e => (false, s.insert key e)
  | none => (Entry.newEntryValues values).map fun e => (true, s.insert key e)

def values (s : Store) (key : Bytes) : Values :=
  ((s.lookup key).map (·.values)).getD []

def deduplicate (s : Store) (key : Bytes) : Store :=
  match s.lookup key with
  | some e => s.insert key e.deduplicate
  | none => s

-- The length of a key and the size of the values that are stored for it.
def weight (s : Store) : Nat :=
  GoMap.total (fun k e => k.length + Entry.size e) s

end Store

structure Snapshot where
  store : Store
  size : UInt64
deriving DecidableEq

structure Cache where
  size : UInt64
  snapshotSize : UInt64
  store : Store
  maxSize : UInt64
  snapshot : Option Snapshot
  snapshotting : Bool
  -- More has been subtracted from the size than was there.
  wrapped : Bool
deriving DecidableEq

namespace Cache

def newCache (maxSize : UInt64) : Cache where
  size := 0
  snapshotSize := 0
  store := ∅
  maxSize := maxSize
  snapshot := none
  snapshotting := false
  wrapped := false

def totalSize (c : Cache) : UInt64 :=
  c.size + c.snapshotSize

def increaseSize (c : Cache) (delta : UInt64) : Cache :=
  { c with size := c.size + delta }

def decreaseSize (c : Cache) (delta : UInt64) : Cache :=
  { c with size := c.size + ~~~(delta - 1), wrapped := c.wrapped || c.size < delta }

-- Is there room for some more bytes?
def limit (c : Cache) (addedSize : UInt64) : Option CacheError :=
  let n := c.totalSize + addedSize
  if 0 < c.maxSize ∧ c.maxSize < n then
    some (.cacheMemorySizeLimitExceeded n.toNat c.maxSize.toNat)
  else
    none

def write (c : Cache) (key : Bytes) (values : Values) : Cache × Option CacheError :=
  let addedSize := .ofNat values.size
  match c.limit addedSize with
  | some e => (c, some e)
  | none =>
    match c.store.write key values with
    | .error e => (c, some e)
    | .ok (newKey, store) =>
      let addedSize := if newKey then addedSize + .ofNat key.length else addedSize
      ({ c with store }.increaseSize addedSize, none)

-- One key of `WriteMulti`. The size of the values has already been added.
def writeKey (s : Cache × Option CacheError) (kv : Bytes × Values) : Cache × Option CacheError :=
  match s.1.store.write kv.1 kv.2 with
  | .error e => (s.1.decreaseSize (.ofNat kv.2.size), some e)
  | .ok (newKey, store) =>
    let c := { s.1 with store }
    (if newKey then c.increaseSize (.ofNat kv.1.length) else c, s.2)

def addedSize (kvs : List (Bytes × Values)) : UInt64 :=
  kvs.foldl (fun n kv => n + .ofNat kv.2.size) 0

-- The keys are in the order in which the loops over the map come to them.
def writeMulti (c : Cache) (values : GoMap Bytes Values) (ks : List Bytes) :
    Cache × Option CacheError :=
  let kvs := ks.map fun k => (k, (values.lookup k).getD [])
  match c.limit (addedSize kvs) with
  | some e => (c, some e)
  | none => kvs.foldl writeKey (c.increaseSize (addedSize kvs), none)

def takeSnapshot (c : Cache) : Cache × Except CacheError Snapshot :=
  if c.snapshotting then
    (c, .error .snapshotInProgress)
  else
    let snapshot := c.snapshot.getD { store := ∅, size := 0 }
    if 0 < snapshot.size then
      -- The snapshot of an attempt that failed is tried again.
      ({ c with snapshot := some snapshot, snapshotting := true }, .ok snapshot)
    else
      let snapshot := { store := c.store, size := c.totalSize }
      ({ c with
        size := 0
        snapshotSize := c.totalSize
        store := ∅
        snapshot := some snapshot
        snapshotting := true }, .ok snapshot)

def clearSnapshot (c : Cache) (success : Bool) : Go Cache := do
  let _ ← Go.deref c.snapshot
  if success then
    return { c with
      snapshotSize := 0
      snapshot := some { store := ∅, size := 0 }
      snapshotting := false }
  else
    return { c with snapshotting := false }

-- The entries of the snapshot and of the store are put in order before they are copied.
def values (c : Cache) (key : Bytes) : Cache × Values :=
  let c := { c with
    store := c.store.deduplicate key
    snapshot := c.snapshot.map fun s => { s with store := s.store.deduplicate key } }
  let snapshotEntries := (c.snapshot.map (·.store.values key)).getD []
  (c, Values.deduplicate (snapshotEntries ++ c.store.values key))

def deleteKey (min max : Int64) (c : Cache) (k : Bytes) : Cache :=
  match c.store.lookup k with
  | none => c
  | some e =>
    let origSize := UInt64.ofNat e.size
    if min = Int64.minValue ∧ max = Int64.maxValue then
      { c.decreaseSize (origSize + .ofNat k.length) with store := c.store.erase k }
    else
      let f := e.filter min max
      if f.values = [] then
        { c with store := c.store.erase k }.decreaseSize (origSize + UInt64.ofNat k.length)
      else
        { c with store := c.store.insert k f }.decreaseSize (origSize - UInt64.ofNat f.size)

def deleteRange (c : Cache) (keys : List Bytes) (min max : Int64) : Cache :=
  keys.foldl (deleteKey min max) c

def delete (c : Cache) (keys : List Bytes) : Cache :=
  c.deleteRange keys Int64.minValue Int64.maxValue

-- After the delete, there are all values of before that are not in the range, and no others.
def DeletesExactly (c : Cache) (keys : List Bytes) (min max : Int64) : Prop :=
  ∀ k, ((c.deleteRange keys min max).values k).2 =
    if k ∈ keys then (c.values k).2.filter fun v => ¬(min ≤ v.1 ∧ v.1 ≤ max) else (c.values k).2

inductive Call
  | write (key : Bytes) (values : Values)
  | writeMulti (values : GoMap Bytes Values) (ks : List Bytes)
  | values (key : Bytes)
  | deleteRange (keys : List Bytes) (min max : Int64)
  | takeSnapshot
  | clearSnapshot (success : Bool)

def step (c : Cache) : Call → Go Cache
  | .write key values => return (c.write key values).1
  | .writeMulti values ks => return (c.writeMulti values ks).1
  | .values key => return (c.values key).1
  | .deleteRange keys min max => return c.deleteRange keys min max
  | .takeSnapshot => return c.takeSnapshot.1
  | .clearSnapshot success => c.clearSnapshot success

-- A call that panics has not changed anything before.
def next (c : Cache) (call : Call) : Cache :=
  (c.step call).toOption.getD c

-- The bytes that a call may add to the size.
def Call.bytes : Call → Nat
  | .write key vs => vs.size + key.length
  | .writeMulti m ks => (ks.map fun k => ((m.lookup k).getD []).size + k.length).sum
  | _ => 0

-- The sizes and what is added to them have 64 bits.
def Fits (c : Cache) (call : Call) : Prop :=
  c.size.toNat + c.snapshotSize.toNat + call.bytes < 2 ^ 64

instance (c : Cache) (call : Call) : Decidable (c.Fits call) :=
  inferInstanceAs (Decidable (_ < _))

structure Accounted (c : Cache) : Prop where
  unwrapped : c.wrapped = false
  covered : c.store.weight ≤ c.size.toNat
  -- There are no values if the size is zero.
  empty : c.totalSize = 0 → (∀ k, c.store.values k = []) ∧
    ∀ s ∈ c.snapshot, ∀ k, s.store.values k = []

end Cache

-- The writes that the cache has accepted and that are not part of a snapshot that was cleared with
-- success.
structure History where
  flushing : List (Bytes × Values)
  live : List (Bytes × Values)
deriving DecidableEq

namespace History

def empty : History where
  flushing := []
  live := []

def valuesOf (writes : List (Bytes × Values)) (key : Bytes) : Values :=
  (writes.filter (·.1 = key)).flatMap (·.2)

def values (h : History) (key : Bytes) : Values :=
  valuesOf (h.flushing ++ h.live) key

def accept (h : History) (writes : List (Bytes × Values)) : History :=
  { h with live := h.live ++ writes }

-- A snapshot is tried again if there is something in it.
def Retries (h : History) : Prop :=
  ∃ w ∈ h.flushing, w ≠ ([], [])

instance (h : History) : Decidable h.Retries :=
  inferInstanceAs (Decidable (∃ w ∈ h.flushing, _))

def takeSnapshot (h : History) : History :=
  if h.Retries then h else { flushing := h.live, live := [] }

-- The keys that `WriteMulti` writes are those whose values have the type of the entry.
def accepted (c : Cache) (values : GoMap Bytes Values) (ks : List Bytes) : List (Bytes × Values) :=
  let kvs := ks.map fun k => (k, (values.lookup k).getD [])
  if c.limit (Cache.addedSize kvs) = none then
    kvs.filter fun kv => (c.store.write kv.1 kv.2).toBool
  else
    []

-- What a call adds to the history, where `c` is the cache before the call.
def step (c : Cache) (h : History) : Cache.Call → History
  | .write key values => if (c.write key values).2 = none then h.accept [(key, values)] else h
  | .writeMulti values ks => h.accept (accepted c values ks)
  | .values _ | .deleteRange _ _ _ => h
  | .takeSnapshot => if c.takeSnapshot.2.toBool then h.takeSnapshot else h
  | .clearSnapshot success => if success then { h with flushing := [] } else h

end History

namespace Cache

-- Calls one after the other, with the history.
def run (s : Cache × History) (call : Call) : Go (Cache × History) := do
  let c ← s.1.step call
  return (c, s.2.step s.1 call)

-- A call that the history is about, which has no deletes.
def Call.Valid : Call → Prop
  | writeMulti m ks => m.Visits ks
  | deleteRange _ _ _ => False
  | _ => True

-- Before a snapshot is cleared, there has been one.
def Taken : List Call → Prop
  | [] => True
  | .takeSnapshot :: _ => True
  | .clearSnapshot _ :: _ => False
  | _ :: calls => Taken calls

end Cache

end Tsm1
