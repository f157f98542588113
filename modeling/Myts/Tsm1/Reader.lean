import Myts.Tsm1.Writer

-- How a file of blocks is read, and how its values are deleted.
namespace Tsm1

open Bytes Go

-- `bytesutil.Sort`, and `bytesutil.SearchBytesFixed`, which looks for the first one of the parts of
-- length `size` for which the function is true, if it is true for all parts behind such a part.
structure FixedSearch extends Bytes.Sorter where
  search : (a : Bytes) → (size : Nat) → (fn : Bytes → Go Bool) → Go Nat
  correct : ∀ (xs : List Bytes) (size : Nat) (fn : Bytes → Go Bool) (p : Bytes → Bool),
    0 < size → (∀ x ∈ xs, x.length = size ∧ fn x = .ok (p x)) →
      xs.Pairwise (fun x y => p x → p y) →
        ∃ i ≤ xs.length, search xs.flatten size fn = .ok (i * size) ∧
          ∀ k, xs.findIdx? p = some k → i = k

structure TimeRange where
  min : Int64
  max : Int64
deriving DecidableEq

namespace TimeRange

def Overlaps (t : TimeRange) (min max : Int64) : Prop :=
  t.min ≤ max ∧ min ≤ t.max

instance (t : TimeRange) (min max : Int64) : Decidable (t.Overlaps min max) :=
  inferInstanceAs (Decidable (_ ∧ _))

-- The range has all times between the two.
def Covers (t : TimeRange) (min max : Int64) : Prop :=
  t.min ≤ min ∧ max ≤ t.max

instance (t : TimeRange) (min max : Int64) : Decidable (t.Covers min max) :=
  inferInstanceAs (Decidable (_ ∧ _))

def Contains (t : TimeRange) (time : Int64) : Prop :=
  t.min ≤ time ∧ time ≤ t.max

instance (t : TimeRange) (time : Int64) : Decidable (t.Contains time) :=
  inferInstanceAs (Decidable (_ ∧ _))

def Less (a b : TimeRange) : Prop :=
  if a.min = b.min then a.max ≤ b.max else a.min < b.min

instance (a b : TimeRange) : Decidable (Less a b) :=
  inferInstanceAs (Decidable (ite ..))

end TimeRange

-- The length of the key with its size, and the key.
def readKey (b : Bytes) : Go (Nat × Bytes) := do
  let size := uint16 (← sliceAt b 0 2)
  let key ← sliceAt b 2 (2 + size)
  return (2 + key.length, key)

def unmarshalError : Go α → Go α
  | .error (.error e) => fail ("readEntries: unmarshal error: " ++ e)
  | x => x

def readIndexEntries : (count : Nat) → Bytes → Go (List IndexEntry)
  | 0, _ => .ok []
  | count + 1, b => do
    let e ← unmarshalError (IndexEntry.unmarshalBinary b)
    let entries ← readIndexEntries count (← sliceFrom b indexEntrySize)
    return e :: entries

def readEntries (b : Bytes) : Go IndexEntries := do
  Go.require (3 ≤ b.length) "readEntries: data too short for headers"
  let type ← byteAt b 0
  let count := uint16 (← sliceAt b 1 3)
  let entries ← readIndexEntries count (← sliceFrom b 3)
  return { type, entries }

structure IndirectIndex where
  b : Bytes
  offsets : Bytes
  minKey : Bytes
  maxKey : Bytes
  minTime : Int64
  maxTime : Int64
  tombstones : GoMap Bytes (List TimeRange)

namespace IndirectIndex

variable (fs : FixedSearch)

section Unmarshal

structure Scan where
  i : Int
  offsets : List Int
  minTime : Int64
  maxTime : Int64

def scanKey (b : Bytes) (s : Scan) : Go Scan := do
  let iMax := int32 b.length
  require (int32 (s.i + 2) < iMax) "indirectIndex: not enough data for key length value"
  let keyLen := uint16 (← sliceAt b s.i (int32 (s.i + 2)))
  let i := int32 (s.i + 3 + keyLen)
  require (int32 (i + 2) < iMax) "indirectIndex: not enough data for index entries count"
  let count := uint16 (← sliceAt b i (int32 (i + 2)))
  let i := int32 (i + 2)
  require (int32 (i + 8) < iMax) "indirectIndex: not enough data for min time"
  let minT := int64 (← sliceAt b i (int32 (i + 8)))
  let i := int32 (i + (count - 1) * indexEntrySize)
  require (int32 (i + 16) < iMax) "indirectIndex: not enough data for max time"
  let maxT := int64 (← sliceAt b (int32 (i + 8)) (int32 (i + 16)))
  return {
    i := int32 (i + indexEntrySize),
    offsets := s.offsets ++ [s.i],
    minTime := if minT < s.minTime then minT else s.minTime,
    maxTime := if s.maxTime < maxT then maxT else s.maxTime }

-- Each key takes more than one byte.
def scan (b : Bytes) : (fuel : Nat) → Scan → Go Scan
  | 0, s => .ok s
  | fuel + 1, s => if s.i < int32 b.length then scanKey b s >>= scan b fuel else .ok s

def unmarshalBinary (b : Bytes) : Go IndirectIndex :=
  if b = [] then
    .ok {
      b, offsets := [], minKey := [], maxKey := [], minTime := 0, maxTime := 0, tombstones := ∅ }
  else do
    let s ← scan b b.length { i := 0, offsets := [], minTime := Int64.maxValue, maxTime := 0 }
    let (_, minKey) ← readKey (← sliceFrom b (← deref s.offsets.head?))
    let (_, maxKey) ← readKey (← sliceFrom b (← deref s.offsets.getLast?))
    return {
      b,
      offsets := s.offsets.flatMap fun i => putUint32 (i % 2 ^ 32).toNat,
      minKey,
      maxKey,
      minTime := s.minTime,
      maxTime := s.maxTime,
      tombstones := ∅ }

end Unmarshal

section Lookup

-- Whether the key at an offset is not less than the key.
def searchFn (d : IndirectIndex) (key : Bytes) (x : Bytes) : Go Bool := do
  let offset := int32 (uint32 x)
  let keyLen := int32 (uint16 (← sliceAt d.b offset (int32 (offset + 2))))
  let k ← sliceAt d.b (int32 (offset + 2)) (int32 (offset + 2 + keyLen))
  return key ≤ k

-- The position of the key, or the length of the index.
def search (d : IndirectIndex) (key : Bytes) : Go Nat := do
  let i ← fs.search d.offsets 4 (d.searchFn key)
  if i < d.offsets.length then
    let ofs := uint32 (← sliceAt d.offsets i (i + 4))
    let (_, k) ← readKey (← sliceFrom d.b ofs)
    return if key = k then ofs else d.b.length
  else
    return d.b.length

-- There are no entries if the key is not in the index.
def entries (d : IndirectIndex) (key : Bytes) : Go (List IndexEntry) := do
  let ofs ← d.search fs key
  if ofs < d.b.length then
    let (n, k) ← readKey (← sliceFrom d.b ofs)
    if key = k then
      match readEntries (← sliceFrom d.b (ofs + n)) with
      | .ok e => return e.entries
      | .error _ => panic
    else
      return []
  else
    return []

def type (d : IndirectIndex) (key : Bytes) : Go UInt8 := do
  let ofs ← d.search fs key
  if ofs < d.b.length then
    let (n, _) ← readKey (← sliceFrom d.b ofs)
    byteAt d.b (ofs + n)
  else
    Go.fail ("key does not exist: " ++ toString key)

def keyCount (d : IndirectIndex) : Nat :=
  d.offsets.length / 4

def key (d : IndirectIndex) (idx : Nat) : Go (Option IndexBlock) :=
  if d.offsets.length < idx * 4 + 4 then
    .ok none
  else do
    let ofs := uint32 (← sliceAt d.offsets (idx * 4) (idx * 4 + 4))
    let (n, key) ← readKey (← sliceFrom d.b ofs)
    let type ← byteAt d.b (ofs + n)
    let e ← dropError <| readEntries (← sliceFrom d.b (ofs + n))
    return e.map fun e => { key, type, entries := e.entries }

def keyAt (d : IndirectIndex) (idx : Nat) : Go (Option (Bytes × UInt8)) :=
  if d.offsets.length < idx * 4 + 4 then
    .ok none
  else do
    let ofs := int32 (uint32 (← sliceAt d.offsets (idx * 4) (idx * 4 + 4)))
    let (n, key) ← readKey (← sliceFrom d.b ofs)
    let type ← byteAt d.b (int32 (ofs + n))
    return some (key, type)

end Lookup

section Delete

-- The offsets of the keys that are not deleted. Both the keys to delete and those of the index are
-- in order.
def deleteLoop (d : IndirectIndex) :
    (fuel : Nat) → (offsets : Bytes) → (keys : List Bytes) → Go Bytes
  | 0, _, _ => .ok []
  | fuel + 1, offsets, keys =>
    if offsets.length < 4 then
      .ok []
    else do
      let (x, rest) ← slice 4 offsets
      let (_, indexKey) ← readKey (← sliceFrom d.b (uint32 x))
      let keys := keys.dropWhile (· < indexKey)
      if keys.head? = some indexKey then
        deleteLoop d fuel rest keys.tail
      else
        return x ++ (← deleteLoop d fuel rest keys)

def delete (d : IndirectIndex) (keys : List Bytes) : Go IndirectIndex :=
  if keys = [] then
    .ok d
  else do
    let keys := fs.sort keys
    let offsets ← d.deleteLoop d.offsets.length d.offsets keys
    return { d with offsets }

-- The window of the tombstones so far, and the last one of them.
structure Window where
  minTs : Int64
  maxTs : Int64
  prevTs : TimeRange

-- There is no window any more if there is a gap.
def Window.grow (w : Window) (ts : TimeRange) : Option Window :=
  if w.prevTs.max ≠ ts.min - 1 ∧ ¬w.prevTs.Overlaps ts.min ts.max then
    none
  else
    some {
      minTs := if ts.min < w.minTs then ts.min else w.minTs,
      maxTs := if w.maxTs < ts.max then ts.max else w.maxTs,
      prevTs := ts }

-- Whether the tombstones delete all times between the two.
def coveredBy (newTs : List TimeRange) (min max : Int64) : Bool :=
  match newTs with
  | [] => false
  | ts :: rest =>
    match rest.foldlM (·.grow ·) { minTs := ts.min, maxTs := ts.max, prevTs := ts : Window } with
    | none => false
    | some w => w.minTs ≤ min ∧ max ≤ w.maxTs

-- What a call of `DeleteRange` has found so far.
structure Deletes where
  fullKeys : List Bytes
  tombstones : GoMap Bytes (List TimeRange)

def deleteRangeKey (d : IndirectIndex) (minTime maxTime : Int64) (x : Deletes) (k : Bytes) :
    Go Deletes := do
  let entries ← d.entries fs k
  match entries.head?, entries.getLast? with
  | some first, some last =>
    let min := first.minTime
    let max := last.maxTime
    if max < minTime ∨ maxTime < min then
      return x
    else if minTime ≤ min ∧ max ≤ maxTime then
      return { x with fullKeys := x.fullKeys ++ [k] }
    else
      let existing := (d.tombstones.lookup k).getD []
      let new := (x.tombstones.lookup k).getD [] ++ [{ min := minTime, max := maxTime }]
      let newTs := (existing ++ new).insertionSort TimeRange.Less
      let x := { x with tombstones := x.tombstones.insert k newTs }
      return if coveredBy newTs min max then { x with fullKeys := x.fullKeys ++ [k] } else x
  | _, _ => return x

def deleteRange (d : IndirectIndex) (keys : List Bytes) (minTime maxTime : Int64) :
    Go IndirectIndex :=
  if keys = [] then
    .ok d
  else if minTime = Int64.minValue ∧ maxTime = Int64.maxValue then
    d.delete fs keys
  else if d.maxTime < minTime ∨ maxTime < d.minTime then
    .ok d
  else do
    let x ← keys.foldlM (d.deleteRangeKey fs minTime maxTime) { fullKeys := [], tombstones := ∅ }
    let d ← d.delete fs x.fullKeys
    return { d with tombstones := x.tombstones ∪ d.tombstones }

def OverlapsTimeRange (d : IndirectIndex) (min max : Int64) : Prop :=
  d.minTime ≤ max ∧ min ≤ d.maxTime

instance (d : IndirectIndex) (min max : Int64) : Decidable (d.OverlapsTimeRange min max) :=
  inferInstanceAs (Decidable (_ ∧ _))

def OverlapsKeyRange (d : IndirectIndex) (min max : Bytes) : Prop :=
  d.minKey ≤ max ∧ min ≤ d.maxKey

instance (d : IndirectIndex) (min max : Bytes) : Decidable (d.OverlapsKeyRange min max) :=
  inferInstanceAs (Decidable (_ ∧ _))

end Delete

end IndirectIndex

structure Tombstone where
  key : Bytes
  min : Int64
  max : Int64
deriving DecidableEq

structure TSMReader where
  b : Bytes
  index : IndirectIndex
  tombstones : List Tombstone

namespace TSMReader

variable (codec : BlockCodec) (fs : FixedSearch)

section Open

def readError (b : Bytes) : String :=
  if b = [] then "EOF" else "unexpected EOF"

def verifyVersion (b : Bytes) : Go Unit := do
  require (4 ≤ b.length) ("init: error reading magic number of file: " ++ readError b)
  let (magic, b) ← slice 4 b
  require (uint32 magic = magicNumber) "can only read from tsm file"
  require (1 ≤ b.length) ("init: error reading version: " ++ readError b)
  let v ← byteAt b 0
  require (v = version)
    ("init: file is version " ++ String.ofList (Nat.toDigits 2 v.toNat) ++ ". expected 1")

-- The `init` of the accessor.
def openIndex (b : Bytes) : Go IndirectIndex := do
  verifyVersion b
  require (8 ≤ b.length) "mmapAccessor: byte slice too small for indirectIndex"
  let indexOfsPos := b.length - 8
  let indexStart := uint64 (← sliceFrom b indexOfsPos)
  require (indexStart < indexOfsPos) "mmapAccessor: invalid indexStart"
  IndirectIndex.unmarshalBinary (← sliceAt b indexStart indexOfsPos)

structure Batch where
  index : IndirectIndex
  batch : List Bytes
  prev : Tombstone

def Batch.delete (x : Batch) : Go Batch := do
  return { x with index := ← x.index.deleteRange fs x.batch x.prev.min x.prev.max, batch := [] }

def Batch.deleteIf (x : Batch) (p : Prop) [Decidable p] : Go Batch :=
  if p then x.delete fs else .ok x

-- The batch ends before a tombstone of another range, and when it is long.
def Batch.add (x : Batch) (ts : Tombstone) : Go Batch := do
  let x ← x.deleteIf fs (x.batch ≠ [] ∧ (x.prev.min ≠ ts.min ∨ x.prev.max ≠ ts.max))
  let x := { x with batch := x.batch ++ [ts.key] }
  let x ← x.deleteIf fs (4096 ≤ x.batch.length)
  return { x with prev := ts }

def applyTombstones (index : IndirectIndex) (tombstones : List Tombstone) : Go IndirectIndex := do
  let prev := { key := [], min := 0, max := 0 }
  let x ← tombstones.foldlM (Batch.add fs) { index, batch := [], prev }
  return (← x.delete fs).index

-- `NewTSMReader`
def new (b : Bytes) (tombstones : List Tombstone) : Go TSMReader := do
  let index ← applyTombstones fs (← openIndex b) tombstones
  return { b, index, tombstones }

end Open

def readBlock (r : TSMReader) (block : IndexEntry) : Go Values := do
  let offset := block.offset.toInt
  codec.decode (← sliceAt r.b (offset + 4) (offset + block.size.toNat))

-- The values of a block that are not deleted.
def readUndeleted (r : TSMReader) (tombstones : List TimeRange) (block : IndexEntry) : Go Values :=
  if ∃ t ∈ tombstones, t.Covers block.minTime block.maxTime then
    .ok []
  else do
    let values ← r.readBlock codec block
    return tombstones.foldl (fun values t => Values.exclude values t.min t.max) values

def readAll (r : TSMReader) (key : Bytes) : Go Values := do
  let blocks ← r.index.entries fs key
  let tombstones := (r.index.tombstones.lookup key).getD []
  let values ← blocks.mapM (r.readUndeleted codec tombstones)
  return values.flatten

def addRange (r : TSMReader) (keys : List Bytes) (min max : Int64) : TSMReader :=
  { r with tombstones := r.tombstones ++ keys.map fun key => { key, min, max } }

def deleteRange (r : TSMReader) (keys : List Bytes) (minTime maxTime : Int64) : Go TSMReader :=
  match keys.head?, keys.getLast? with
  | some minKey, some maxKey =>
    if r.index.OverlapsKeyRange minKey maxKey ∧ r.index.OverlapsTimeRange minTime maxTime then do
      let index ← r.index.deleteRange fs keys minTime maxTime
      return { r.addRange keys minTime maxTime with index }
    else
      .ok r
  | _, _ => .ok r

def delete (r : TSMReader) (keys : List Bytes) : Go TSMReader := do
  let index ← r.index.delete fs keys
  return { r.addRange keys Int64.minValue Int64.maxValue with index }

section Call

inductive Call
  | delete (keys : List Bytes)
  | deleteRange (keys : List Bytes) (minTime maxTime : Int64)
deriving DecidableEq

namespace Call

def keys : Call → List Bytes
  | delete keys => keys
  | deleteRange keys _ _ => keys

def range : Call → TimeRange
  | delete _ => { min := Int64.minValue, max := Int64.maxValue }
  | deleteRange _ minTime maxTime => { min := minTime, max := maxTime }

def Deletes (c : Call) (k : Bytes) (t : Int64) : Prop :=
  k ∈ c.keys ∧ c.range.Contains t

instance (c : Call) (k : Bytes) (t : Int64) : Decidable (c.Deletes k t) :=
  inferInstanceAs (Decidable (_ ∧ _))

end Call

def call (r : TSMReader) : Call → Go TSMReader
  | .delete keys => r.delete fs keys
  | .deleteRange keys minTime maxTime => r.deleteRange fs keys minTime maxTime

end Call

end TSMReader

end Tsm1
