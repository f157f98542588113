import Myts.Lib.Int64
import Myts.Tsm1.Values

open Series

-- The merging of the blocks of one key in a compaction.
namespace Tsm1.Merging

variable {V : Type}

-- A block with the values that it decodes to. `encoded` tells a block that was encoded by the
-- compaction from one that is used as is.
structure Block (V : Type) where
  minTime : Int64
  maxTime : Int64
  values : Series Int64 V
  tombstones : List (Int64 × Int64) := []
  readMin : Int64 := Int64.maxValue
  readMax : Int64 := Int64.minValue
  encoded : Bool := false
  deriving DecidableEq

namespace Block

variable (b : Block V)

def overlapsTimeRange (min max : Int64) : Bool :=
  b.minTime ≤ max && b.maxTime ≥ min

def read : Bool :=
  b.readMin ≤ b.minTime && b.readMax ≥ b.maxTime

def markRead (min max : Int64) : Block V :=
  { b with
    readMin := if min < b.readMin then min else b.readMin
    readMax := if max > b.readMax then max else b.readMax }

def partiallyRead : Bool :=
  if b.readMin = Int64.maxValue ∧ b.readMax = Int64.minValue then false
  else b.readMin ≠ b.minTime || b.readMax ≠ b.maxTime

-- Apply each tombstone to values of the block.
def bury (v : Series Int64 V) : Series Int64 V :=
  b.tombstones.foldl (fun v t => Values.exclude v t.1 t.2) v

-- Adjust the time range of a window to an overlapping block.
def adjust (w : Int64 × Int64) : Int64 × Int64 :=
  if b.overlapsTimeRange w.1 w.2 && !b.read then
    let min := if b.minTime < w.1 then b.minTime else w.1
    (min, if b.maxTime > min ∧ b.maxTime < w.2 then b.maxTime else w.2)
  else w

-- The values of the block in a window that were not read yet.
def taken (w : Int64 × Int64) : Series Int64 V :=
  if !b.overlapsTimeRange w.1 w.2 || b.read then []
  else Values.includeRange (Values.exclude b.values b.readMin b.readMax) w.1 w.2

def record (w : Int64 × Int64) : Block V :=
  match (b.taken w).head?, (b.taken w).getLast? with
  | some first, some last => b.markRead first.1 last.1
  | _, _ => b

end Block

structure KeyIterator (V : Type) where
  size : Nat
  fast : Bool
  blocks : List (Block V)
  mergedValues : Series Int64 V := []
  merged : List (Block V) := []
  deriving DecidableEq

namespace KeyIterator

variable (k : KeyIterator V)

-- The time range that is read next.
def window : List (Block V) → Int64 × Int64
  | [] => (0, 0)
  | first :: bs => (first :: bs).foldl (fun w b => b.adjust w) (first.minTime, first.maxTime)

-- The overlapping blocks are decoded, appended in order and deduplicated.
def readWindow (blocks : List (Block V)) : KeyIterator V :=
  { k with
    blocks := blocks.map (·.record (window blocks))
    mergedValues := blocks.foldl
      (fun v b => Values.merge v (b.bury (b.taken (window blocks)))) k.mergedValues }

-- The loop over the windows. It is `none` if it does not end within so many turns.
def fill : Nat → KeyIterator V → Option (KeyIterator V)
  | 0, _ => none
  | n + 1, k =>
    if k.mergedValues.length < k.size ∧ k.blocks ≠ [] then
      match k.blocks.dropWhile Block.read with
      | [] => some { k with blocks := [] }
      | b :: bs => fill n (k.readWindow (b :: bs))
    else some k

def encode (values : Series Int64 V) : Option (Block V) :=
  match values.head?, values.getLast? with
  | some first, some last =>
    some { minTime := first.1, maxTime := last.1, values, encoded := true }
  | _, _ => none

def chunk (dst : List (Block V)) : KeyIterator V :=
  if k.mergedValues.length > k.size then
    { k with
      merged := dst ++ (encode (k.mergedValues.take k.size)).toList
      mergedValues := k.mergedValues.drop k.size }
  else
    { k with merged := dst ++ (encode k.mergedValues).toList, mergedValues := [] }

-- The full blocks that come first, which are added as is, and the other blocks.
def full (size : Nat) : List (Block V) → List (Block V) × List (Block V)
  | [] => ([], [])
  | b :: bs =>
    if b.read then full size bs
    else if b.values.length ≥ size then (b :: (full size bs).1, (full size bs).2)
    else ([], b :: bs)

-- The remaining blocks are combined until there are enough values.
def gather (size : Nat) : Series Int64 V → List (Block V) → Series Int64 V × List (Block V)
  | v, [] => (v, [])
  | v, b :: bs =>
    if v.length < size then
      if b.read then gather size v bs
      else gather size (Values.merge v (b.bury b.values)) bs
    else (v, b :: bs)

-- Blocks that do not overlap.
def append : KeyIterator V :=
  let (merged, rest) := full k.size k.blocks
  let merged := k.merged ++ merged
  let (merged, rest) :=
    if k.fast then (merged ++ rest.filter (!·.read), []) else (merged, rest)
  let (merged, rest) :=
    match rest with
    | [b] => (if b.read then merged else merged ++ [b], [])
    | _ => (merged, rest)
  let (v, rest) := gather k.size k.mergedValues rest
  { k with blocks := rest, mergedValues := v }.chunk merged

def combine (dedup : Bool) : Option (KeyIterator V) :=
  if dedup then
    (k.fill ((k.blocks.map (·.values.length)).sum + 1)).map (·.chunk [])
  else some k.append

-- Whether any block overlaps with the prior block.
def overlapping : List (Block V) → Bool
  | b₁ :: b₂ :: bs =>
    b₂.partiallyRead || b₂.minTime ≤ b₁.maxTime || b₂.tombstones ≠ [] || overlapping (b₂ :: bs)
  | _ => false

def dedup : Bool :=
  k.mergedValues ≠ [] || k.blocks.head?.any (fun b => b.tombstones ≠ [] || b.partiallyRead) ||
    overlapping k.blocks

def merge : Option (KeyIterator V) :=
  if k.blocks = [] ∧ k.merged = [] ∧ k.mergedValues = [] then some k else k.combine k.dedup

end KeyIterator

-- The range of a block is that of its values.
structure Block.Valid (b : Block V) : Prop where
  ascending : b.values.Ascending
  first : b.values.head?.map Prod.fst = some b.minTime
  last : b.values.getLast?.map Prod.fst = some b.maxTime

def Block.unread (b : Block V) : Series Int64 V :=
  b.values.filter fun p => ¬(b.readMin ≤ p.1 ∧ p.1 ≤ b.readMax)

-- No block ends before a block of an earlier file starts.
def Following (blocks : List (Block V)) : Prop :=
  blocks.Pairwise (·.minTime ≤ ·.maxTime)

instance {blocks : List (Block V)} : Decidable (Following blocks) :=
  inferInstanceAs (Decidable (blocks.Pairwise _))

-- The iterator and all blocks that it has emitted for the key.
structure Compaction (V : Type) where
  iterator : KeyIterator V
  emitted : List (Block V) := []
  deriving DecidableEq

namespace Compaction

variable (s : Compaction V)

-- The merged blocks are taken, and then the next ones are merged.
def step : Option (Compaction V) :=
  { s.iterator with merged := [] }.merge.map fun k => ⟨k, s.emitted ++ k.merged⟩

def run : Nat → Compaction V → Option (Compaction V)
  | 0, s => some s
  | n + 1, s => (run n s).bind step

def init (size : Nat) (fast : Bool) (blocks : List (Block V)) : Compaction V where
  iterator := { size, fast, blocks }

-- The last entry of the index ends with the maximum time of the key.
def EndsAtMaximum (out : List (Block V)) : Prop :=
  ∀ l : List (Block V), l.Perm out → l.Pairwise (·.minTime ≤ ·.minTime) →
    ∀ e ∈ l.getLast?, ∀ b ∈ out, b.maxTime ≤ e.maxTime

structure WellFormed (size : Nat) (out : List (Block V)) : Prop where
  disjoint : out.Pairwise fun a b => a.maxTime < b.minTime ∨ b.maxTime < a.minTime
  ends : ∀ b ∈ out, b.Valid
  bounded : ∀ b ∈ out, b.encoded → b.values.length ≤ size
  indexed : EndsAtMaximum out

end Compaction

end Tsm1.Merging
