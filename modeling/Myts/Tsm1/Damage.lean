import Myts.Tsm1.Reader

-- Files of any bytes.
namespace Tsm1

open Bytes Go

-- The search ends at one of the parts or behind them, also if they are not in order.
def FixedSearch.Total (fs : FixedSearch) : Prop :=
  ∀ (xs : List Bytes) (size : Nat) (fn : Bytes → Go Bool), 0 < size →
    (∀ x ∈ xs, x.length = size ∧ ∃ c, fn x = .ok c) →
      ∃ i ≤ xs.length, fs.search xs.flatten size fn = .ok (i * size)

namespace IndirectIndex

section Layout

variable (b : Bytes)

def keyLen (i : Nat) : Nat :=
  uint16 ((b.drop i).take 2)

def keyBytes (i : Nat) : Bytes :=
  (b.drop (i + 2)).take (keyLen b i)

def blockCount (i : Nat) : Nat :=
  uint16 ((b.drop (i + 3 + keyLen b i)).take 2)

def next (i : Nat) : Nat :=
  i + 5 + keyLen b i + blockCount b i * indexEntrySize

-- The key is followed by its blocks, of which the last twelve bytes may be behind the end.
def Readable (iMax i : Nat) : Prop :=
  i + 13 + keyLen b i < iMax ∧ next b i < iMax + 12

instance : Decidable (Readable b iMax i) := inferInstanceAs (Decidable (_ ∧ _))

-- The first position that is needed at a position and is behind the end.
def behind (iMax i : Nat) : Nat :=
  if iMax ≤ i then
    i
  else if iMax ≤ i + 2 then
    i + 2
  else if iMax ≤ i + 5 + keyLen b i then
    i + 5 + keyLen b i
  else if iMax ≤ i + 13 + keyLen b i then
    i + 13 + keyLen b i
  else
    next b i - 12

-- There are no blocks to take the times from, and there is nothing in front of the key.
def Blockless (i : Nat) : Prop :=
  blockCount b i = 0 ∧ i + keyLen b i < 15

instance : Decidable (Blockless b i) := inferInstanceAs (Decidable (_ ∧ _))

-- The positions of the keys that can be read one after the other, and what is behind them.
structure Keys where
  positions : List Nat
  stop : Nat
deriving DecidableEq

def keys (iMax : Nat) : (fuel : Nat) → (i : Nat) → Keys
  | 0, i => { positions := [], stop := i }
  | fuel + 1, i =>
    if Readable b iMax i then
      let rest := keys iMax fuel (next b i)
      { rest with positions := i :: rest.positions }
    else
      { positions := [], stop := i }

end Layout

def ofPositions (b : Bytes) (is : List Nat) : IndirectIndex where
  b := b
  offsets := is.flatMap putUint32
  minKey := []
  maxKey := []
  minTime := 0
  maxTime := 0
  tombstones := ∅

-- The blocks of a key at a position are not all there, and a search for the key ends at it.
def CutAt (fs : FixedSearch) (b : Bytes) (is : List Nat) (k : Nat) : Prop :=
  ∃ i, is[k]? = some i ∧ b.length < next b i ∧
    let d := ofPositions b is
    fs.search d.offsets 4 (d.searchFn (keyBytes b i)) = .ok (k * 4)

-- The index can be opened without harm, or it is rejected.
structure Intact (fs : FixedSearch) (b : Bytes) : Prop where
  length : 0 < int32 b.length
  blocks : ∀ i ∈ (keys b (int32 b.length).toNat b.length 0).positions, ¬Blockless b i
  small : behind b (int32 b.length).toNat (keys b (int32 b.length).toNat b.length 0).stop < 2 ^ 31
  notCut : int32 b.length ≤ (keys b (int32 b.length).toNat b.length 0).stop →
    ∀ k, ¬CutAt fs b (keys b (int32 b.length).toNat b.length 0).positions k

def Scan.start : Scan where
  i := 0
  offsets := []
  minTime := Int64.maxValue
  maxTime := 0

end IndirectIndex

namespace TSMReader

-- The bytes of the index, if the file is one of blocks and says where they are.
def indexBytes (f : Bytes) : Option Bytes :=
  let indexOfsPos := f.length - 8
  let indexStart := uint64 (f.drop indexOfsPos)
  if verifyVersion f = .ok () ∧ 8 ≤ f.length ∧ indexStart < indexOfsPos then
    some ((f.take indexOfsPos).drop indexStart)
  else
    none

-- A file is opened or rejected, and a lookup in its index does not panic.
structure Harmless (fs : FixedSearch) (f : Bytes) : Prop where
  opens : (openIndex f).Safe
  ends : ∀ b ∈ indexBytes f, ∀ s, IndirectIndex.scan b b.length .start = .ok s →
    int32 b.length ≤ s.i
  search : ∀ d, openIndex f = .ok d → ∀ key, (d.search fs key).Safe
  entries : ∀ d, openIndex f = .ok d → ∀ key, (d.entries fs key).Safe
  type : ∀ d, openIndex f = .ok d → ∀ key, (d.type fs key).Safe
  key : ∀ d, openIndex f = .ok d → ∀ idx < d.keyCount, (d.key idx).Safe
  keyAt : ∀ d, openIndex f = .ok d → ∀ idx < d.keyCount, (d.keyAt idx).Safe

end TSMReader
end Tsm1
