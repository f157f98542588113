import Myts.Tsm1.Reader

-- The files that hold the tombstones of a TSM file.
namespace Tsm1

open Bytes Go

namespace Tombstoner

def headerSize : Nat := 4
def v2header   : Nat := 0x1502
def v3header   : Nat := 0x1503

-- The tombstones handed out by a walk, and the error that ended it.
structure Walked where
  tombstones : List Tombstone
  err : Option String

-- A file with less than four bytes leaves zeros in the buffer.
def header (b : Bytes) : Nat :=
  uint32 ((b ++ List.replicate headerSize 0).take headerSize)

def maxScanTokenSize : Nat := 64 * 1024

def dropCR (line : Bytes) : Bytes :=
  if line.getLast? = some 13 then line.dropLast else line

-- Lines of text. The scanner stops at a line that does not fit into its buffer.
def readTombstoneV1 (b : Bytes) : Walked :=
  let lines := b.splitOn 10
  let fit := lines.takeWhile (·.length < maxScanTokenSize)
  { tombstones := ((fit.map dropCR).filter (· ≠ [])).map fun line =>
      { key := line, min := Int64.minValue, max := Int64.maxValue }
    err := if fit = lines then none else some "bufio.Scanner: token too long" }

def unexpectedEOF : String := "unexpected EOF"

-- What a reader still delivers, and the error behind it. Without an error it is `io.EOF`.
structure Stream where
  rest : Bytes
  err : Option String

-- `io.ReadFull`
def Stream.readFull (s : Stream) (n : Nat) : Except String (Bytes × Stream) :=
  if n ≤ s.rest.length then
    .ok (s.rest.take n, { s with rest := s.rest.drop n })
  else
    .error (s.err.getD (if s.rest = [] then "EOF" else unexpectedEOF))

def Stream.record (s : Stream) (keyLen : Nat) : Except String (Tombstone × Stream) := do
  let (key, s) ← s.readFull keyLen
  let (min, s) ← s.readFull 8
  let (max, s) ← s.readFull 8
  return ({ key, min := int64 min, max := int64 max }, s)

-- The walk also ends without an error where less than four bytes are left.
def Stream.walk : Nat → Stream → Walked
  | 0, _ => { tombstones := [], err := none }
  | fuel + 1, s =>
    match s.readFull 4 with
    | .error e =>
      { tombstones := [], err := if e = "EOF" ∨ e = unexpectedEOF then none else some e }
    | .ok (len, s) =>
      match s.record (uint32 len) with
      | .error e => { tombstones := [], err := some e }
      | .ok (t, s) =>
        let w := walk fuel s
        { w with tombstones := t :: w.tombstones }

end Tombstoner

-- What is not determined here about the files of tombstones.
structure TombstoneFormat where
  -- The stream of `gzip.NewReader`.
  gunzip : Bytes → Except String Tombstoner.Stream
  -- What the tombstones of a file of the second version do to the index.
  applyV2 : IndirectIndex → Bytes → Go (IndirectIndex × List Tombstone)

namespace Tombstoner

variable (format : TombstoneFormat) (fs : FixedSearch)

-- Every record takes more than one byte of the stream.
def readTombstoneV3 (b : Bytes) : Walked :=
  match format.gunzip (b.drop headerSize) with
  | .error e => { tombstones := [], err := some e }
  | .ok s => s.walk (s.rest.length + 1)

-- The tombstones before an error are applied until then, except for the last batch.
def Walked.apply (w : Walked) (index : IndirectIndex) : Go (IndirectIndex × List Tombstone) :=
  match w.err with
  | none => return (← TSMReader.applyTombstones fs index w.tombstones, w.tombstones)
  | some e => do
    let prev := { key := [], min := 0, max := 0 }
    let _ ← w.tombstones.foldlM (TSMReader.Batch.add fs) { index, batch := [], prev }
    fail e

-- `Walk`, called by `applyTombstones`. There may be no file.
def applyFile (index : IndirectIndex) : Option Bytes → Go (IndirectIndex × List Tombstone)
  | none => Walked.apply fs { tombstones := [], err := none } index
  | some b =>
    if header b = v3header then
      (readTombstoneV3 format b).apply fs index
    else if header b = v2header then
      format.applyV2 index b
    else
      (readTombstoneV1 b).apply fs index

end Tombstoner

end Tsm1
