import Myts.Lib.Scratch
import Myts.Tsm1.Tombstone

-- What is read from and written to the file of the tombstones.
namespace Tsm1

open Bytes Tombstoner

namespace TombstoneFile

structure Walk where
  seen : List Tombstone
  -- The same if their keys are looked at after the walk.
  kept : List Tombstone
deriving DecidableEq

-- The keys are copies.
def copies (w : Walked) : Except String Walk :=
  match w.err with
  | none => .ok { seen := w.tombstones, kept := w.tombstones }
  | some e => .error e

namespace V2

-- `f.Read`, which returns less than `n` bytes at the end of the file.
def read (s : Stream) (n : Nat) : Except String (Bytes × Stream) :=
  if n = 0 ∨ s.rest ≠ [] then
    .ok (s.rest.take n, { s with rest := s.rest.drop n })
  else
    .error (s.err.getD "EOF")

structure Record where
  key : Scratch.Slice
  -- The key at the time of the call.
  seen : Bytes
  min : Int64
  max : Int64

-- The lengths, the keys and the times are all read into the same buffer.
def record (s : Stream) (w : Scratch) : Except String (Record × Stream × Scratch) := do
  let (x, s) ← read s 4
  let w := w.read x
  let keyLen := uint32 (w.b.take 4)
  let w := w.grow keyLen
  let (x, s) ← read s keyLen
  let w := w.read x
  let key := w.slice keyLen
  let (x, s) ← read s 8
  let w := w.read x
  let min := int64 (w.b.take 8)
  let (x, s) ← read s 8
  let w := w.read x
  let max := int64 (w.b.take 8)
  return ({ key, seen := w.bytes key, min, max }, s, w)

-- `n` counts the bytes that should have been read. It gets larger with every record.
def loop (size : Nat) : Nat → Nat → Stream → Scratch → Except String (List Record × Scratch)
  | 0, _, _, w => .ok ([], w)
  | fuel + 1, n, s, w =>
    if size ≤ n then
      .ok ([], w)
    else do
      let (r, s, w) ← record s w
      let (rs, w) ← loop size fuel (n + 4 + r.key.len + 8 + 8) s w
      return (r :: rs, w)

end V2

def readTombstoneV2 (size : Nat) (s : Stream) : Except String Walk := do
  let s := { s with rest := s.rest.drop headerSize }
  let (rs, w) ← V2.loop size size headerSize s (Scratch.make 4096)
  return {
    seen := rs.map fun r => { key := r.seen, min := r.min, max := r.max }
    kept := rs.map fun r => { key := w.bytes r.key, min := r.min, max := r.max } }

-- A scanner reads to the end of the file, so that it comes to any error that is there.
def scanTombstoneV1 (s : Stream) : Except String Walk :=
  match s.err with
  | none => copies (readTombstoneV1 s.rest)
  | some e => .error <| (readTombstoneV1 s.rest).err.getD e

end TombstoneFile

-- The compression, where what is read may end with an error.
structure Gzip where
  compress : Bytes → Bytes
  decompress : Stream → Except String Stream

-- What has been compressed is read back.
def Gzip.Lossless (z : Gzip) : Prop :=
  ∀ b, z.decompress { rest := z.compress b, err := none } = .ok { rest := b, err := none }

namespace TombstoneFile

structure Faults where
  openFile : Option String
  -- The first read fails, which is taken for an empty file.
  header : Bool
  seek : Option String
  -- `Seek` and `Stat` of a reader
  skip : Option String
  body : Option (Nat × String)
  -- Anything up to the renaming of the new file.
  write : Option String
  syncDir : Option String
deriving DecidableEq

namespace Faults

def none : Faults where
  openFile := .none
  header := false
  seek := .none
  skip := .none
  body := .none
  write := .none
  syncDir := .none

def stream (f : Faults) (b : Bytes) : Stream :=
  match f.body with
  | .none => { rest := b, err := .none }
  | some (n, e) => { rest := b.take n, err := some e }

end Faults

def failIf : Option String → Except String Unit
  | none => .ok ()
  | some e => .error e

section

variable (z : Gzip)

def readTombstoneV3 (s : Stream) : Except String Walk := do
  let s ← z.decompress { s with rest := s.rest.drop headerSize }
  copies (s.walk (s.rest.length + 1))

def walk (f : Faults) (file : Option Bytes) : Except String Walk := do
  failIf f.openFile
  match file with
  | none => return { seen := [], kept := [] }
  | some b =>
    if f.header ∨ b = [] then
      scanTombstoneV1 (f.stream b)
    else do
      failIf f.seek
      if header b = v3header then do
        failIf f.skip
        readTombstoneV3 z (f.stream b)
      else if header b = v2header then do
        failIf f.skip
        readTombstoneV2 b.length (f.stream b)
      else
        scanTombstoneV1 (f.stream b)

def readTombstone (f : Faults) (file : Option Bytes) : Except String (List Tombstone) :=
  (walk z f file).map (·.kept)

def ReadAll (file : Option Bytes) : Except String (List Tombstone) :=
  readTombstone z Faults.none file

end

end TombstoneFile

namespace Tombstone

-- The length is written with 32 bits.
def encode (t : Tombstone) : Bytes :=
  putUint32 t.key.length ++ t.key ++ putInt64 t.min ++ putInt64 t.max

end Tombstone

namespace TombstoneFile

def fileV3 (z : Gzip) (ts : List Tombstone) : Bytes :=
  putUint32 v3header ++ z.compress (ts.flatMap Tombstone.encode)

-- The file, and the error that is returned.
def writeTombstone (z : Gzip) (f : Faults) (file : Option Bytes) (ts : List Tombstone) :
    Option Bytes × Option String :=
  match f.write with
  | some e => (file, some e)
  | none => (some (fileV3 z ts), f.syncDir)

def added (keys : List Bytes) (min max : Int64) : List Tombstone :=
  keys.map fun key => { key, min, max }

def AddRange (z : Gzip) (f : Faults) (path : String) (file : Option Bytes) (keys : List Bytes)
    (min max : Int64) : Option Bytes × Option String :=
  if keys = [] then
    (file, none)
  else if path = "" then
    (file, none)
  else
    match readTombstone z f file with
    | .error _ => (file, none)
    | .ok tombstones => writeTombstone z f file (tombstones ++ added keys min max)

-- If no error is returned, the tombstones are read after those that have been there before.
def Recorded (z : Gzip) (f : Faults) (path : String) (file : Option Bytes) (keys : List Bytes)
    (min max : Int64) : Prop :=
  let r := AddRange z f path file keys min max
  r.2 = none → ∃ old, ReadAll z file = .ok old ∧
    ReadAll z r.1 = .ok (old ++ added keys min max)

def fileV2 (ts : List Tombstone) : Bytes :=
  putUint32 v2header ++ ts.flatMap Tombstone.encode

-- Keys, one in a line. There may be a newline at the end.
def fileV1 (keys : List Bytes) (terminated : Bool) : Bytes :=
  [10].intercalate (if terminated then keys ++ [[]] else keys)

def IsV1 (b : Bytes) : Prop :=
  header b ≠ v2header ∧ header b ≠ v3header

-- The function is called with the tombstones, and their keys are still the same after the walk.
def Delivers (z : Gzip) (b : Bytes) (ts : List Tombstone) : Prop :=
  walk z .none (some b) = .ok { seen := ts, kept := ts }

end TombstoneFile

namespace Tombstone

-- The first bytes of a buffer after the walk. The last time of the last record that is read into it
-- stays there, except where the length of a key for which there is no room has been put.
def firstBytes (cap : Nat) (t : Tombstone) (ts : List Tombstone) : Bytes :=
  let last := (ts.takeWhile (·.key.length ≤ cap)).getLastD t
  match (ts.dropWhile (·.key.length ≤ cap)).head? with
  | none => putInt64 last.max
  | some u => putUint32 u.key.length ++ (putInt64 last.max).drop 4

-- The key of `t`, which has been read into a buffer with `cap` bytes, looks the same after the times
-- of `t` and after the records that follow.
structure Intact (cap : Nat) (t : Tombstone) (ts : List Tombstone) : Prop where
  own : t.key.take 8 <+: putInt64 t.max
  keys : ∀ u ∈ ts.takeWhile (·.key.length ≤ cap), t.key <+: u.key ∨ u.key <+: t.key
  first : t.key.take 8 <+: t.firstBytes cap ts

end Tombstone

def TombstoneFile.AllIntact (cap : Nat) : List Tombstone → Prop
  | [] => True
  | t :: ts => t.Intact (max cap t.key.length) ts ∧ AllIntact (max cap t.key.length) ts

end Tsm1
