import Myts.Lib.ByteBuffer
import Myts.Tsm1.Cache

-- How a file of blocks and their index is written.
namespace Tsm1

open Bytes

-- The encoding and the checksums of blocks.
structure BlockCodec where
  encode : Values → Go Bytes
  decode : Bytes → Go Values
  checksum : Bytes → Nat
  lossless : ∀ values block, encode values = .ok block → decode block = .ok values

def keyText (key : Bytes) : String :=
  String.ofList <| key.map fun c => Char.ofNat c.toNat

def magicNumber : Nat :=
  0x16D116D1

def version : UInt8 :=
  1

def maxIndexEntries : Nat :=
  65535

def maxKeyLength : Nat :=
  65535

def indexEntrySize : Nat :=
  28

def indexCountSize : Nat :=
  2

def blockType (block : Bytes) : Go UInt8 := do
  let t ← Go.deref block.head?
  Go.require (t ≤ 4) ("unknown block type: " ++ toString t)
  return t

structure IndexEntry where
  minTime : Int64
  maxTime : Int64
  offset : Int64
  size : UInt32
deriving DecidableEq

namespace IndexEntry

-- `AppendTo`
def encode (e : IndexEntry) : Bytes :=
  putInt64 e.minTime ++ putInt64 e.maxTime ++ putInt64 e.offset ++ putUint32 e.size.toNat

def unmarshalBinary (b : Bytes) : Go IndexEntry := do
  Go.require (indexEntrySize ≤ b.length)
    ("unmarshalBinary: short buf: " ++ toString b.length ++ " < " ++ toString indexEntrySize)
  let minTime ← sliceAt b 0 8
  let maxTime ← sliceAt b 8 16
  let offset ← sliceAt b 16 24
  let size ← sliceAt b 24 28
  return {
    minTime := int64 minTime,
    maxTime := int64 maxTime,
    offset := int64 offset,
    size := .ofNat (uint32 size) }

end IndexEntry

structure IndexEntries where
  type : UInt8
  entries : List IndexEntry
deriving DecidableEq

structure IndexBlock where
  key : Bytes
  type : UInt8
  entries : List IndexEntry
deriving DecidableEq

def IndexBlock.encode (b : IndexBlock) : Bytes :=
  putUint16 b.key.length ++ b.key ++ [b.type] ++ putUint16 b.entries.length ++
    b.entries.flatMap (·.encode)

structure DirectIndex where
  keyCount : Nat
  buf : Bytes
  key : Bytes
  indexEntries : IndexEntries

namespace DirectIndex

def new : DirectIndex :=
  { keyCount := 0, buf := [], key := [], indexEntries := { type := 0, entries := [] } }

def flush (d : DirectIndex) : DirectIndex × Option String :=
  let entries := d.indexEntries.entries
  if d.key = [] then
    (d, none)
  else if maxIndexEntries < entries.length then
    (d, some <| "key '" ++ keyText d.key ++ "' exceeds max index entries: " ++
      toString entries.length ++ " > " ++ toString maxIndexEntries)
  else
    let entries := entries.insertionSort (·.minTime ≤ ·.minTime)
    let block : IndexBlock := { key := d.key, type := d.indexEntries.type, entries }
    ({ d with
      buf := d.buf ++ block.encode,
      key := [],
      indexEntries := { type := 0, entries := [] } }, none)

-- The first entry of a key. The entries that could not be flushed are still there.
def start (d : DirectIndex) (key : Bytes) (blockType : UInt8) (e : IndexEntry) : DirectIndex :=
  { d with
    keyCount := d.keyCount + 1,
    key,
    indexEntries := { type := blockType, entries := d.indexEntries.entries ++ [e] } }

-- The error of `flush` is not looked at.
def add (d : DirectIndex) (key : Bytes) (blockType : UInt8) (e : IndexEntry) : Go DirectIndex :=
  if d.key = [] then
    .ok (d.start key blockType e)
  else if d.key = key then
    .ok { d with
      indexEntries := { d.indexEntries with entries := d.indexEntries.entries ++ [e] } }
  else if d.key < key then
    .ok (d.flush.1.start key blockType e)
  else
    Go.panic

-- What `add` adds to the size, for the same cases.
def added (d : DirectIndex) (key : Bytes) : UInt32 :=
  if d.key = [] then
    .ofNat (2 + key.length) + .ofNat indexCountSize + .ofNat indexEntrySize
  else if d.key = key then
    .ofNat indexEntrySize
  else
    .ofNat (2 + key.length) + .ofNat indexCountSize + .ofNat indexEntrySize

-- The index and its `Size` after a sequence of calls.
def addAll (calls : List (Bytes × UInt8 × IndexEntry)) : Go (DirectIndex × UInt32) :=
  calls.foldlM (fun (d, size) (key, type, e) => do
    let d' ← d.add key type e
    return (d', size + d.added key)) (new, 0)

-- `WriteTo`
def bytes (d : DirectIndex) : Go Bytes :=
  match d.flush with
  | (_, some err) => Go.fail err
  | (d, none) => .ok d.buf

end DirectIndex

structure TSMWriter where
  w : Bytes
  n : Nat
  index : DirectIndex

namespace TSMWriter

variable (codec : BlockCodec)

def new : TSMWriter :=
  { w := [], n := 0, index := .new }

def header : Bytes :=
  putUint32 magicNumber ++ [version]

def writeHeader (t : TSMWriter) : TSMWriter :=
  { t with w := t.w ++ header, n := header.length }

-- Writes a block of at least one value, `first` is the first and `last` the last of them.
def writeValues (t : TSMWriter) (key : Bytes) (values : Values) (first last : Int64) :
    Go TSMWriter := do
  let t := if t.n = 0 then t.writeHeader else t
  let block ← codec.encode values
  let blockType ← blockType block
  let data := putUint32 (codec.checksum block) ++ block
  let index ← t.index.add key blockType {
    minTime := first,
    maxTime := last,
    offset := .ofNat t.n,
    size := .ofNat data.length }
  return { w := t.w ++ data, n := t.n + data.length, index }

def write (t : TSMWriter) (key : Bytes) (values : Values) : Go TSMWriter := do
  Go.require (key.length ≤ maxKeyLength) "max key length exceeded"
  match values.head?, values.getLast? with
  | some first, some last => t.writeValues codec key values first.1 last.1
  | _, _ => return t

def writeIndex (t : TSMWriter) : Go Bytes := do
  Go.require (t.index.keyCount ≠ 0) "no values written"
  let index ← t.index.bytes
  return t.w ++ index ++ putUint64 t.n

def writeFile (ws : List (Bytes × Values)) : Go Bytes := do
  let t ← ws.foldlM (fun t w => t.write codec w.1 w.2) new
  t.writeIndex

end TSMWriter

section Layout

variable (codec : BlockCodec)

structure Placed where
  key : Bytes
  values : Values
  block : Bytes
  offset : Nat

namespace Placed

def data (p : Placed) : Bytes :=
  putUint32 (codec.checksum p.block) ++ p.block

def type (p : Placed) : UInt8 :=
  p.block.headD 0

def entry (p : Placed) : IndexEntry :=
  { minTime := (p.values.head?.map (·.1)).getD 0,
    maxTime := (p.values.getLast?.map (·.1)).getD 0,
    offset := .ofNat p.offset,
    size := .ofNat (4 + p.block.length) }

end Placed

-- The blocks that are written one after the other, behind the header. No block is written if there
-- are no values.
def placeBlock (ps : List Placed) (w : Bytes × Values) : List Placed :=
  match w.2, codec.encode w.2 with
  | _ :: _, .ok block =>
    let offset := TSMWriter.header.length + (ps.flatMap (·.data codec)).length
    ps ++ [{ key := w.1, values := w.2, block, offset }]
  | _, _ => ps

def layout (ws : List (Bytes × Values)) : List Placed :=
  ws.foldl (placeBlock codec) []

def blockOf (ps : List Placed) (key : Bytes) : IndexBlock :=
  { key,
    type := ((ps.find? (·.key = key)).map (·.type)).getD 0,
    entries := (ps.filter (·.key = key)).map (·.entry) }

end Layout

end Tsm1
