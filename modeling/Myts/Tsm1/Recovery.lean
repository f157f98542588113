import Myts.Tsm1.WalEntry

-- The cache is loaded from the segments of the write-ahead log.
namespace Tsm1

-- The decompression, which can fail.
structure Snappy where
  decodedLen : Bytes → Except String Nat
  decode : Bytes → Except String Bytes

-- How `io.ReadFull` fails: at the end of the file, or after some of the bytes.
inductive ReadError
  | eof
  | unexpectedEOF

def ReadError.text : ReadError → String
  | eof           => "EOF"
  | unexpectedEOF => "unexpected EOF"

def readFull (n : Nat) (b : Bytes) : Except ReadError (Bytes × Bytes) :=
  if n ≤ b.length then
    .ok (b.take n, b.drop n)
  else if b = [] then
    .error .eof
  else
    .error .unexpectedEOF

structure WALSegmentReader where
  r : Bytes
  entry : Option WALEntry
  n : Nat
  err : Option String

namespace WALSegmentReader

def reset (file : Bytes) : WALSegmentReader where
  r := file
  entry := none
  n := 0
  err := none

def fail (r : WALSegmentReader) (e : String) : Bool × WALSegmentReader :=
  (true, { r with err := some e })

-- The compressed bytes of an entry have been read.
def decompress (s : Snappy) (r : WALSegmentReader) (entryType : UInt8) (nReadOK : Nat) (b : Bytes) :
    Go (Bool × WALSegmentReader) :=
  match s.decodedLen b with
  | .error e => return r.fail e
  | .ok _ =>
    match s.decode b with
    | .error e => return r.fail e
    | .ok data =>
      match WALEntry.unmarshalBinary entryType data with
      | .error .panic => Go.panic
      | .error (.error e) => return r.fail e
      | .ok entry =>
        return (true, { r with entry := some entry, n := r.n + nReadOK, err := none })

def next (s : Snappy) (r : WALSegmentReader) : Go (Bool × WALSegmentReader) :=
  match readFull 5 r.r with
  | .error .eof => return (false, { r with r := [] })
  | .error e => return { r with r := [] }.fail e.text
  | .ok (lv, b) =>
    let length := Bytes.uint32 (lv.drop 1)
    match readFull length b with
    | .error e => return { r with r := [] }.fail e.text
    | .ok (b, rest) => { r with r := rest }.decompress s (lv.headD 0) (5 + length) b

def read (r : WALSegmentReader) : Except String (Option WALEntry) :=
  match r.err with
  | some e => .error e
  | none => .ok r.entry

end WALSegmentReader

-- The order in which the loops over a map come to its keys, which can be another one each time.
abbrev Order := Nat → GoMap Bytes Values → List Bytes

def Order.Visits (order : Order) : Prop :=
  ∀ n (m : GoMap Bytes Values), m.Visits (order n m)

def Cache.load (c : Cache) (ks : GoMap Bytes Values → List Bytes) :
    WALEntry → Cache × Option CacheError
  | .write values => c.writeMulti values (ks values)
  | .deleteRange keys min max => (c.deleteRange keys min max, none)
  | .delete keys => (c.delete keys, none)

namespace CacheLoader

-- What is left of the file, and the error of a write to the cache. Every iteration reads some bytes.
def loadEntries (s : Snappy) (order : Order) (file : Bytes) :
    (fuel : Nat) → WALSegmentReader → Cache → Go (Cache × Bytes × Option CacheError)
  | 0, _, c => return (c, file, none)
  | fuel + 1, r, c => do
    let (more, r) ← r.next s
    if more then
      match r.read with
      | .error _ => return (c, file.take r.n, none)
      | .ok none => loadEntries s order file fuel r c
      | .ok (some e) =>
        match c.load (order r.n) e with
        | (c, some err) => return (c, file, some err)
        | (c, none) => loadEntries s order file fuel r c
    else
      return (c, file, none)

def loadFile (s : Snappy) (order : Order) (c : Cache) (file : Bytes) :
    Go (Cache × Bytes × Option CacheError) :=
  if file = [] then
    return (c, file, none)
  else
    loadEntries s order file (file.length + 1) (.reset file) c

-- The files are those that are left. A file that has not been loaded is left alone.
def load (s : Snappy) (order : Nat → Order) : List Bytes → Cache →
    Go (Cache × List Bytes × Option CacheError)
  | [], c => return (c, [], none)
  | file :: files, c => do
    let (c, file, err) ← loadFile s (order files.length) c file
    match err with
    | some err => return (c, file :: files, some err)
    | none => do
      let (c, files, err) ← load s order files c
      return (c, file :: files, err)

end CacheLoader

-- The compression of the entries, and what is read of it.
structure SnappyCodec extends Snappy where
  encode : Bytes → Bytes
  lossless : ∀ b, decode (encode b) = .ok b
  length : ∀ b, decodedLen (encode b) = .ok b.length

-- What `Write` appends to the segment.
def WALSegmentWriter.frame (entryType : UInt8) (compressed : Bytes) : Bytes :=
  entryType :: (Bytes.putUint32 compressed.length ++ compressed)

-- What `writeToLog` makes of an entry.
def WALEntry.frame (z : SnappyCodec) (e : WALEntry) (ks : List Bytes) : Go Bytes := do
  let b ← e.encode ks []
  return WALSegmentWriter.frame e.type (z.encode b)

section Spec

variable (s : Snappy)

-- The bytes of one entry that can be read, decompressed and decoded.
structure Record (x : Bytes) (e : WALEntry) : Prop where
  intro ::
  valid : ∃ type l b n data, x = type :: (l ++ b) ∧ l.length = 4 ∧ b.length = Bytes.uint32 l ∧
    s.decodedLen b = .ok n ∧ s.decode b = .ok data ∧ WALEntry.unmarshalBinary type data = .ok e

-- The entries at the start of a segment, up to the first one that is not valid, and what is left.
inductive Decodes : Bytes → List WALEntry → Bytes → Prop
  | nil : (∀ x e rest, b = x ++ rest → ¬Record s x e) → Decodes b [] b
  | cons : Record s x e → Decodes b es rest → Decodes (x ++ b) (e :: es) rest

-- A segment up to the end of its last valid entry.
def kept (file rest : Bytes) : Bytes :=
  file.take (file.length - rest.length)

-- The values of a key have the same type in all entries.
def OneType (es : List WALEntry) : Prop :=
  ∃ kind : Bytes → Kind, ∀ values, .write values ∈ es → ∀ k vs, values.lookup k = some vs →
    ∀ v ∈ vs, v.2.kind = kind k

-- The cache after some entries have been applied, whatever the order of the keys.
def Cache.apply (c : Cache) (es : List WALEntry) : Cache :=
  es.foldl (fun c e => (c.load (·.ascending) e).1) c

end Spec

end Tsm1
