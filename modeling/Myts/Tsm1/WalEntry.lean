import Myts.Lib.ByteBuffer
import Myts.Tsm1.Cache

-- The entries of the write-ahead log and their encoding.
namespace Tsm1

open Bytes

-- The type of the values of one key.
inductive Kind
  | float64
  | integer
  | boolean
  | string
  | unsigned
deriving DecidableEq

namespace Kind

def entryType : Kind → UInt8
  | float64 => 1
  | integer => 2
  | boolean => 3
  | string => 4
  | unsigned => 5

def ofEntryType (typ : UInt8) : Option Kind :=
  [float64, integer, boolean, string, unsigned].find? (·.entryType = typ)

def typeName : Kind → String
  | float64  => "tsm1.FloatValue"
  | integer  => "tsm1.IntegerValue"
  | boolean  => "tsm1.BooleanValue"
  | string   => "tsm1.StringValue"
  | unsigned => "tsm1.UnsignedValue"

def innerTypeName : Kind → String
  | float64  => "float64"
  | integer  => "int64"
  | boolean  => "bool"
  | string   => "string"
  | unsigned => "uint64"

end Kind

def Value.kind : Value → Kind
  | float _ => .float64
  | integer _ => .integer
  | unsigned _ => .unsigned
  | boolean _ => .boolean
  | string _ => .string

def errWALCorrupt : String :=
  "corrupted WAL entry"

-- Continues only if the rest of an entry is long enough.
def checkWAL (p : Prop) [Decidable p] : Go Unit :=
  if p then .ok () else Go.fail errWALCorrupt

namespace WriteWALEntry

def stringSize : Value → Option Nat
  | .string v => some (4 + v.length)
  | _ => none

-- The size of the values of one key, if there are some and strings are not mixed with others.
def valuesSize (values : Values) : Option Nat :=
  match values with
  | [] => none
  | v :: _ =>
    match v.2.kind with
    | .float64 | .integer | .unsigned => some (16 * values.length)
    | .boolean => some (9 * values.length)
    | .string =>
      (values.mapM (stringSize ·.2)).map (8 * values.length + ·.sum)

def keySize (kv : Bytes × Values) : Option Nat :=
  (valuesSize kv.2).map (7 + kv.1.length + ·)

-- If the values of one key have no size, the whole entry has none.
def marshalSize (kvs : List (Bytes × Values)) : Nat :=
  ((kvs.mapM keySize).map List.sum).getD 0

def putInner (b : ByteBuffer) : Value → Go ByteBuffer
  | .float bits => b.put (putUint64 bits.toNat)
  | .integer v => b.put (putInt64 v)
  | .unsigned v => b.put (putUint64 v.toNat)
  | .boolean v => b.put [if v then 1 else 0]
  | .string v => do
    let b ← b.put (putUint32 v.length)
    return b.copy v

def putValue (curType : Kind) (b : ByteBuffer) (v : Int64 × Value) : Go ByteBuffer := do
  let b ← b.put (putInt64 v.1)
  if curType = v.2.kind then
    putInner b v.2
  else
    Go.fail <| "incorrect value found in " ++ curType.innerTypeName ++ " slice: " ++
      v.2.kind.typeName

def putKey (b : ByteBuffer) (kv : Bytes × Values) : Go ByteBuffer := do
  let v ← Go.deref kv.2.head?
  let curType := v.2.kind
  let b ← b.put [curType.entryType]
  let b ← b.put (putUint16 kv.1.length)
  let b ← b.copy kv.1 |>.put (putUint32 kv.2.length)
  kv.2.foldlM (putValue curType) b

-- The keys are in the order in which the loop over the map comes to them.
def encode (values : GoMap Bytes Values) (ks : List Bytes) (dst : Bytes) : Go Bytes := do
  let kvs := ks.map fun k => (k, (values.lookup k).getD [])
  let encLen := marshalSize kvs
  let dst := if dst.length < encLen then List.replicate encLen 0 else dst.take encLen
  let b ← kvs.foldlM putKey { bytes := dst, pos := 0 }
  return b.bytes.take b.pos

-- The loop over values that all have the same width.
def readFixed (width : Nat) (value : Bytes → Value) : (nvals : Nat) → Bytes → Go (Values × Bytes)
  | 0, b => return ([], b)
  | nvals + 1, b => do
    let (un, b) ← b.slice 8
    let (v, b) ← b.slice width
    let (vs, b) ← readFixed width value nvals b
    return ((int64 un, value v) :: vs, b)

def readFixedValues (width : Nat) (value : Bytes → Value) (nvals : Nat) (b : Bytes) :
    Go (Values × Bytes) := do
  checkWAL ((8 + width) * nvals ≤ b.length)
  readFixed width value nvals b

def readStrings : (nvals : Nat) → Bytes → Go (Values × Bytes)
  | 0, b => return ([], b)
  | nvals + 1, b => do
    checkWAL (12 ≤ b.length)
    let (un, b) ← b.slice 8
    let (l, rest) ← b.slice 4
    let length := uint32 l
    checkWAL (length ≤ b.length)
    checkWAL (length ≤ rest.length)
    let (v, b) ← rest.slice length
    let (vs, b) ← readStrings nvals b
    return ((int64 un, .string v) :: vs, b)

def readValues (nvals : Nat) (b : Bytes) : Kind → Go (Values × Bytes)
  | .float64 => readFixedValues 8 (fun v => .float (UInt64.ofNat (uint64 v))) nvals b
  | .integer => readFixedValues 8 (fun v => .integer (int64 v)) nvals b
  | .unsigned => readFixedValues 8 (fun v => .unsigned (UInt64.ofNat (uint64 v))) nvals b
  | .boolean => readFixedValues 1 (fun v => .boolean (v = [1])) nvals b
  | .string => readStrings nvals b

-- `total` is the length of the whole entry.
def readKey (total : Nat) (b : Bytes) : Go ((Bytes × Values) × Bytes) := do
  let (typ, b) ← b.slice 1
  checkWAL (2 ≤ b.length)
  let (l, b) ← b.slice 2
  let length := uint16 l
  checkWAL (length ≤ b.length)
  let (k, b) ← b.slice length
  checkWAL (4 ≤ b.length)
  let (n, b) ← b.slice 4
  let nvals := uint32 n
  checkWAL (0 < nvals ∧ nvals ≤ total)
  match Kind.ofEntryType (typ.headD 0) with
  | some kind => do
    let (vs, b) ← readValues nvals b kind
    return ((k, vs), b)
  | none =>
    Go.fail <| "unsupported value type: 0x" ++ String.ofList (Nat.toDigits 16 (typ.headD 0).toNat)

-- Every iteration reads some bytes, so that there are not more of them than bytes.
def readKeys (total : Nat) : (fuel : Nat) → Bytes → GoMap Bytes Values → Go (GoMap Bytes Values)
  | _, [], values => return values
  | 0, _ :: _, values => return values
  | fuel + 1, x :: b, values => do
    let (kv, b) ← readKey total (x :: b)
    readKeys total fuel b (values.insert kv.1 kv.2)

def unmarshalBinary (b : Bytes) : Go (GoMap Bytes Values) :=
  readKeys b.length b.length b ∅

end WriteWALEntry

namespace DeleteWALEntry

def newline : Bytes := [10]

def marshalSize (keys : List Bytes) : Nat :=
  keys.length + (keys.map List.length).sum

def putKey (b : ByteBuffer) (k : Bytes) : ByteBuffer :=
  (b.copy k).copy newline

-- The last newline is cut off, and there is none if there are no keys.
def encode (keys : List Bytes) (dst : Bytes) : Go Bytes :=
  let dst := if dst.length < marshalSize keys then List.replicate (marshalSize keys) 0 else dst
  let b := keys.foldl putKey { bytes := dst, pos := 0 }
  if b.pos = 0 then Go.panic else return b.bytes.take (b.pos - 1)

def unmarshalBinary (b : Bytes) : List Bytes :=
  b.splitOn 10

end DeleteWALEntry

namespace DeleteRangeWALEntry

def marshalSize (keys : List Bytes) : Nat :=
  16 + keys.length * 4 + (keys.map List.length).sum

def putKey (b : ByteBuffer) (k : Bytes) : Go ByteBuffer := do
  let b ← b.put (putUint32 k.length)
  return b.copy k

def encode (keys : List Bytes) (min max : Int64) (dst : Bytes) : Go Bytes := do
  let dst := if dst.length < marshalSize keys then List.replicate (marshalSize keys) 0 else dst
  let b ← ByteBuffer.put { bytes := dst, pos := 0 } (putInt64 min)
  let b ← b.put (putInt64 max)
  let b ← keys.foldlM putKey b
  return b.bytes.take b.pos

def readKey (b : Bytes) : Go (Bytes × Bytes) := do
  checkWAL (4 ≤ b.length)
  let (l, b) ← b.slice 4
  let sz := uint32 l
  checkWAL (sz ≤ b.length)
  b.slice sz

def readKeys : (fuel : Nat) → Bytes → Go (List Bytes)
  | _, [] => return []
  | 0, _ :: _ => return []
  | fuel + 1, x :: b => do
    let (k, b) ← readKey (x :: b)
    let ks ← readKeys fuel b
    return k :: ks

def unmarshalBinary (b : Bytes) : Go (List Bytes × Int64 × Int64) := do
  checkWAL (16 ≤ b.length)
  let (min, b) ← b.slice 8
  let (max, b) ← b.slice 8
  let keys ← readKeys b.length b
  return (keys, int64 min, int64 max)

end DeleteRangeWALEntry

inductive WALEntry
  | write (values : GoMap Bytes Values)
  | delete (keys : List Bytes)
  | deleteRange (keys : List Bytes) (min max : Int64)
deriving DecidableEq

namespace WALEntry

def type : WALEntry → UInt8
  | write _ => 1
  | delete _ => 2
  | deleteRange _ _ _ => 3

-- The order of the keys matters for a map only.
def encode (ks : List Bytes) (dst : Bytes) : WALEntry → Go Bytes
  | write values => WriteWALEntry.encode values ks dst
  | delete keys => DeleteWALEntry.encode keys dst
  | deleteRange keys min max => DeleteRangeWALEntry.encode keys min max dst

def unmarshalBinary (type : UInt8) (b : Bytes) : Go WALEntry :=
  if type = 1 then
    write <$> WriteWALEntry.unmarshalBinary b
  else if type = 2 then
    return delete (DeleteWALEntry.unmarshalBinary b)
  else if type = 3 then
    (fun (keys, min, max) => deleteRange keys min max) <$> DeleteRangeWALEntry.unmarshalBinary b
  else
    Go.fail <| "unknown wal entry type: " ++ toString type

-- The order in which the loop over the map of a write comes to its keys.
def Visits : WALEntry → List Bytes → Prop
  | write values, ks => values.Visits ks
  | _, _ => True

-- The entries that are written to the log.
def Valid : WALEntry → Prop
  | write values =>
    values.Forall fun vs => vs ≠ [] ∧ ∀ v ∈ vs, ∀ w ∈ vs, v.2.kind = w.2.kind
  | delete keys => keys ≠ []
  | deleteRange _ _ _ => True

-- A key, a list of values or a string of which the length does not fit into its field gets lost,
-- and so does a key with a newline.
def Fits : WALEntry → Prop
  | write values =>
    (∀ k ∈ values.keys, k.length < 2 ^ 16) ∧
      values.Forall fun vs => vs.length < 2 ^ 32 ∧ ∀ v ∈ vs, v.2.size < 2 ^ 32 + 8
  | delete keys => ∀ k ∈ keys, 10 ∉ k
  | deleteRange keys _ _ => ∀ k ∈ keys, k.length < 2 ^ 32

instance {e : WALEntry} : Decidable (e.Visits ks) := by
  cases e <;> dsimp only [Visits] <;> infer_instance

instance (e : WALEntry) : Decidable e.Valid := by
  cases e <;> dsimp only [Valid] <;> infer_instance

instance (e : WALEntry) : Decidable e.Fits := by
  cases e <;> dsimp only [Fits] <;> infer_instance

end WALEntry

end Tsm1
