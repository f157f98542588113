import Myts.Lib.Decoder
import Myts.Tsm1.Recovery

-- The decoders for the columns of a block, which are kept in pools.

-- `binary.Uvarint`, with the number of bytes that were read
def Bytes.uvarint (b : Bytes) : Option (UInt64 × Nat) :=
  go 0 0 b
where
  go (i : Nat) (x : UInt64) : Bytes → Option (UInt64 × Nat)
    | [] => none
    | c :: b =>
      if c < 0x80 then
        if 9 < i ∨ i = 9 ∧ 1 < c then none
        else some (x ||| c.toUInt64 <<< UInt64.ofNat (7 * i), i + 1)
      else
        go (i + 1) (x ||| (c &&& 0x7f).toUInt64 <<< UInt64.ofNat (7 * i)) b

namespace Tsm1

-- The packing of small integers into words: the rest of a block, and one word.
structure Simple8b where
  unpack : Bytes → List UInt64
  decode : UInt64 → Except String (List UInt64)

def encodingOf (c : UInt8) : UInt8 := c >>> 4

def word (b : Bytes) : UInt64 := .ofNat (Bytes.uint64 (b.take 8))

structure BooleanDecoder where
  b : Bytes
  i : Int64
  n : Int64
  err : Option String

namespace BooleanDecoder

def new : BooleanDecoder := ⟨[], 0, 0, none⟩

def setBytes (d : BooleanDecoder) : Bytes → BooleanDecoder
  | [] => d
  | _ :: b =>
    match Bytes.uvarint b with
    | none            => { d with err := some "BooleanDecoder: invalid count" }
    | some (count, n) =>
      let b := b.drop n
      let min := Int64.ofNat (b.length * 8)
      { d with b, i := -1, n := if min < count.toInt64 then min else count.toInt64 }

def next (d : BooleanDecoder) : Bool × BooleanDecoder :=
  if d.err.isSome then (false, d) else (d.i + 1 < d.n, { d with i := d.i + 1 })

def read (d : BooleanDecoder) : Go Bool := do
  let mask := UInt8.ofNat (2 ^ (7 - (d.i.toInt % 8).toNat))
  let v ← Bytes.byteAt d.b (d.i.toInt / 8)
  return v &&& mask == mask

def decoder : Decoder BooleanDecoder Bool where
  init b d := .ok (d.setBytes b)
  next d := .ok d.next
  read d := (·, d) <$> d.read
  err := err

end BooleanDecoder

structure TimeDecoder where
  v : Int64
  i : Int64
  n : Int64
  ts : List UInt64
  err : Option String
  rleDelta : Int64
  encoding : UInt8

namespace TimeDecoder

def new : TimeDecoder := ⟨0, 0, 0, [], none, 0, 0⟩

def compressedRLE : UInt8 := 2

def fail (d : TimeDecoder) (e : String) : TimeDecoder :=
  { d with err := some e }

-- The sums of the deltas, from the value before the first one.
def sums : UInt64 → List UInt64 → List UInt64
  | _, [] => []
  | last, x :: xs => (last + x) :: sums (last + x) xs

-- `math.Pow10` of the low bits
def scale (b : Bytes) : UInt64 := .ofNat (10 ^ (b.headD 0 &&& 0xf).toNat)

def decodePacked (s : Simple8b) (d : TimeDecoder) (b : Bytes) : TimeDecoder :=
  if b.length < 9 then
    d.fail "TimeDecoder: not enough data to decode packed timestamps"
  else
    let div := scale b
    let first := word (b.drop 1)
    let deltas := (s.unpack (b.drop 9)).map fun x => if 1 < div then x * div else x
    { d with i := 0, ts := first :: sums first deltas }

def decodeRLE (d : TimeDecoder) (b : Bytes) : TimeDecoder :=
  if b.length < 9 then
    d.fail "TimeDecoder: not enough data for initial RLE timestamp"
  else
    match Bytes.uvarint (b.drop 9) with
    | none            => d.fail "TimeDecoder: invalid run length in decodeRLE"
    | some (value, n) =>
      match Bytes.uvarint (b.drop (9 + n)) with
      | none            => d.fail "TimeDecoder: invalid repeat value in decodeRLE"
      | some (count, _) =>
        let value := value * scale b
        { d with
          v := (word (b.drop 1) - value).toInt64, rleDelta := value.toInt64, i := -1,
          n := count.toInt64 }

def decodeRaw (d : TimeDecoder) (b : Bytes) : TimeDecoder :=
  { d with i := 0, ts := sums 0 ((List.range (b.length / 8)).map fun i => word (b.drop (i * 8))) }

def decode (s : Simple8b) (d : TimeDecoder) (b : Bytes) : TimeDecoder :=
  if d.encoding = 0 then
    d.decodeRaw (b.drop 1)
  else if d.encoding = compressedRLE then
    d.decodeRLE b
  else if d.encoding = 1 then
    d.decodePacked s b
  else
    d.fail <| "unknown encoding: " ++ toString d.encoding

def init (s : Simple8b) (d : TimeDecoder) (b : Bytes) : TimeDecoder :=
  let d := { d with v := 0, i := 0, ts := [], err := none }
  match b with
  | [] => d
  | c :: _ => { d with encoding := encodingOf c }.decode s b

def next (d : TimeDecoder) : Go (Bool × TimeDecoder) :=
  if d.err.isSome then
    return (false, d)
  else if d.encoding = compressedRLE then
    if d.n ≤ d.i then
      return (false, d)
    else
      return (d.i + 1 < d.n, { d with i := d.i + 1, v := d.v + d.rleDelta })
  else if Int64.ofNat d.ts.length ≤ d.i then
    return (false, d)
  else do
    let t ← Go.deref d.ts[d.i.toInt.toNat]?
    return (true, { d with v := t.toInt64, i := d.i + 1 })

def decoder (s : Simple8b) : Decoder TimeDecoder Int64 where
  init b d := .ok (d.init s b)
  next := next
  read d := return (d.v, d)
  err := err

end TimeDecoder

def zigZagDecode (v : UInt64) : Int64 :=
  ((v >>> 1) ^^^ (if v &&& 1 = 1 then -1 else 0)).toInt64

structure IntegerDecoder where
  values : Vector UInt64 240
  bytes : Bytes
  i : Int64
  n : Int64
  prev : Int64
  first : Bool
  rleFirst : UInt64
  rleDelta : UInt64
  encoding : UInt8
  err : Option String

namespace IntegerDecoder

def new : IntegerDecoder := ⟨.replicate 240 0, [], 0, 0, 0, false, 0, 0, 0, none⟩

-- The values are not cleared.
def setBytes (d : IntegerDecoder) (b : Bytes) : IntegerDecoder where
  values := d.values
  bytes := b.tail
  i := 0
  n := 0
  prev := 0
  first := true
  rleFirst := 0
  rleDelta := 0
  encoding := b.head?.elim 0 encodingOf
  err := none

def fail (d : IntegerDecoder) (e : String) : IntegerDecoder :=
  { d with err := some e }

def store (d : IntegerDecoder) (xs : List UInt64) : IntegerDecoder :=
  { d with
    values := .ofFn fun i => xs[i.val]?.getD (d.values.get i), n := Int64.ofNat xs.length, i := 0,
    bytes := d.bytes.drop 8 }

def decodeRLE (d : IntegerDecoder) : IntegerDecoder :=
  if d.bytes = [] then
    d
  else if d.bytes.length < 8 then
    d.fail "IntegerDecoder: not enough data to decode RLE starting value"
  else
    match Bytes.uvarint (d.bytes.drop 8) with
    | none            => d.fail "IntegerDecoder: invalid RLE delta value"
    | some (value, n) =>
      match Bytes.uvarint (d.bytes.drop (8 + n)) with
      | none            => d.fail "IntegerDecoder: invalid RLE repeat value"
      | some (count, _) =>
        { d with
          rleFirst := word d.bytes, rleDelta := value, n := count.toInt64 + 1, i := 0,
          bytes := [] }

def decodePacked (s : Simple8b) (d : IntegerDecoder) : IntegerDecoder :=
  if d.bytes = [] then
    d
  else if d.bytes.length < 8 then
    d.fail "IntegerDecoder: not enough data to decode packed value"
  else if d.first then
    { d with first := false }.store [word d.bytes]
  else
    match s.decode (word d.bytes) with
    | .ok xs => d.store xs
    | .error e =>
      (d.fail <| "failed to decode value " ++ toString (word d.bytes) ++ ": " ++ e).store []

def decodeUncompressed (d : IntegerDecoder) : IntegerDecoder :=
  if d.bytes = [] then
    d
  else if d.bytes.length < 8 then
    d.fail "IntegerDecoder: not enough data to decode uncompressed value"
  else
    d.store [word d.bytes]

def refill (s : Simple8b) (d : IntegerDecoder) : IntegerDecoder :=
  if d.encoding = 0 then
    d.decodeUncompressed
  else if d.encoding = 1 then
    d.decodePacked s
  else if d.encoding = 2 then
    d.decodeRLE
  else
    d.fail <| "unknown encoding " ++ toString d.encoding

def next (s : Simple8b) (d : IntegerDecoder) : Bool × IntegerDecoder :=
  if d.n ≤ d.i ∧ d.bytes = [] then
    (false, d)
  else
    let d := { d with i := d.i + 1 }
    let d := if d.n ≤ d.i then d.refill s else d
    (d.err.isNone && d.i < d.n, d)

def read (d : IntegerDecoder) : Go (Int64 × IntegerDecoder) :=
  if d.encoding = 2 then
    return (zigZagDecode d.rleFirst + d.i * zigZagDecode d.rleDelta, d)
  else do
    let x ← if 0 ≤ d.i then Go.deref d.values[d.i.toInt.toNat]? else Go.panic
    let v := zigZagDecode x + d.prev
    return (v, { d with prev := v })

def decoder (s : Simple8b) : Decoder IntegerDecoder Int64 where
  init b d := .ok (d.setBytes b)
  next d := .ok (d.next s)
  read := read
  err := err

end IntegerDecoder

-- Go's shifts, which lose all bits if the count is large.
def shl (x k : UInt64) : UInt64 := if k < 64 then x <<< k else 0

def shr (x k : UInt64) : UInt64 := if k < 64 then x >>> k else 0

structure BitReader where
  data : Bytes
  v : UInt64
  n : UInt64

namespace BitReader

def appendBytes (v n : UInt64) : Bytes → UInt64 × UInt64
  | [] => (v, n)
  | c :: b => appendBytes (v ||| shl c.toUInt64 (64 - (n + 8))) (n + 8) b

def readBuf (r : BitReader) : BitReader :=
  let byteN := min (8 - r.n.toNat / 8) r.data.length
  if byteN = 8 then
    { data := r.data.drop 8, v := word r.data, n := 64 }
  else
    let (v, n) := appendBytes r.v r.n (r.data.take byteN)
    { data := r.data.drop byteN, v, n }

def reset (data : Bytes) : BitReader :=
  readBuf { data, v := 0, n := 0 }

def refillIfEmpty (r : BitReader) : BitReader :=
  if r.n = 0 then r.readBuf else r

def readBits (r : BitReader) (nbits : UInt64) : Except String (UInt64 × BitReader) :=
  if r.n = 0 then
    .error "EOF"
  else if nbits ≤ r.n then
    if nbits = 64 then
      .ok (r.v, reset r.data)
    else
      .ok (shr r.v (64 - nbits), { r with v := shl r.v nbits, n := r.n - nbits }.refillIfEmpty)
  else
    let next := reset r.data
    let bufN := if next.n < nbits - r.n then next.n else nbits - r.n
    .ok (shr (r.v ||| shr next.v r.n) (64 - nbits),
      { next with v := shl next.v bufN, n := next.n - bufN }.refillIfEmpty)

-- One bit, without a refill as long as there are two.
def readBit (r : BitReader) : Except String (Bool × BitReader) :=
  if 1 < r.n then
    .ok (r.v &&& 0x8000000000000000 != 0, { r with v := r.v <<< 1, n := r.n - 1 })
  else
    (fun (v, r) => (v != 0, r)) <$> r.readBits 1

end BitReader

structure FloatDecoder where
  val : UInt64
  leading : UInt64
  trailing : UInt64
  br : BitReader
  b : Bytes
  first : Bool
  finished : Bool
  err : Option String

namespace FloatDecoder

def new : FloatDecoder := ⟨0, 0, 0, ⟨[], 0, 0⟩, [], false, false, none⟩

def uvnan : UInt64 := 0x7FF8000000000001

def setBytes (d : FloatDecoder) : Bytes → Except String FloatDecoder
  | [] => .ok ⟨uvnan, 0, 0, d.br, [], true, false, none⟩
  | c :: b => do
    let (v, br) ← (BitReader.reset b).readBits 64
    return ⟨v, 0, 0, br, c :: b, true, false, none⟩

-- The bits for a new number of leading and trailing zeros.
def readWindow (d : FloatDecoder) : Except String FloatDecoder := do
  let (leading, br) ← d.br.readBits 5
  let (mbits, br) ← br.readBits 6
  let mbits := if mbits = 0 then 64 else mbits
  return { d with br, leading, trailing := 64 - leading - mbits }

-- The next value, or none at the end.
def readValue (d : FloatDecoder) : Except String (Option FloatDecoder) := do
  let (bit, br) ← d.br.readBit
  let d := { d with br }
  if bit then
    let (bit, br) ← d.br.readBit
    let d := { d with br }
    let d ← if bit then d.readWindow else pure d
    let (bits, br) ← d.br.readBits (64 - d.leading - d.trailing)
    let vbits := d.val ^^^ shl bits d.trailing
    return if vbits = uvnan then none else some { d with br, val := vbits }
  else
    return some d

def next (d : FloatDecoder) : Bool × FloatDecoder :=
  if d.err.isSome ∨ d.finished then
    (false, d)
  else if d.first then
    if d.val = uvnan then (false, { d with first := false, finished := true })
    else (true, { d with first := false })
  else
    match d.readValue with
    | .error e => (false, { d with err := some e })
    | .ok none => (false, { d with finished := true })
    | .ok (some d) => (true, d)

def decoder : Decoder FloatDecoder UInt64 where
  init b d := d.setBytes b
  next d := .ok d.next
  read d := return (d.val, d)
  err := err

end FloatDecoder

structure StringDecoder where
  b : Bytes
  l : Int64
  i : Int64
  err : Option String

namespace StringDecoder

def new : StringDecoder := ⟨[], 0, 0, none⟩

def setBytes (s : Snappy) (b : Bytes) : Except String StringDecoder := do
  let data ←
    match b with
    | [] => pure []
    | _ :: b =>
      match s.decode b with
      | .error e => .error ("failed to decode string block: " ++ e)
      | .ok data => pure data
  return ⟨data, 0, 0, none⟩

def next (d : StringDecoder) : Bool × StringDecoder :=
  if d.err.isSome then
    (false, d)
  else
    (d.i + d.l < Int64.ofNat d.b.length, { d with i := d.i + d.l })

def read (d : StringDecoder) : Go (Bytes × StringDecoder) := do
  let b ← Bytes.sliceFrom d.b d.i.toInt
  match Bytes.uvarint b with
  | none =>
    return ([], { d with err := some "StringDecoder: invalid encoded string length" })
  | some (length, n) =>
    let d := { d with l := length.toInt64 + Int64.ofNat n }
    let lower := d.i + Int64.ofNat n
    let upper := lower + length.toInt64
    if upper < lower then
      return ([], { d with err := some "StringDecoder: length overflow" })
    else if Int64.ofNat d.b.length < upper then
      return ([], { d with
        err := some "StringDecoder: not enough data to represent encoded string" })
    else
      let v ← Bytes.sliceAt d.b lower.toInt upper.toInt
      return (v, d)

def decoder (s : Snappy) : Decoder StringDecoder Bytes where
  init b _ := setBytes s b
  next d := .ok d.next
  read := read
  err := err

end StringDecoder

end Tsm1
