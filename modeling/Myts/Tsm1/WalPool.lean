import Myts.Lib.BufferPool
import Myts.Tsm1.Recovery

-- Readers of segments of the write-ahead log that share the buffers of one pool.
namespace Tsm1.WalPool

-- A key `b[off:off+len]` that was not copied.
structure Span where
  off : Nat
  len : Nat
deriving DecidableEq

def Span.bytes (k : Span) (b : Bytes) : Bytes :=
  (b.drop k.off).take k.len

-- Where the keys are if `gap` bytes stand between one and the next.
def spans (gap : Nat) : (off : Nat) → List Bytes → List Span
  | _, [] => []
  | off, k :: ks => ⟨off, k.length⟩ :: spans gap (off + k.length + gap) ks

-- An entry as it is in memory. The keys and values of a write are copies, the keys of a delete
-- are slices of the array that was unmarshalled.
inductive Entry
  | write (values : GoMap Bytes Values)
  | delete (array : Nat) (keys : List Span)
  | deleteRange (array : Nat) (keys : List Span) (min max : Int64)

namespace Entry

def array : Entry → Option Nat
  | write _ => none
  | delete a _ => some a
  | deleteRange a _ _ _ => some a

-- A key of a delete ends with a newline, a key of a range has its length of four bytes before it,
-- and the first one stands after the two times.
def unmarshalBinary (type : UInt8) (a : Nat) (b : Bytes) : Go Entry :=
  (fun
    | .write values => write values
    | .delete keys => delete a (spans 1 0 keys)
    | .deleteRange keys min max => deleteRange a (spans 4 20 keys) min max) <$>
  WALEntry.unmarshalBinary type b

def view (p : BufferPool) : Entry → WALEntry
  | write values => .write values
  | delete a keys => .delete <| keys.map (·.bytes (p.bytes a))
  | deleteRange a keys min max => .deleteRange (keys.map (·.bytes (p.bytes a))) min max

end Entry

-- How far `Next` has come, with the array of `b` and the one of `decBuf`.
inductive Phase
  | idle
  | took (type : UInt8) (length b : Nat)
  | filled (type : UInt8) (length b : Nat)
  | tookDec (type : UInt8) (length b decBuf : Nat)
  | decoded (type : UInt8) (size data b decBuf : Nat)
  -- The buffers that the deferred calls still have to put back.
  | returning (deferred : List Nat)
  | panicked

namespace Phase

def held : Phase → List Nat
  | took _ _ b => [b]
  | filled _ _ b => [b]
  | tookDec _ _ b decBuf => [decBuf, b]
  | decoded _ _ _ b decBuf => [decBuf, b]
  | returning deferred => deferred
  | _ => []

-- The decompressed bytes can be in an array that is in no pool.
def owned : Phase → List Nat
  | decoded _ _ data b decBuf => [data, decBuf, b]
  | ph => ph.held

-- The entry that `Read` returns is the one of the `Next` that has returned, or is about to.
def hasEntry : Phase → Bool
  | idle => true
  | returning _ => true
  | _ => false

end Phase

structure Reader where
  r : Bytes
  entry : Option Entry
  err : Option String
  more : Bool
  phase : Phase
  -- The reader that has all of its memory for itself, after the `Next` that was last called.
  alone : Go (Bool × WALSegmentReader)

namespace Reader

def new (file : Bytes) : Reader where
  r := file
  entry := none
  err := none
  more := false
  phase := .idle
  alone := .ok (false, .reset file)

def read (rd : Reader) (p : BufferPool) : Except String (Option WALEntry) :=
  match rd.err with
  | some e => .error e
  | none => .ok <| rd.entry.map (·.view p)

def fail (rd : Reader) (e : String) (deferred : List Nat) : Reader :=
  { rd with err := some e, more := true, phase := .returning deferred }

-- The entry that the caller has got, or is about to get, points into the array.
def Uses (rd : Reader) (a : Nat) : Prop :=
  rd.phase.hasEntry ∧ rd.more ∧ rd.err = none ∧ rd.entry.bind Entry.array = some a

instance {rd : Reader} : Decidable (rd.Uses a) :=
  inferInstanceAs (Decidable (_ ∧ _))

end Reader

inductive Action
  | start (choice : Option Nat)
  | fill
  | getDec (choice : Option Nat)
  | decode (garbage : Bytes)
  | unmarshal
  | putBuf

-- The array that the pool gives out.
def Action.choice : Action → Option Nat
  | start choice => choice
  | getDec choice => choice
  | _ => none

namespace Reader

-- Reads the type and the length of an entry, and gets a buffer for it.
def start (s : Snappy) (p : BufferPool) (rd : Reader) (choice : Option Nat) : BufferPool × Reader :=
  let rd := { rd with alone := rd.alone >>= fun (_, r) => r.next s }
  match readFull 5 rd.r with
  | .error .eof => (p, { rd with r := [], more := false })
  | .error e => (p, { rd with r := [], more := true, err := some e.text })
  | .ok (lv, r) =>
    let length := Bytes.uint32 (lv.drop 1)
    let (b, p) := p.get length choice
    (p, { rd with r, phase := .took (lv.headD 0) length b })

def fill (p : BufferPool) (rd : Reader) (type : UInt8) (length b : Nat) : BufferPool × Reader :=
  match readFull length rd.r with
  | .error e => (p.write b rd.r, { rd with r := [] }.fail e.text [b])
  | .ok (x, r) => (p.write b x, { rd with r, phase := .filled type length b })

def getDec (s : Snappy) (p : BufferPool) (rd : Reader) (type : UInt8) (length b : Nat)
    (choice : Option Nat) : BufferPool × Reader :=
  match s.decodedLen ((p.bytes b).take length) with
  | .error e => (p, rd.fail e [b])
  | .ok n =>
    let (decBuf, p) := p.get n choice
    (p, { rd with phase := .tookDec type length b decBuf })

-- Bytes that do not fit go to an array of their own, and a failure can have written anything.
def decode (s : Snappy) (p : BufferPool) (rd : Reader) (type : UInt8) (length b decBuf : Nat)
    (garbage : Bytes) : BufferPool × Reader :=
  match s.decode ((p.bytes b).take length) with
  | .error e => (p.write decBuf garbage, rd.fail e [decBuf, b])
  | .ok data =>
    if data.length ≤ (p.bytes decBuf).length then
      (p.write decBuf data, { rd with phase := .decoded type data.length decBuf b decBuf })
    else
      let (a, p) := p.alloc data
      (p, { rd with phase := .decoded type data.length a b decBuf })

def unmarshal (p : BufferPool) (rd : Reader) (type : UInt8) (size data b decBuf : Nat) : Reader :=
  match Entry.unmarshalBinary type data ((p.bytes data).take size) with
  | .error .panic => { rd with phase := .panicked }
  | .error (.error e) => rd.fail e [decBuf, b]
  | .ok entry =>
    { rd with entry := some entry, err := none, more := true, phase := .returning [decBuf, b] }

def act (s : Snappy) (p : BufferPool) (rd : Reader) (x : Action) : BufferPool × Reader :=
  match x, rd.phase with
  | .start choice, .idle => rd.start s p choice
  | .fill, .took type length b => rd.fill p type length b
  | .getDec choice, .filled type length b => rd.getDec s p type length b choice
  | .decode garbage, .tookDec type length b decBuf => rd.decode s p type length b decBuf garbage
  | .unmarshal, .decoded type size data b decBuf => (p, rd.unmarshal p type size data b decBuf)
  | .putBuf, .returning (b :: deferred) =>
    (p.put b, { rd with phase := .returning deferred })
  | .putBuf, .returning [] => (p, { rd with phase := .idle })
  | _, _ => (p, rd)

end Reader

end WalPool

structure WalPool (n : Nat) where
  pool : BufferPool
  readers : Fin n → WalPool.Reader

namespace WalPool

variable {n : Nat}

def init (files : Fin n → Bytes) : WalPool n where
  pool := { arrays := [], free := [] }
  readers := fun i => .new (files i)

inductive Step (n : Nat)
  | act (i : Fin n) (x : Action)
  | drop (a : Nat)

def step (s : Snappy) (w : WalPool n) : Step n → WalPool n
  | .drop a => { w with pool := w.pool.drop a }
  | .act i x =>
    let (p, rd) := (w.readers i).act s w.pool x
    { pool := p, readers := Function.update w.readers i rd }

-- No reader takes a buffer that the entry of another one still points into.
def Unshared (w : WalPool n) : Step n → Prop
  | .drop _ => True
  | .act i x => ∀ j ≠ i, ∀ a ∈ x.choice, ¬(w.readers j).Uses a

instance : ∀ (w : WalPool n) (x : Step n), Decidable (w.Unshared x)
  | _, .drop _ => inferInstanceAs (Decidable True)
  | w, .act i x => inferInstanceAs (Decidable (∀ j ≠ i, ∀ a ∈ x.choice, ¬(w.readers j).Uses a))

-- Whoever has got an entry sees the one that a reader of the same segment, which has all of its
-- memory for itself, gets with as many calls of `Next`.
def Intact (w : WalPool n) : Prop :=
  ∀ i, (w.readers i).phase = .idle → (w.readers i).more → ∃ r,
    (w.readers i).alone = .ok (true, r) ∧ (w.readers i).read w.pool = r.read

end Tsm1.WalPool
