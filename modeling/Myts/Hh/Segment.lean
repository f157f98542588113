import Myts.Lib.File
import Myts.Lib.Decimal

namespace Hh

inductive Error
  | notOpen
  | queueFull
  | segmentFull
  | eof
  -- A method of a nil `*os.File`, or a seek before the start of the file.
  | invalid
  | badRead
  | notExist
  | recordSizeOutOfRange (max : Int) (got : Nat)
  -- `make` with a negative length, or the dereference of a nil pointer.
  | panic
deriving DecidableEq

-- Conversions between `uint64` and `int64`.
def toInt64 (n : Nat) : Int :=
  if n < 2 ^ 63 then n else n - 2 ^ 64

def toUint64 (n : Int) : Nat :=
  (n % 2 ^ 64).toNat

def footerSize : Int := 8

structure Segment where
  size : Int
  file : Option File
  path : FileName
  pos : Int
  currentSize : Int
  maxSize : Int64
deriving DecidableEq

-- A method that returns an error keeps the changes it has made to its receiver.
abbrev SegmentM := EStateM Error Segment

namespace Segment

def withFile (f : File → Except Error (α × File)) : SegmentM α := do
  let l ← get
  match l.file with
  | none => throw .invalid
  | some file =>
    match f file with
    | .error e => throw e
    | .ok (a, file) =>
      set { l with file := some file }
      return a

def seek (pos : Int) : SegmentM Unit :=
  withFile fun f =>
    match f.seekStart pos with
    | none => .error .invalid
    | some f => .ok ((), f)

def seekEnd (pos : Int) : SegmentM Unit :=
  withFile fun f =>
    match f.seekEnd pos with
    | none => .error .invalid
    | some f => .ok ((), f)

def seekToCurrent : SegmentM Unit := do
  seek (← get).pos

def writeBytes (b : Bytes) : SegmentM Unit :=
  withFile fun f => .ok ((), f.write b)

def writeUint64 (n : Nat) : SegmentM Unit :=
  writeBytes <| .putUint64 n

def readBytes (n : Nat) : SegmentM Bytes :=
  withFile fun f =>
    let (b, f) := f.read n
    if b = [] ∧ n ≠ 0 then .error .eof
    else if b.length ≠ n then .error .badRead
    else .ok (b, f)

def readUint64 : SegmentM Nat :=
  Bytes.uint64 <$> readBytes 8

def «open» : SegmentM Unit := do
  let l ← get
  if l.size = 0 then
    -- A new segment: the location of the current record is all there is to write.
    set { l with pos := 0, currentSize := 0 }
    writeUint64 0
    modify ({ · with size := footerSize })
  else
    seekEnd (-footerSize)
    let pos ← readUint64
    modify ({ · with pos := toInt64 pos })
    seekToCurrent
    if toInt64 pos < l.size - footerSize then
      let currentSize ← readUint64
      modify ({ · with currentSize := toInt64 currentSize })

-- `content` is what the file at `path` holds when it is opened.
def newSegment (path : FileName) (content : Bytes) (maxSize : Int64) :
    EStateM.Result Error Segment Unit :=
  EStateM.run «open» {
    size := content.length, file := some ⟨content, 0⟩, path, pos := 0, currentSize := 0, maxSize
  }

def append (b : Bytes) : SegmentM Unit := do
  let l ← get
  if l.file.isNone then
    throw .notOpen
  else if l.size + b.length > l.maxSize.toInt then
    throw .segmentFull
  else
    seekEnd (-footerSize)
    writeUint64 b.length
    writeBytes b
    writeUint64 (toUint64 l.pos)
    modify fun l => { l with
      currentSize := if l.currentSize = 0 then b.length else l.currentSize
      size := l.size + b.length + 8
    }

def current : SegmentM Bytes := do
  let l ← get
  if l.pos = l.size - 8 then
    throw .eof
  else
    seekToCurrent
    let sz ← readUint64
    modify ({ · with currentSize := toInt64 sz })
    if toInt64 sz > l.maxSize.toInt then
      throw <| .recordSizeOutOfRange l.maxSize.toInt sz
    else if toInt64 sz < 0 then
      throw .panic
    else
      readBytes sz

def advance : SegmentM Unit := do
  let l ← get
  if l.file.isNone then
    throw .notOpen
  else if l.pos = l.size - footerSize then
    set { l with currentSize := 0 }
    throw .eof
  else
    seekEnd (-footerSize)
    let pos := l.pos + l.currentSize + 8
    writeUint64 (toUint64 pos)
    modify ({ · with pos })
    seekToCurrent
    let sz ← readUint64
    modify ({ · with currentSize := toInt64 sz })
    if pos = l.size - footerSize then
      modify ({ · with currentSize := 0 })
      throw .eof

def close : SegmentM Unit := do
  let l ← get
  match l.file with
  | none => throw .invalid
  | some _ => set { l with file := none }

def diskUsage (l : Segment) : Int :=
  l.size

def setMaxSegmentSize (size : Int64) : SegmentM Unit :=
  modify ({ · with maxSize := size })

section Call

inductive Call
  | append (b : Bytes)
  | current
  | advance
  -- `close`, and `newSegment` with the same path and limit.
  | reopen
deriving DecidableEq

-- An error, or the entry if there is one to return.
abbrev Answer := Except Error (Option Bytes)

def answer (f : α → Option Bytes) : EStateM.Result Error Segment α → Answer × Segment
  | .ok a l => (.ok (f a), l)
  | .error e l => (.error e, l)

def reopen (l : Segment) : EStateM.Result Error Segment Unit :=
  match close.run l with
  | .error e l' => .error e l'
  | .ok () l' => newSegment l'.path (l.file.elim [] (·.content)) l'.maxSize

def call (l : Segment) : Call → Answer × Segment
  | .append b => answer (fun _ => none) <| (append b).run l
  | .current => answer some <| current.run l
  | .advance => answer (fun _ => none) <| advance.run l
  | .reopen => answer (fun _ => none) <| reopen l

end Call

end Segment
end Hh
