import Myts.Lib.Directory
import Myts.Lib.Run

-- The segment files of the write-ahead log.
namespace Tsm1

def segmentName (n : Nat) : FileName :=
  '_' :: (Decimal.padUint 5 n ++ ".wal".toList)

-- The pattern `_*.wal`.
def isSegmentName (n : FileName) : Bool :=
  n.head? = some '_' ∧ ".wal".toList <:+ n.tail

-- The list of a directory is in the order in which its files were created.
def segmentFileNames (d : Directory) : List FileName :=
  (d.map (·.name)).filter isSegmentName |>.insertionSort (·.lexLe ·)

def idFromFileName (n : FileName) : Option Nat :=
  match n.splitOn '.' with
  | [base, _] => (Decimal.parseUint <| base.drop 1).filter (· < 2 ^ 32)
  | _ => none

structure WALSegmentWriter where
  path : FileName
  size : Nat
  buf : Bytes
deriving DecidableEq

namespace WALSegmentWriter

def write (w : WALSegmentWriter) (b : Bytes) : WALSegmentWriter :=
  { w with size := w.size + b.length, buf := w.buf ++ b }

-- The first bytes of the buffer get into the file, at the position of the writer.
def flush (w : WALSegmentWriter) (n : Nat) (d : Directory) : WALSegmentWriter × Directory :=
  let content := ((d.find? (·.name = w.path)).map (·.content)).getD []
  let b := w.buf.take n
  let pos := w.size - w.buf.length
  ({ w with buf := w.buf.drop n },
    d.write w.path (content.take pos ++ b ++ content.drop (pos + b.length)))

def sync (w : WALSegmentWriter) (d : Directory) : Directory :=
  (w.flush w.buf.length d).2

end WALSegmentWriter

def defaultSegmentSize : Nat := 10 * 1024 * 1024

structure WAL where
  currentSegmentID : Nat
  currentSegmentWriter : Option WALSegmentWriter
  closing : Bool
  -- The log has been closed before, which it does only once.
  once : Bool
deriving DecidableEq

namespace WAL

-- When `rollSegment` and when `CloseSegment` open a new segment.
def Full (l : WAL) : Prop :=
  ∀ w ∈ l.currentSegmentWriter, defaultSegmentSize < w.size

def NotEmpty (l : WAL) : Prop :=
  ∀ w ∈ l.currentSegmentWriter, 0 < w.size

instance (l : WAL) : Decidable l.Full :=
  inferInstanceAs (Decidable (∀ w ∈ l.currentSegmentWriter, _))

instance (l : WAL) : Decidable l.NotEmpty :=
  inferInstanceAs (Decidable (∀ w ∈ l.currentSegmentWriter, _))

end WAL

structure Log where
  disk : Directory
  wal : Option WAL
  closed : List FileName
  found : List Bytes
deriving DecidableEq

namespace Log

inductive Event
  | start
  | reopen
  | write (b : Bytes)
  | flush (n : Nat)
  | closeSegment
  | closedSegments
  | remove (n : FileName)
  | close
  -- Of each file the first bytes are left, or nothing at all.
  | crash (left : FileName → Option Nat)

def newSegmentFile (s : Log) (l : WAL) : Log :=
  let disk := (l.currentSegmentWriter.map (·.sync s.disk)).getD s.disk
  let name := segmentName (l.currentSegmentID + 1)
  let file := disk.openFile name
  { s with
    disk := file.2
    wal := some { l with
      currentSegmentID := l.currentSegmentID + 1
      currentSegmentWriter := some ⟨name, 0, []⟩ }
    found := s.found ++ [file.1] }

-- A segment without entries is removed before the next one is created.
def openWAL (s : Log) (l : WAL) : Log :=
  match (segmentFileNames s.disk).getLast? with
  | none => { s with wal := some { l with closing := false } }
  | some last =>
    match idFromFileName last with
    | none => { s with wal := none }
    | some n =>
      let empty := s.disk.any fun e => e.name = last && e.content.isEmpty
      let s := { s with disk := if empty then s.disk.remove last else s.disk }
      s.newSegmentFile { l with currentSegmentID := n, closing := false }

def append (s : Log) (l : WAL) (b : Bytes) : Log :=
  { s with wal := some { l with currentSegmentWriter := l.currentSegmentWriter.map (·.write b) } }

-- What a process does that has opened the log.
def withWAL (s : Log) (f : WAL → Log) : Log :=
  match s.wal with
  | none => s
  | some l => f l

def writeToLog (s : Log) (l : WAL) (b : Bytes) : Log :=
  if l.closing then
    s
  else if l.Full then
    let s := s.newSegmentFile l
    s.withWAL (s.append · b)
  else
    s.append l b

def flush (s : Log) (l : WAL) (n : Nat) : Log :=
  match l.currentSegmentWriter with
  | none => s
  | some w =>
    let (w, disk) := w.flush n s.disk
    { s with disk, wal := some { l with currentSegmentWriter := some w } }

def closeSegment (s : Log) (l : WAL) : Log :=
  if l.NotEmpty then s.newSegmentFile l else s

def closedSegments (s : Log) (l : WAL) : Log :=
  let current := l.currentSegmentWriter.map (·.path)
  { s with closed := s.closed ++ (segmentFileNames s.disk).filter (some · ≠ current) }

def remove (s : Log) (n : FileName) : Log :=
  if n ∈ s.closed then { s with disk := s.disk.remove n } else s

def close (s : Log) (l : WAL) : Log :=
  if l.once then
    s
  else
    { s with
      disk := (l.currentSegmentWriter.map (·.sync s.disk)).getD s.disk
      wal := some { l with currentSegmentWriter := none, closing := true, once := true } }

def crash (s : Log) (left : FileName → Option Nat) : Log :=
  { s with
    disk := s.disk.filterMap fun e =>
      (left e.name).map fun n => { e with content := e.content.take n }
    wal := none
    closed := [] }

def step (s : Log) : Event → Log
  | .start => if s.wal.isNone then s.openWAL ⟨0, none, false, false⟩ else s
  | .reopen => s.withWAL s.openWAL
  | .write b => s.withWAL (s.writeToLog · b)
  | .flush n => s.withWAL (s.flush · n)
  | .closeSegment => s.withWAL s.closeSegment
  | .closedSegments => s.withWAL s.closedSegments
  | .remove n => s.withWAL fun _ => s.remove n
  | .close => s.withWAL s.close
  | .crash left => s.crash left

def init : Log where
  disk := []
  wal := none
  closed := []
  found := []

-- The name of the next segment is as long as those of the segments that exist.
def Fits (s : Log) (n : Nat) : Prop :=
  ∀ e ∈ s.disk, e.name.length = (segmentName (n + 1)).length

instance (s : Log) (n : Nat) : Decidable (s.Fits n) :=
  inferInstanceAs (Decidable (∀ e ∈ s.disk, _))

-- All segments that are opened have names that fit to each other.
def Uniform (s : Log) : Event → Prop
  | .start | .reopen =>
    ∀ last ∈ (segmentFileNames s.disk).getLast?, ∀ n ∈ idFromFileName last, s.Fits n
  | .write _ => ∀ l ∈ s.wal, l.Full → s.Fits l.currentSegmentID
  | .closeSegment => ∀ l ∈ s.wal, l.NotEmpty → s.Fits l.currentSegmentID
  | _ => True

instance (s : Log) (e : Event) : Decidable (s.Uniform e) := by
  cases e <;> dsimp only [Uniform] <;> infer_instance

-- The segments are listed in the order in which they were created.
def InOrder (s : Log) : Prop :=
  segmentFileNames s.disk = s.disk.map (·.name)

end Log

end Tsm1
