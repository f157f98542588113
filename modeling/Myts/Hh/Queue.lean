import Myts.Lib.Directory
import Myts.Hh.Segment

namespace Hh

-- The address of a segment.
abbrev Ref := Nat

-- Nanoseconds since the zero time.
abbrev Time := Int

structure Queue where
  dir : Directory
  -- All segments that have been created, including the ones that are not in use anymore.
  heap : List Segment
  head : Option Ref
  tail : Option Ref
  maxSegmentSize : Int64
  maxSize : Int64
  segments : List Ref
deriving DecidableEq

abbrev QueueM := EStateM Error Queue

def defaultSegmentSize : Int64 := 10 * 1024 * 1024

namespace Queue

def newQueue (dir : Directory) (maxSize : Int64) : Queue where
  dir := dir
  heap := []
  head := none
  tail := none
  maxSegmentSize := defaultSegmentSize
  maxSize := maxSize
  segments := []

-- What a segment has written to its file is seen by everyone who reads the directory.
def flush (dir : Directory) (l : Segment) : Directory :=
  match l.file with
  | none => dir
  | some file => dir.write l.path file.content

def store (q : Queue) (r : Ref) (l : Segment) : Queue :=
  { q with heap := q.heap.set r l, dir := flush q.dir l }

def load (r : Ref) : QueueM Segment := fun q =>
  match q.heap[r]? with
  | none => .error .panic q
  | some l => .ok l q

def onSegment (r : Ref) (m : SegmentM α) : QueueM α := fun q =>
  match q.heap[r]? with
  | none => .error .panic q
  | some l =>
    match m.run l with
    | .ok a l => .ok a (q.store r l)
    | .error e l => .error e (q.store r l)

-- A pointer that is followed without a check for nil.
def deref (r : Option Ref) : QueueM Ref :=
  match r with
  | none => throw .panic
  | some r => return r

-- The error of a call is inspected by the caller. A panic can not be.
def attempt (m : QueueM α) : QueueM (Except Error α) := fun q =>
  match m q with
  | .ok a q => .ok (.ok a) q
  | .error .panic q => .error .panic q
  | .error e q => .ok (.error e) q

def newSegment (path : FileName) : QueueM Ref := fun q =>
  let (content, dir) := q.dir.openFile path
  match Segment.newSegment path content q.maxSegmentSize with
  | .ok () l => .ok q.heap.length { q with heap := q.heap ++ [l], dir := flush dir l }
  | .error e l => .error e { q with dir := flush dir l }

def removeFile (path : FileName) : QueueM Unit := do
  let q ← get
  if ∃ e ∈ q.dir, e.name = path then
    set { q with dir := q.dir.remove path }
  else
    throw .notExist

def diskUsage (q : Queue) : Int :=
  q.segments.foldl (fun size s => size + q.heap[s]?.elim 0 Segment.diskUsage) 0

-- The numbers of the segments count the files that have been created, so `uint64` holds them all.
def nextSegmentID : QueueM Nat := do
  let files := (← get).dir.readDir
  return files.foldl maxID 0 + 1
where
  maxID (maxID : Nat) (file : DirEntry) : Nat :=
    if file.isDir then
      maxID
    else
      match Decimal.parseUint file.name with
      | none => maxID
      | some segmentID => if segmentID > maxID then segmentID else maxID

def addSegment : QueueM Ref := do
  let nextID ← nextSegmentID
  let segment ← newSegment <| Decimal.formatUint nextID
  modify fun q => { q with segments := q.segments ++ [segment] }
  return segment

def loadSegments : QueueM (List Ref) := do
  go (← get).dir.readDir
where
  go : List DirEntry → QueueM (List Ref)
    | [] => return []
    | file :: files => do
      if file.isDir ∨ Decimal.parseUint file.name = none then
        go files
      else
        let segment ← newSegment file.name
        let segments ← go files
        return segment :: segments

def trimHead : QueueM Unit := do
  let q ← get
  match q.segments with
  | _ :: s :: segments =>
    set { q with segments := s :: segments }
    let head ← deref q.head
    onSegment head Segment.close
    removeFile (← load head).path
    modify ({ · with head := s })
  | _ => return ()

def «open» : QueueM Unit := do
  let segments ← loadSegments
  modify ({ · with segments })
  if segments = [] then
    let _ ← addSegment
  modify fun q => { q with head := q.segments.head?, tail := q.segments.getLast? }
  skipDrained
where
  -- If the head has been fully advanced, the queue would get stuck at it.
  skipDrained : QueueM Unit := do
    let head ← deref (← get).head
    match ← attempt <| onSegment head Segment.current with
    | .error .eof => trimHead
    | _ => return ()

def forSegments (f : SegmentM Unit) : List Ref → QueueM Unit
  | [] => return ()
  | s :: segments => do
    onSegment s f
    forSegments f segments

def close : QueueM Unit := do
  forSegments Segment.close (← get).segments
  modify ({ · with head := none, tail := none, segments := [] })

def setMaxSegmentSize (size : Int64) : QueueM Unit := do
  modify ({ · with maxSegmentSize := size })
  forSegments (Segment.setMaxSegmentSize size) (← get).segments
  let tail ← deref (← get).tail
  if (← load tail).diskUsage ≥ size.toInt then
    let segment ← addSegment
    modify ({ · with tail := some segment })

def append (b : Bytes) : QueueM Unit := do
  let q ← get
  match q.tail with
  | none => throw .notOpen
  | some tail =>
    if q.diskUsage + b.length > q.maxSize.toInt then
      throw .queueFull
    else
      match ← attempt <| onSegment tail (Segment.append b) with
      | .error .segmentFull =>
        let segment ← addSegment
        modify ({ · with tail := some segment })
        onSegment segment (Segment.append b)
      | _ => return ()

def current : QueueM Bytes := do
  match (← get).head with
  | none => throw .notOpen
  | some head => onSegment head Segment.current

def advance : QueueM Unit := do
  match (← get).head with
  | none => throw .notOpen
  | some head =>
    match ← attempt <| onSegment head Segment.advance with
    | .error .eof => trimHead
    | _ => return ()

def truncateToSecond (t : Time) : Time :=
  t - t % 1000000000

-- `mods` are the modification times the file system reports, one for each round of the loop. A
-- call that is still in its loop has used up the list.
def purgeOlderThan (mods : List Time) (when : Time) : QueueM Unit := do
  if (← get).segments = [] then
    return ()
  else
    go (truncateToSecond when) mods
where
  go (cutoff : Time) : List Time → QueueM Unit
    | [] => return ()
    | mod :: mods => do
      let head ← deref (← get).head
      if (← load head).file.isNone then
        throw .panic
      else if mod ≥ cutoff then
        return ()
      else
        dropHead
        go cutoff mods
  dropHead : QueueM Unit := do
    -- The last segment can only be trimmed if there is a new one behind it.
    if (← get).segments.length = 1 then
      let _ ← addSegment
    trimHead

end Queue
end Hh
