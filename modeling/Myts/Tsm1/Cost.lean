import Myts.Tsm1.Reader

open List

-- The blocks that a query reads, and what that costs.
namespace Tsm1

namespace FileStore

-- What a file says about a key.
structure TSMFile where
  timeRange : TimeRange
  tombstoneRange : Bytes → List TimeRange
  readEntries : Bytes → List IndexEntry

-- A block only contains values that are tombstoned.
def TSMFile.Tombstoned (fd : TSMFile) (key : Bytes) (ie : IndexEntry) : Prop :=
  ∃ t ∈ fd.tombstoneRange key, t.Covers ie.minTime ie.maxTime

instance (fd : TSMFile) : Decidable (fd.Tombstoned key ie) :=
  inferInstanceAs (Decidable (∃ t ∈ _, _))

structure Location where
  r : TSMFile
  entry : IndexEntry
  readMin : Int64
  readMax : Int64

structure BlockCost where
  numFiles : Int64
  blocksRead : Int64
  blockSize : Int64
deriving DecidableEq

variable (key : Bytes)

def costEntry (fd : TSMFile) (min max : Int64) (s : BlockCost × Bool) (ie : IndexEntry) :
    BlockCost × Bool :=
  if ¬(min < ie.maxTime ∧ ie.minTime < max) then
    s
  else if fd.Tombstoned key ie then
    s
  else
    ({ s.1 with
      blocksRead := s.1.blocksRead + 1,
      blockSize := s.1.blockSize + .ofNat ie.size.toNat }, false)

def costFile (min max : Int64) (cost : BlockCost) (fd : TSMFile) : BlockCost :=
  if ¬(min < fd.timeRange.max ∧ fd.timeRange.min < max) then
    cost
  else
    let (cost, skipped) := (fd.readEntries key).foldl (costEntry key fd min max) (cost, true)
    if skipped then cost else { cost with numFiles := cost.numFiles + 1 }

def cost (files : List TSMFile) (min max : Int64) : BlockCost :=
  files.foldl (costFile key min max) { numFiles := 0, blocksRead := 0, blockSize := 0 }

-- Everything before (after) the seek time is marked as read.
def locate (t : Int64) (ascending : Bool) (fd : TSMFile) (ie : IndexEntry) : Option Location :=
  if fd.Tombstoned key ie then
    none
  else if ascending then
    if ie.maxTime < t then none else some ⟨fd, ie, Int64.minValue, t - 1⟩
  else
    if t < ie.minTime then none else some ⟨fd, ie, t + 1, Int64.maxValue⟩

def locationsIn (t : Int64) (ascending : Bool) (fd : TSMFile) : List Location :=
  if ascending ∧ fd.timeRange.max < t then
    []
  else if ¬ascending ∧ t < fd.timeRange.min then
    []
  else
    (fd.readEntries key).filterMap (locate key t ascending fd)

def locations (files : List TSMFile) (t : Int64) (ascending : Bool) : List Location :=
  files.flatMap (locationsIn key t ascending)

end FileStore

end Tsm1
