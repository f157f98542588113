import Myts.Lib.Run
import Myts.Hh.Queue

namespace Hh

def after (m : EStateM ε σ α) (s : σ) : σ :=
  match m.run s with
  | .ok _ s => s
  | .error _ s => s

-- The entries that repeated calls of `current` and `advance` get out of a segment.
def Segment.unread (l : Segment) : List Bytes :=
  go l.size.toNat l
where
  go : Nat → Segment → List Bytes
    | 0, _ => []
    | n + 1, l =>
      match current.run l with
      | .ok b l => b :: go n (after advance l)
      | .error _ _ => []

namespace Queue

def current? (q : Queue) : Option Bytes :=
  match current.run q with
  | .ok b _ => some b
  | .error _ _ => none

-- What a reader gets who calls `current` and `advance` in turn. No entry is shorter than the space
-- it takes on disk, so the rounds are enough to get to the end of the queue.
def readable (q : Queue) : List Bytes :=
  go q.diskUsage.toNat q
where
  go : Nat → Queue → List Bytes
    | 0, _ => []
    | n + 1, q => q.current?.toList ++ go n (after advance <| after current q)

-- What a reader gets who gives up as soon as `current` fails.
def readableUntilEOF (q : Queue) : List Bytes :=
  go q.diskUsage.toNat q
where
  go : Nat → Queue → List Bytes
    | 0, _ => []
    | n + 1, q =>
      match q.current? with
      | none => []
      | some b => b :: go n (after advance <| after current q)

def headSegment? (q : Queue) : Option Segment :=
  q.head.bind (q.heap[·]?)

def tailSegment? (q : Queue) : Option Segment :=
  q.tail.bind (q.heap[·]?)

-- The tail has no room for the entry.
def TailFull (q : Queue) (b : Bytes) : Prop :=
  ∃ l ∈ q.tailSegment?, l.size + b.length > l.maxSize.toInt

-- An entry that is not rejected altogether finds no room in the tail.
def RollsOver (q : Queue) (b : Bytes) : Prop :=
  ¬(q.diskUsage + b.length > q.maxSize.toInt) ∧ q.TailFull b

-- The tail holds an entry that has not been advanced past.
def TailUnread (q : Queue) : Prop :=
  ∃ l ∈ q.tailSegment?, l.pos ≠ l.size - footerSize

-- Comparing the names of the files and comparing the numbers they stand for is the same.
def SameWidth (q : Queue) : Prop :=
  ∀ e₁ ∈ q.dir, ∀ e₂ ∈ q.dir, e₁.name.length = e₂.name.length

-- The segments between the head and the tail all hold entries that have not been advanced past.
def MiddleUnread (q : Queue) : Prop :=
  ∀ r ∈ q.segments.tail.dropLast, ∃ l ∈ q.heap[r]?, l.pos ≠ l.size - footerSize

def reopen : QueueM Unit := do
  close
  «open»

instance : Decidable (SameWidth q) :=
  inferInstanceAs (Decidable (∀ e₁ ∈ _, ∀ e₂ ∈ _, _))

instance : Decidable (TailFull q b) :=
  inferInstanceAs (Decidable (∃ l ∈ _, _))

instance : Decidable (RollsOver q b) :=
  inferInstanceAs (Decidable (_ ∧ _))

instance : Decidable (TailUnread q) :=
  inferInstanceAs (Decidable (∃ l ∈ _, _))

-- The bytes of all segments do not get beyond the limit of the queue, and those of the file that an
-- entry goes to do not get beyond the limit of the file, when the entry is appended. There is a
-- length in front of the entry, and a footer in a new file.
def HasRoom (q : Queue) (b : Bytes) : Prop :=
  if q.diskUsage + b.length > q.maxSize.toInt then
    True
  else if q.TailFull b then
    q.diskUsage + footerSize ≤ max q.maxSize.toInt footerSize ∧
    (footerSize + b.length ≤ q.maxSegmentSize.toInt →
      footerSize + (8 + b.length) ≤ q.maxSegmentSize.toInt ∧
      q.diskUsage + footerSize + (8 + b.length) ≤ max q.maxSize.toInt footerSize)
  else
    (∀ l ∈ q.tailSegment?, l.size + (8 + b.length) ≤ l.maxSize.toInt) ∧
    q.diskUsage + (8 + b.length) ≤ max q.maxSize.toInt footerSize

-- What is on disk is within the limits.
structure Bounded (q : Queue) : Prop where
  total : q.diskUsage ≤ max q.maxSize.toInt footerSize
  files : ∀ r ∈ q.segments, ∀ l ∈ q.heap[r]?, l.size ≤ l.maxSize.toInt ∧
    ∀ f ∈ l.file, f.content.length ≤ l.maxSize.toInt

instance : Decidable (HasRoom q b) :=
  inferInstanceAs (Decidable (ite ..))

def fresh (maxSize segmentSize : Int64) : Queue :=
  after (do «open»; setMaxSegmentSize segmentSize) (newQueue [] maxSize)

end Queue

inductive Op
  | append (b : Bytes)
  | current
  | advance
  | purgeOlderThan (mods : List Time) (when : Time)

namespace Op

-- The operations that keep a queue intact: entries have at least one byte, and a purge stops before
-- it gets to the last segment.
def Safe (q : Queue) : Op → Prop
  | append b => b ≠ []
  | purgeOlderThan mods when =>
    (mods.takeWhile (· < Queue.truncateToSecond when)).length < q.segments.length
  | _ => True

-- The operations that also keep the head from getting stuck: a new segment is only started behind
-- one that is not drained.
def KeepsUnread (q : Queue) : Op → Prop
  | append b => b ≠ [] ∧ (q.RollsOver b → q.TailUnread)
  | purgeOlderThan _ _ => False
  | _ => True

def KeepsBound (q : Queue) : Op → Prop
  | append b => q.HasRoom b
  | purgeOlderThan _ _ => False
  | _ => True

theorem KeepsUnread.safe (h : KeepsUnread q op) : Safe q op := by
  cases op
  case append => exact h.left
  case purgeOlderThan => exact h.elim
  all_goals exact trivial

instance : Decidable (Safe q op) := by
  cases op <;> dsimp only [Safe] <;> infer_instance

instance : Decidable (KeepsUnread q op) := by
  cases op <;> dsimp only [KeepsUnread] <;> infer_instance

instance : Decidable (KeepsBound q op) := by
  cases op <;> dsimp only [KeepsBound] <;> infer_instance

end Op

-- A queue along with the entries that `append` has accepted, and the entries that have been
-- advanced past or purged.
structure History where
  queue : Queue
  accepted : List Bytes
  gone : List Bytes

namespace History

def init (maxSize segmentSize : Int64) : History where
  queue := .fresh maxSize segmentSize
  accepted := []
  gone := []

def step (h : History) : Op → History
  | .append b =>
    match (Queue.append b).run h.queue with
    | .ok _ q => { h with queue := q, accepted := h.accepted ++ [b] }
    | .error _ q => { h with queue := q }
  | .current =>
    { h with queue := after Queue.current h.queue }
  | .advance =>
    { h with queue := after Queue.advance h.queue, gone := h.gone ++ h.queue.current?.toList }
  | .purgeOlderThan mods when =>
    let q := after (Queue.purgeOlderThan mods when) h.queue
    { h with queue := q, gone := h.gone ++ (purged h.queue q).flatMap Segment.unread }
where
  purged (q q' : Queue) : List Segment :=
    q.segments.filter (· ∉ q'.segments) |>.filterMap (q.heap[·]?)

end History
end Hh
