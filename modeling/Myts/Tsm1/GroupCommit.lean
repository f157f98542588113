import Myts.Tsm1.Segments

-- The calls of a WAL that has been opened: how writes wait for a sync that serves all of them.
namespace Tsm1.GroupCommit

abbrev CallID := Nat

def maxWaiters : Nat := 1024

structure SegmentWriter where
  id : Nat
  size : Nat
  unsynced : List CallID
  -- The buffer keeps the first error of a write.
  broken : Bool
  shut : Bool

-- What a sync is part of.
inductive Purpose
  | roll (c : CallID)
  | closeSegment
  | close
  | background
deriving DecidableEq

-- What the holder of the lock does next.
inductive Section
  | enter (c : CallID)
  | rollSegment (c : CallID)
  | write (c : CallID)
  | enqueue (c : CallID)
  | scheduleSync (c : CallID)
  | leave (c : CallID)
  | fail (c : CallID)
  | newSegmentFile (p : Purpose)
  | sync (p : Purpose)
  | notify (ok : Bool) (p : Purpose)
  -- A waiter has been taken from the channel, and gets its reply.
  | send (c : CallID) (ok : Bool) (p : Purpose)
  | closeFile (p : Purpose)
  | openFile (p : Purpose)
  | closeSegment
  | close
  | tick
  | unlock
  | panic
deriving DecidableEq

-- Where the goroutine is that has been started by `scheduleSync`.
inductive Syncer
  | select
  | locking
  | locked
deriving DecidableEq

structure State where
  holder : Option Section
  syncWaiters : List CallID
  syncCount : Bool
  syncer : Option Syncer
  closing : Bool
  currentSegmentID : Nat
  writer : Option SegmentWriter
  started : List CallID
  left : List CallID
  receiving : List CallID
  replies : List (CallID × Bool)
  enqueued : List CallID
  -- The segments that the entries have been written to, and those that have been synced.
  written : List (CallID × Nat)
  durable : List (CallID × Nat)

-- How the calls of the operating system end.
structure Outcome where
  ok : Bool
  -- The flush has failed, not the sync of the file.
  flush : Bool
  size : Nat

inductive Event
  | writeToLog (c : CallID)
  | closeSegment
  | close
  | run (o : Outcome)
  | receive (c : CallID)
  -- The goroutine sees the timer or the closed channel, and gets the lock.
  | timer
  | quit
  | lock

-- The writer can still bring its entries to the disk.
def SegmentWriter.Works (w : SegmentWriter) : Prop :=
  w.broken = false ∧ w.shut = false

instance (w : SegmentWriter) : Decidable w.Works := inferInstanceAs (Decidable (_ ∧ _))

namespace State

def afterSync (s : State) : Purpose → State
  | .roll c => { s with holder := some (.closeFile (.roll c)) }
  | .closeSegment => { s with holder := some (.closeFile .closeSegment) }
  | .close => { s with holder := some .unlock, writer := none }
  | .background => { s with holder := none, syncer := some .select }

-- A new segment could not be opened.
def abort (s : State) : Purpose → State
  | .roll c => { s with holder := some (.fail c) }
  | _ => { s with holder := some .unlock }

def resume (s : State) : Purpose → State
  | .roll c => { s with holder := some (.write c) }
  | _ => { s with holder := some .unlock }

-- A failed sync of the file says nothing about the entries before it.
def syncWriter (s : State) (o : Outcome) (p : Purpose) (w : SegmentWriter) : State :=
  if o.ok ∧ w.Works then
    { s with
      holder := some (.notify true p),
      writer := some { w with unsynced := [] },
      durable := s.durable ++ w.unsynced.map (·, w.id) }
  else
    { s with
      holder := some (.notify false p),
      writer := some { w with unsynced := [], broken := w.broken || o.flush } }

def writeEntry (s : State) (o : Outcome) (c : CallID) (w : SegmentWriter) : State :=
  if o.ok ∧ w.broken = false then
    { s with
      holder := some (.enqueue c),
      writer := some { w with size := w.size + o.size, unsynced := w.unsynced ++ [c] },
      written := s.written ++ [(c, w.id)] }
  else
    { s with holder := some (.fail c), writer := some { w with broken := true } }

def closeWriter (s : State) (o : Outcome) (p : Purpose) (w : SegmentWriter) : State :=
  if o.ok ∧ w.Works then
    { s with holder := some (.openFile p), writer := some { w with shut := true } }
  else
    -- A failed flush leaves the file open.
    let broken := w.broken || o.flush
    { s with writer := some { w with broken := broken, shut := w.shut || !broken } }.abort p

-- The next step of the holder of the lock.
def runSection (s : State) (o : Outcome) : Section → State
  | .enter c =>
    { s with holder := some (if s.closing then .fail c else .rollSegment c) }
  | .rollSegment c =>
    match s.writer with
    | none => { s with holder := some (.newSegmentFile (.roll c)) }
    | some w =>
      if defaultSegmentSize < w.size then
        { s with holder := some (.newSegmentFile (.roll c)) }
      else
        { s with holder := some (.write c) }
  | .write c =>
    match s.writer with
    | none => { s with holder := some .panic }
    | some w => s.writeEntry o c w
  | .enqueue c =>
    if s.syncWaiters.length < maxWaiters then
      { s with
        holder := some (.scheduleSync c),
        syncWaiters := s.syncWaiters ++ [c],
        enqueued := s.enqueued ++ [c] }
    else
      { s with holder := some (.fail c) }
  | .scheduleSync c =>
    if s.syncCount then
      { s with holder := some (.leave c) }
    else
      { s with holder := some (.leave c), syncCount := true, syncer := some .select }
  | .leave c => { s with holder := none, left := s.left ++ [c] }
  | .fail _ => { s with holder := none }
  | .newSegmentFile p =>
    { s with
      currentSegmentID := s.currentSegmentID + 1,
      holder := some (if s.writer.isSome then .sync p else .openFile p) }
  | .sync p =>
    match s.writer with
    | none => { s with holder := some .panic }
    | some w => s.syncWriter o p w
  | .notify ok p =>
    match s.syncWaiters with
    | [] => s.afterSync p
    | c :: cs => { s with holder := some (.send c ok p), syncWaiters := cs }
  | .send c ok p =>
    { s with
      holder := some (.notify ok p),
      receiving := s.receiving.erase c,
      replies := s.replies ++ [(c, ok)] }
  | .closeFile p =>
    match s.writer with
    | none => { s with holder := some .panic }
    | some w => s.closeWriter o p w
  | .openFile p =>
    if o.ok then
      { s with
        writer := some {
          id := s.currentSegmentID, size := 0, unsynced := [], broken := false,
          shut := false } }.resume p
    else
      s.abort p
  | .closeSegment =>
    match s.writer with
    | none => { s with holder := some (.newSegmentFile .closeSegment) }
    | some w =>
      { s with
        holder := some (if 0 < w.size then .newSegmentFile .closeSegment else .unlock) }
  -- Only the first call of `Close` does something.
  | .close =>
    if s.closing then
      { s with holder := some .unlock }
    else
      { s with
        closing := true,
        holder := some (if s.writer.isSome then .sync .close else .unlock) }
  | .tick =>
    if s.syncWaiters = [] then
      { s with holder := none, syncCount := false, syncer := none }
    else
      { s with holder := some (.sync .background) }
  | .unlock => { s with holder := none }
  | .panic => s

-- A section can go on, unless it sends to a call that does not receive yet.
def CanRun (s : State) : Section → Prop
  | .send c _ _ => c ∈ s.receiving
  | .panic => False
  | _ => True

end State

open State

def step (s : State) : Event → State
  | .writeToLog c => { s with holder := some (.enter c), started := s.started ++ [c] }
  | .closeSegment => { s with holder := some .closeSegment }
  | .close => { s with holder := some .close }
  | .run o => s.holder.elim s (s.runSection o)
  | .receive c => { s with left := s.left.erase c, receiving := s.receiving ++ [c] }
  | .timer => { s with syncer := some .locking }
  | .quit => { s with syncer := none, syncCount := false }
  | .lock => { s with holder := some .tick, syncer := some .locked }

-- The steps that are possible in a state.
def Enabled (s : State) : Event → Prop
  | .writeToLog c => s.holder = none ∧ c ∉ s.started
  | .closeSegment => s.holder = none
  | .close => s.holder = none
  | .run _ => ∃ x, s.holder = some x ∧ s.CanRun x
  | .receive c => c ∈ s.left
  | .timer => s.syncer = some .select
  | .quit => s.syncer = some .select ∧ s.closing = true
  | .lock => s.holder = none ∧ s.syncer = some .locking

-- The steps that do not start a call.
def Event.Internal : Event → Prop
  | .writeToLog _ | .closeSegment | .close => False
  | _ => True

def init (writer : Option Nat) : State where
  holder := none
  syncWaiters := []
  syncCount := false
  syncer := none
  closing := false
  currentSegmentID := writer.getD 0
  writer := writer.map fun id =>
    { id, size := 0, unsynced := [], broken := false, shut := false }
  started := []
  left := []
  receiving := []
  replies := []
  enqueued := []
  written := []
  durable := []

-- Nothing happens without a new call.
def Quiet (s : State) : Prop :=
  ∀ e : Event, e.Internal → ¬Enabled s e

structure Serves (s : State) : Prop where
  -- There is at most one reply, and only to a call that has enqueued its waiter.
  once : (s.replies.map Prod.fst).Nodup ∧ ∀ r ∈ s.replies, r.1 ∈ s.enqueued
  -- The goroutines do not go on for ever without a new call.
  finite : ∃ n, ∀ es, Run.All step (fun s e => Enabled s e ∧ e.Internal) s es → es.length ≤ n
  -- All replies have been sent when nothing happens any more.
  answered : Quiet s → ∀ c ∈ s.enqueued, ∃ ok, (c, ok) ∈ s.replies
  -- A reply without an error means that the entry has been synced to its segment.
  durable : ∀ c, (c, true) ∈ s.replies →
    (∃ id, (c, id) ∈ s.written) ∧ ∀ id, (c, id) ∈ s.written → (c, id) ∈ s.durable
  -- A goroutine is going to serve a waiter, or its call is about to start one.
  scheduled : s.closing = false → s.syncWaiters ≠ [] →
    s.syncer.isSome ∨ ∃ c, s.holder = some (.scheduleSync c)
  -- Neither the holder of the lock nor a waiter is stuck.
  live : s.holder.isSome ∨ s.left ++ s.receiving ≠ [] → ¬Quiet s
  safe : s.holder ≠ some .panic

end Tsm1.GroupCommit
