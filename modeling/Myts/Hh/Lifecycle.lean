import Myts.Lib.RWMutex
import Myts.Lib.Run

-- The lock of a processor and the goroutine that sends its data.
namespace Hh.Lifecycle

inductive Method
  | open_
  | close
  | writeShard
deriving DecidableEq

inductive Phase
  | entering
  -- In `Lock`, where the readers are waited for.
  | announced
  | locked
  -- In `wg.Wait`, with the lock.
  | waiting
  | leaving
  | returned
deriving DecidableEq

structure Call where
  method : Method
  phase : Phase
deriving DecidableEq

-- Where `run` is.
inductive Sender
  | select
  | purging
  | entering
  -- In `SendWrite`, with the lock.
  | sending
  | sleeping
deriving DecidableEq

namespace Sender

-- In the loop of sends, which does not look at the channel.
def Looping : Sender → Prop
  | entering | sending | sleeping => True
  | select | purging => False

def Between (r : Sender) : Prop :=
  r = entering ∨ r = sleeping

instance : DecidablePred Between := fun _ => inferInstanceAs (Decidable (_ ∨ _))

end Sender

inductive Party
  | call (k : Nat)
  | sender
deriving DecidableEq

structure Processor where
  mu : RWMutex Party
  -- The channel, if there is one, and whether it is closed.
  done : Option Bool
  -- The group counts this goroutine.
  sender : Option Sender
  calls : Nat → Option Call

inductive Event
  | call (k : Nat) (method : Method)
  | announce (k : Nat)
  | lock (k : Nat)
  | rlock (k : Nat)
  -- What a call does under the lock. `Open` may fail after it has made the channel.
  | body (k : Nat) (ok : Bool)
  | wait (k : Nat)
  | unlock (k : Nat)
  | stop
  | purge
  | retry
  | purged
  | rlockSender
  | sent (ok : Bool)
  | wake
deriving DecidableEq

namespace Processor

def init : Processor where
  mu := .free
  done := none
  sender := none
  calls := fun _ => none

@[simps]
def setCall (s : Processor) (k : Nat) (c : Call) : Processor :=
  { s with calls := Function.update s.calls k (some c) }

def onCall (s : Processor) (k : Nat) (f : Call → Processor) : Processor :=
  match s.calls k with
  | some c => f c
  | none => s

-- A call takes the lock if the operation on the lock succeeds.
def acquire (s : Processor) (k : Nat) (c : Call) (mu : Option (RWMutex Party)) : Processor :=
  match mu with
  | some mu => { s.setCall k c with mu }
  | none => s

def body (s : Processor) (k : Nat) (ok : Bool) : Method → Processor
  | .open_ =>
    let s' := s.setCall k ⟨.open_, .leaving⟩
    if s.done.isSome then
      s'
    else if ok then
      { s' with done := some false, sender := some .select }
    else
      { s' with done := some false }
  | .close =>
    if s.done = none then
      s.setCall k ⟨.close, .leaving⟩
    else
      { s.setCall k ⟨.close, .waiting⟩ with done := some true }
  | .writeShard => s.setCall k ⟨.writeShard, .leaving⟩

def release (s : Processor) (k : Nat) : Method → RWMutex Party
  | .writeShard => s.mu.runlock (.call k)
  | .open_ | .close => s.mu.unlock

def step (s : Processor) : Event → Processor
  | .call k method => if s.calls k = none then s.setCall k ⟨method, .entering⟩ else s
  | .announce k => s.onCall k fun c =>
    if c.phase = .entering ∧ c.method ≠ .writeShard then
      s.acquire k { c with phase := .announced } (s.mu.announce (.call k))
    else
      s
  | .lock k => s.onCall k fun c =>
    if c.phase = .announced then
      s.acquire k { c with phase := .locked } (s.mu.lock (.call k))
    else
      s
  | .rlock k => s.onCall k fun c =>
    if c.phase = .entering ∧ c.method = .writeShard then
      s.acquire k { c with phase := .locked } (s.mu.rlock (.call k))
    else
      s
  | .body k ok => s.onCall k fun c => if c.phase = .locked then s.body k ok c.method else s
  | .wait k => s.onCall k fun c =>
    if c.phase = .waiting ∧ s.sender = none then
      { s.setCall k { c with phase := .leaving } with done := none }
    else
      s
  | .unlock k => s.onCall k fun c =>
    if c.phase = .leaving then
      { s.setCall k { c with phase := .returned } with mu := s.release k c.method }
    else
      s
  | .stop =>
    if s.sender = some .select ∧ s.done = some true then { s with sender := none } else s
  | .purge => if s.sender = some .select then { s with sender := some .purging } else s
  | .purged => if s.sender = some .purging then { s with sender := some .select } else s
  | .retry => if s.sender = some .select then { s with sender := some .entering } else s
  | .rlockSender =>
    match s.sender, s.mu.rlock .sender with
    | some .entering, some mu => { s with mu, sender := some .sending }
    | _, _ => s
  | .sent ok =>
    if s.sender = some .sending then
      { s with
        mu := s.mu.runlock .sender
        sender := some (if ok then .sleeping else .select) }
    else
      s
  | .wake => if s.sender = some .sleeping then { s with sender := some .entering } else s

-- `Close` waits for `run`, and `run` waits for the lock that `Close` holds.
def Deadlocked (s : Processor) : Prop :=
  ∃ k, s.calls k = some ⟨.close, .waiting⟩ ∧ s.mu.writer = some (.call k)
    ∧ s.sender = some .entering

def methodOf (s : Processor) : Party → Option Method
  | .call k => (s.calls k).map Call.method
  | .sender => none

def ClosedOut (s : Processor) : Prop :=
  s.mu.writer.bind s.methodOf = some .close

instance : DecidablePred ClosedOut := fun _ => inferInstanceAs (Decidable (_ = _))

-- `Close` gets the lock only if `run` is not between two sends, and `run` starts to send only if no
-- `Close` has the lock.
def Orderly (s : Processor) : Event → Prop
  | .lock k => s.methodOf (.call k) = some .close → ∀ r ∈ s.sender, ¬r.Between
  | .retry => ¬s.ClosedOut
  | _ => True

instance (s : Processor) : DecidablePred s.Orderly
  | .lock _ => inferInstanceAs (Decidable (_ → _))
  | .retry => inferInstanceAs (Decidable (¬_))
  | .call _ _ | .announce _ | .rlock _ | .body _ _ | .wait _ | .unlock _ | .stop | .purge | .purged
  | .rlockSender | .sent _ | .wake => inferInstanceAs (Decidable True)

end Processor
end Hh.Lifecycle
