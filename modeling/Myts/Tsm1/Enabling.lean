import Myts.Lib.Run

-- How compactions are enabled and disabled, by the sections of the code that hold the lock of the
-- engine.
namespace Tsm1.Enabling

-- Where a call is. The `quit` of a phase is a channel that a goroutine is about to be started with.
inductive Phase
  -- `SetCompactionsEnabled(true)`
  | snapCheck
  | snapLock
  | snapStart (quit : Nat)
  | levelCheck
  | levelLock
  | levelStart (quit : Nat)
  -- `SetCompactionsEnabled(false)`, by itself or at the beginning of `Close`
  | snapDisable (closing : Bool)
  | snapWait (closing : Bool)
  | levelDisable (closing : Bool)
  | levelWait (closing : Bool)
  | closeLock
  -- `DeleteSeriesRange`, from `disableLevelCompactions(true)` to `enableLevelCompactions(true)`
  | deleteDisable
  | deleteWait
  | deleteBody
  | deleteStart (quit : Nat)
  | returned
deriving DecidableEq

namespace Phase

def Deleting : Phase → Prop
  | deleteWait | deleteBody => True
  | _ => False

-- The goroutine is already counted by `wg`.
def Starting : Phase → Prop
  | levelStart _ | deleteStart _ => True
  | _ => False

instance : DecidablePred Deleting := fun p => by
  cases p <;> dsimp only [Deleting] <;> infer_instance

instance : DecidablePred Starting := fun p => by
  cases p <;> dsimp only [Starting] <;> infer_instance

end Phase

inductive Method
  | setCompactionsEnabled (enabled : Bool)
  | close
  | deleteSeriesRange
deriving DecidableEq

def Method.first : Method → Phase
  | setCompactionsEnabled true => .snapCheck
  | setCompactionsEnabled false => .snapDisable false
  | close => .snapDisable true
  | deleteSeriesRange => .deleteDisable

structure Engine where
  done : Option Nat
  snapDone : Option Nat
  levelWorkers : Int
  wg : Nat
  snapWG : Nat
  channels : Nat
  closed : List Nat
  -- The channels of the running `compact`, the compactions that they have started, and the channels
  -- of the running `compactCache`.
  loops : List Nat
  workers : Nat
  snapLoops : List Nat
  calls : List Phase
  -- The argument of the call of `SetCompactionsEnabled` that was the last one to return.
  last : Option Bool
deriving DecidableEq

namespace Engine

def init : Engine where
  done := none
  snapDone := none
  levelWorkers := 0
  wg := 0
  snapWG := 0
  channels := 0
  closed := []
  loops := []
  workers := 0
  snapLoops := []
  calls := []
  last := none

-- `close(e.done)` and `e.done = nil`
def closeDone (e : Engine) : Engine :=
  { e with closed := e.closed ++ e.done.toList, done := none }

def closeSnapDone (e : Engine) : Engine :=
  { e with closed := e.closed ++ e.snapDone.toList, snapDone := none }

def makeDone (e : Engine) : Engine :=
  { e with done := some e.channels, channels := e.channels + 1, wg := e.wg + 1 }

def makeSnapDone (e : Engine) : Engine :=
  { e with snapDone := some e.channels, channels := e.channels + 1, snapWG := e.snapWG + 1 }

-- The locked section of `disableLevelCompactions`. Only the first one closes the channel.
def disable (e : Engine) : Engine :=
  if e.levelWorkers = 0 ∧ e.done ≠ none then e.closeDone else e

-- What a call does next, unless it has to wait.
def advance (e : Engine) : Phase → Option (Engine × Phase)
  | .snapCheck => some (e, if e.snapDone ≠ none then .levelCheck else .snapLock)
  | .snapLock =>
    if e.snapDone ≠ none then some (e, .levelCheck)
    else some (e.makeSnapDone, .snapStart e.channels)
  | .snapStart quit => some ({ e with snapLoops := quit :: e.snapLoops }, .levelCheck)
  | .levelCheck =>
    if e.done ≠ none then some ({ e with last := some true }, .returned)
    else some (e, .levelLock)
  | .levelLock =>
    if e.levelWorkers ≠ 0 ∨ e.done ≠ none then some ({ e with last := some true }, .returned)
    else some (e.makeDone, .levelStart e.channels)
  | .levelStart quit => some ({ e with loops := quit :: e.loops, last := some true }, .returned)
  | .snapDisable closing => some (e.closeSnapDone, .snapWait closing)
  | .snapWait closing => if e.snapWG = 0 then some (e, .levelDisable closing) else none
  | .levelDisable closing => some (e.disable, .levelWait closing)
  | .levelWait closing =>
    if e.wg = 0 then
      some ({ e with last := some false }, if closing then .closeLock else .returned)
    else
      none
  | .closeLock => some ({ e with done := none }, .returned)
  | .deleteDisable => some ({ e.disable with levelWorkers := e.levelWorkers + 1 }, .deleteWait)
  | .deleteWait => if e.wg = 0 then some (e, .deleteBody) else none
  | .deleteBody =>
    let e := { e with levelWorkers := e.levelWorkers - 1 }
    if e.levelWorkers ≠ 0 ∨ e.done ≠ none then some (e, .returned)
    else some (e.makeDone, .deleteStart e.channels)
  | .deleteStart quit => some ({ e with loops := quit :: e.loops }, .returned)
  | .returned => none

inductive Event
  | call (m : Method)
  | advance (k : Nat)
  | start (quit : Nat)
  | finish
  -- `compact` and `compactCache` return if their channel is closed.
  | exit (quit : Nat)
  | snapExit (quit : Nat)
deriving DecidableEq

def step (e : Engine) : Event → Engine
  | .call m => { e with calls := e.calls ++ [m.first] }
  | .advance k =>
    match e.calls[k]? with
    | none => e
    | some p =>
      match e.advance p with
      | none => e
      | some (e', q) => { e' with calls := e.calls.set k q }
  | .start quit =>
    if quit ∈ e.loops then { e with workers := e.workers + 1, wg := e.wg + 1 } else e
  | .finish =>
    if 0 < e.workers then { e with workers := e.workers - 1, wg := e.wg - 1 } else e
  | .exit quit =>
    if quit ∈ e.loops ∧ quit ∈ e.closed then
      { e with loops := e.loops.erase quit, wg := e.wg - 1 }
    else
      e
  | .snapExit quit =>
    if quit ∈ e.snapLoops ∧ quit ∈ e.closed then
      { e with snapLoops := e.snapLoops.erase quit, snapWG := e.snapWG - 1 }
    else
      e

def Running (e : Engine) : Prop :=
  e.loops ≠ [] ∨ e.workers ≠ 0

instance : DecidablePred Running :=
  fun _ => inferInstanceAs (Decidable (_ ∨ _))

structure Allowed (e : Engine) : Prop where
  running : e.Running → e.last = some true ∧ .deleteBody ∉ e.calls
  workers : e.levelWorkers = e.calls.countP (·.Deleting)
  once : e.closed.Nodup

-- The last one of several deletes ends at a time at which compactions are enabled.
def Respects (e : Engine) : Event → Prop
  | .advance k => e.calls[k]? = some .deleteBody → e.levelWorkers = 1 → e.last = some true
  | _ => True

instance (e : Engine) (i : Event) : Decidable (e.Respects i) := by
  cases i <;> dsimp only [Respects] <;> infer_instance

end Engine
end Tsm1.Enabling
