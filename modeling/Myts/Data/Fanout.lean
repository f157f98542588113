import Myts.Data.Decode
import Myts.Lib.Goroutines

open Goroutines

namespace ShardMappings

-- The results of the calls of the remote mappings, for the goroutine that makes a call and for the
-- mapping that it is made to, and of the local one if there is one.
structure Calls (n : Nat) (α : Type) where
  remote : Fin n → Fin n → Except String α
  own : Option (Except String α)

-- What is written of a result. Errors are logged.
def written (f : α → List β) : Except String α → List β
  | .ok a => f a
  | .error _ => []

section FieldDimensions

-- The maps that are returned, by their entries in the order in which a loop comes to them.
structure Found where
  fields : List (String × Int64)
  dimensions : List String
  keys : (fields.map Prod.fst).Nodup

inductive Assignment
  | field (name : String) (type : Int64)
  | dimension (name : String)
deriving DecidableEq

structure Dimensions where
  fields : GoMap String Int64
  dimensions : Finset String

def Dimensions.assign (d : Dimensions) : Assignment → Dimensions
  | .field name type => { d with fields := d.fields.insert name type }
  | .dimension name => { d with dimensions := insert name d.dimensions }

-- The runtime ends the process if a map is written to by two goroutines at the same time.
def fieldDimensions (s : State n Assignment) : Option Dimensions :=
  if s.overlap then none else some (s.log.foldl Dimensions.assign ⟨∅, ∅⟩)

def found (c : Calls n Found) (s : State n Assignment) : Set Found :=
  { f | c.own = some (.ok f) ∨ ∃ i j, s.reads i = some j ∧ c.remote i j = .ok f }

end FieldDimensions

section CreateIterator

-- The iterator of the local mapping is used even if it is `nil`.
def createIteratorJob (c : Calls n (Option I)) : Job n (Option I) where
  loop i j := written (fun input => if input.isSome then [input] else []) (c.remote i j)
  other := c.own.elim [] (written ([·]))
  locked := true

end CreateIterator

section IteratorCost

open DataService (IteratorCost)

def iteratorCostJob (c : Calls n IteratorCost) : Job n IteratorCost where
  loop i j := written ([·]) (c.remote i j)
  other := []
  locked := true

def Calls.OwnFails (c : Calls n α) : Prop :=
  ∃ r ∈ c.own, ∃ e, r = .error e

-- The loop is not reached if the local mapping fails.
def iteratorCostRun (c : Calls n IteratorCost) (es : List (Event n)) : State n IteratorCost :=
  match c.own with
  | some (.error _) => .init
  | _ => es.foldl (State.step (iteratorCostJob c)) .init

def iteratorCost (combine : IteratorCost → IteratorCost → IteratorCost) (c : Calls n IteratorCost)
    (s : State n IteratorCost) : Except String IteratorCost :=
  let costs : IteratorCost := ⟨0, 0, 0, 0, 0, 0⟩
  match c.own with
  | some (.error e) => .error e
  | some (.ok cost) => .ok (s.log.foldl combine (combine costs cost))
  | none => .ok (s.log.foldl combine costs)

end IteratorCost

end ShardMappings

namespace RemoteShardMapping

inductive IteratorType
  | integer
  | float
deriving DecidableEq

inductive Expr
  | call (name : String)
  | other
deriving DecidableEq

-- What happens in a call: the errors of dialling and sending, and what is read as the response.
structure Conversation (I : Type) where
  dial : Option String
  send : Option String
  response : Except String DataService.CreateIteratorResponse
  reader : IteratorType → I

-- The type assertion fails for other expressions than calls.
def iteratorType : Option Expr → Go IteratorType
  | none => pure .integer
  | some (.call name) => pure (if name = "count" then .integer else .float)
  | some .other => Go.panic

-- For an error in the response the `err` of the decoder is returned, which is `nil`.
def createIterator (expr : Option Expr) (c : Conversation I) : Go I := do
  Go.ofError c.dial
  Go.ofError c.send
  let resp ← Go.ofExcept c.response
  let err : Option String := none
  if resp.err.isSome then Go.ofError err
  let t ← iteratorType expr
  pure (c.reader t)

namespace Conversation

def Answers (c : Conversation I) : Prop :=
  c.dial = none ∧ c.send = none ∧ ∃ resp, c.response = .ok resp

def Succeeds (c : Conversation I) : Prop :=
  c.dial = none ∧ c.send = none ∧ c.response = .ok { err := none }

end Conversation

end RemoteShardMapping

namespace ShardMappings

open RemoteShardMapping (Expr Conversation)

-- A goroutine that panics ends the process, so that it does not matter what it would have written.
def calls (expr : Option Expr) (conv : Fin n → Fin n → Conversation I)
    (own : Option (Except String (Option I))) : Calls n (Option I) where
  remote i j :=
    match RemoteShardMapping.createIterator expr (conv i j) with
    | .ok itr => .ok (some itr)
    | .error (.error e) => .error e
    | .error .panic     => .error ""
  own := own

def createIterator (merge : List (Option I) → Except String (Option I)) (expr : Option Expr)
    (conv : Fin n → Fin n → Conversation I) (s : State n (Option I)) : Go (Option I) :=
  if ∃ i j, s.reads i = some j ∧ ¬(RemoteShardMapping.createIterator expr (conv i j)).Safe then
    Go.panic
  else
    Go.ofExcept (merge s.log)

-- An iterator is returned only if all mappings have created theirs.
def NotPartial (merge : List (Option I) → Except String (Option I)) (expr : Option Expr)
    (conv : Fin n → Fin n → Conversation I) (own : Option (Except String (Option I)))
    (s : State n (Option I)) : Prop :=
  ∀ itr, createIterator merge expr conv s = .ok itr →
    (∀ r ∈ own, ∃ input, r = .ok input) ∧
    (∀ i j, s.reads i = some j → (conv i j).Succeeds) ∧
    ∀ j, ∃ i, s.reads i = some j

end ShardMappings
