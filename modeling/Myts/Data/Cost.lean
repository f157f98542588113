import Myts.Data.Fanout
import Myts.Data.HandleConn

namespace DataService

-- `IteratorCost.Combine` as it is documented.
def IteratorCost.add (c other : IteratorCost) : IteratorCost where
  numShards := c.numShards + other.numShards
  numSeries := c.numSeries + other.numSeries
  cachedValues := c.cachedValues + other.cachedValues
  numFiles := c.numFiles + other.numFiles
  blocksRead := c.blocksRead + other.blocksRead
  blockSize := c.blockSize + other.blockSize

variable {X : External}

-- The measurements that a request is about.
def denoted (sg : ShardGroup X) (m : Measurement X.Regex) : List String :=
  match m.regex with
  | some regex => sg.measurementsByRegex regex
  | none => [m.name]

section Denoted

variable (sg : ShardGroup X) (req : IteratorCostRequest X)

def costs : List IteratorCost :=
  (denoted sg req.measurement).map fun name => (sg.iteratorCost name req.iteratorOptions).1

def total (X : External) (costs : List IteratorCost) : IteratorCost :=
  costs.foldl X.combine noCost

def CostFails : Prop :=
  ∃ name ∈ denoted sg req.measurement, (sg.iteratorCost name req.iteratorOptions).2.isSome

-- The response is about the measurements that the request is about.
structure CostExact (resp : IteratorCostResponse) : Prop where
  error : resp.error ≠ "" ↔ CostFails sg req
  cost  : resp.error = "" → resp.iteratorCost = total X (costs sg req)

-- The cost of the measurement that has the name that is given along with a pattern.
def nameCost : IteratorCost × Option String :=
  sg.iteratorCost req.measurement.name req.iteratorOptions

-- There is no pattern, or one of the measurements that it matches fails, or else the measurement of
-- the given name costs as much as all of those.
def CostKept : Prop :=
  req.measurement.regex = none ∨ CostFails sg req ∨
    (nameCost sg req).2 = none ∧ (nameCost sg req).1 = total X (costs sg req)

end Denoted

-- The text of an error is not empty.
def ShardGroup.Telling (sg : ShardGroup X) : Prop :=
  ∀ name opt, ∀ e ∈ (sg.iteratorCost name opt).2, e ≠ ""

end DataService

namespace RemoteShardMapping

open DataService (IteratorCost IteratorCostResponse noCost)

-- What happens in a call, and the shards of the node for the database and the retention policy.
structure CostConversation where
  dial : Option String
  shards : Option (List UInt64)
  send : Option String
  response : Except String IteratorCostResponse

def iteratorCost (c : CostConversation) : Except String IteratorCost :=
  match c.dial with
  | some e => .error e
  | none =>
    match c.shards with
    | none => .ok noCost
    | some _ =>
      match c.send with
      | some e => .error e
      | none =>
        match c.response with
        | .error e => .error e
        | .ok resp => if resp.error ≠ "" then .error resp.error else .ok resp.iteratorCost

end RemoteShardMapping

namespace ShardMappings

open DataService (External IteratorCost noCost total)
open RemoteShardMapping (CostConversation)
open Goroutines

def costCalls (conv : Fin n → Fin n → CostConversation)
    (own : Option (Except String IteratorCost)) : Calls n IteratorCost where
  remote i j := RemoteShardMapping.iteratorCost (conv i j)
  own := own

-- No call fails: each mapping tells its cost to the goroutine that asks for it.
structure Told (c : Calls n IteratorCost) (own : Option IteratorCost)
    (costs : Fin n → IteratorCost) : Prop where
  own : c.own = own.map .ok
  remote : ∀ i j, c.remote i j = .ok (costs j)

def costSchedule (conv : Fin n → Fin n → CostConversation) (es : List (Event n)) :
    State n IteratorCost :=
  es.foldl (State.step (iteratorCostJob (costCalls conv none))) .init

-- The loop has waited for its goroutines, whatever they are told.
def Returns (es : List (Event n)) : Prop :=
  ∀ conv : Fin n → Fin n → CostConversation,
    (costSchedule conv es).Finished (iteratorCostJob (costCalls conv none))

-- The result is the cost of the local mapping and of each remote one, whatever they cost.
def CostsCombined (X : External) (es : List (Event n)) : Prop :=
  ∀ conv own own' costs, Told (costCalls conv own) own' costs →
    iteratorCost X.combine (costCalls conv own) (iteratorCostRun (costCalls conv own) es) =
      .ok (total X (own'.toList ++ (List.finRange n).map costs))

def idle (_ _ : Fin n) : CostConversation where
  dial := none
  shards := none
  send := none
  response := .error ""

def PromptSchedule (es : List (Event n)) : Prop :=
  Run.All (State.step (iteratorCostJob (costCalls idle none))) State.Prompt .init es

end ShardMappings
