import Myts.Data.Rpc
import Myts.Lib.WaitGroup

open Influx (NodeInfo)
open WaitGroup

-- Statements that are executed on all nodes of the cluster.
namespace MetaExecutor

-- What happens in a call of `executeOnNode`: the errors of its steps and the response that is read.
-- A connection that is dialled comes from a pool.
structure Conversation where
  dial : Option String
  marshal : Option String
  write : Option String
  read : Option String
  unmarshal : Except String Rpc.Response

def executeOnNode (c : Conversation) : Except String Unit := do
  check c.dial
  check c.marshal
  check c.write
  check c.read
  let response ← c.unmarshal
  if response.code ≠ 0 then
    throw s!"error code {response.code}: {response.message}"
where
  check : Option String → Except String Unit
    | some err => throw err
    | none => pure ()

structure RemoteNodeError where
  id : UInt64
  err : String
deriving DecidableEq

def RemoteNodeError.error (e : RemoteNodeError) : String :=
  s!"partial success, node {e.id} may be down ({e.err})"

-- What a call of `ExecuteStatement` meets: the id of this node, the nodes that the metastore returns,
-- and the conversations with them by their positions.
structure Execution where
  nodeID : UInt64
  dataNodes : Except String (List NodeInfo)
  conversation : Nat → Conversation

namespace Execution

variable (x : Execution)

def nodes : List NodeInfo :=
  match x.dataNodes with
  | .ok nodes => nodes
  | .error _ => []

def remotes : List (NodeInfo × Nat) :=
  x.nodes.zipIdx.filter (·.1.id ≠ x.nodeID)

def failure (remote : NodeInfo × Nat) : Option RemoteNodeError :=
  match executeOnNode (x.conversation remote.2) with
  | .ok () => none
  | .error err => some { id := remote.1.id, err }

def job : Job x.remotes.length RemoteNodeError where
  sends i := x.failure (x.remotes.get i)
  cap := x.nodes.length - 1

def after (es : List (Event x.remotes.length)) : State x.remotes.length RemoteNodeError :=
  es.foldl (State.step x.job) .init

def executeStatement (es : List (Event x.remotes.length)) : Option (Option String) :=
  match x.dataNodes with
  | .error err => some (some err)
  | .ok [] => some none
  | .ok _ => (x.after es).returned.map (·.map RemoteNodeError.error)

-- The call returns in the end, no goroutine ever waits for room in the channel, and an error is not
-- forgotten.
structure Sound : Prop where
  returns : x.nodes ≠ [] → Inevitable (State.step x.job) State.Returned .init
  unblocked : ∀ es, ¬(x.after es).Blocked x.job
  reports : ∀ es, x.executeStatement es = some none →
    ∀ remote ∈ x.remotes, executeOnNode (x.conversation remote.2) = .ok ()

-- There is this node among the nodes, or one that executes the statement.
def LeavesRoom : Prop :=
  x.nodes = [] ∨ (∃ node ∈ x.nodes, node.id = x.nodeID) ∨
    ∃ remote ∈ x.remotes, executeOnNode (x.conversation remote.2) = .ok ()

end Execution
end MetaExecutor
