import Myts.Meta.Client

namespace Meta.Client

-- `Client.DataNode` reports a node that is not there by an error.
def dataNode (c : Client) (id : UInt64) : Option Influx.NodeInfo × Option Error :=
  match c.cacheData.dataNodes.find? (·.id == id) with
  | some n => (some n, none)
  | none => (none, some .nodeNotFound)

end Meta.Client

namespace Hh

-- What the service looks up in the metastore.
abbrev MetaClient := UInt64 → Option Influx.NodeInfo × Option Meta.Error

-- A processor as the service sees it: whether it is open, whether there is its directory, and what
-- its queue and its directory answer.
structure Processor where
  nodeID : UInt64
  isOpen : Bool
  onDisk : Bool
  lastModified : Except String GoTime
  closeError : Option String
  removeError : Option String
deriving DecidableEq

namespace Processor

def active (client : MetaClient) (p : Processor) : Except Meta.Error Bool :=
  match client p.nodeID with
  | (_, some err) => .error err
  | (node?, none) => .ok node?.isSome

-- The processor counts as closed even if its queue can not be closed.
def close (p : Processor) : Processor × Option String :=
  if p.isOpen then ({ p with isOpen := false }, p.closeError) else (p, none)

def purge (p : Processor) : Processor × Option String :=
  if p.isOpen then
    (p, some "node processor is open")
  else
    match p.removeError with
    | some err => (p, some err)
    | none => ({ p with onDisk := false }, none)

end Processor

-- The processors of the service, and those that it has removed as they were then.
structure Service where
  processors : GoMap UInt64 Processor
  removed : GoMap UInt64 Processor

namespace Service

-- The processor is changed in place.
def set (s : Service) (k : UInt64) (p : Processor) : Service :=
  { s with processors := s.processors.insert k p }

def remove (s : Service) (k : UInt64) (p : Processor) : Service where
  processors := s.processors.erase k
  removed := s.removed.insert k p

def closeAndPurge (s : Service) (k : UInt64) (p : Processor) : Service :=
  match p.close with
  | (p, some _) => s.set k p
  | (p, none) =>
    match p.purge with
    | (p, some _) => s.set k p
    | (p, none) => s.remove k p

variable (client : MetaClient) (now : UInt64 → GoTime) (maxAge : Int)

-- One round of the loop over the processors. The clock is read for each of them.
def visit (s : Service) (k : UInt64) : Service :=
  match s.processors.lookup k with
  | none => s
  | some p =>
    match p.lastModified with
    | .error _ => s
    | .ok lm =>
      match p.active client with
      | .error _ => s
      | .ok active =>
        if active then
          s
        else if ¬lm < now k - maxAge then
          s
        else
          s.closeAndPurge k p

-- What `purgeInactiveProcessors` does at a tick.
def purgeInactiveProcessors (order : List UInt64) (s : Service) : Service :=
  order.foldl (visit client now maxAge) s

-- There is no such node any more, and its data is old.
structure Expired (nodes : List Influx.NodeInfo) (before : GoTime) (p : Processor) : Prop where
  absent : ∀ n ∈ nodes, n.id ≠ p.nodeID
  old : ∃ lm, p.lastModified = .ok lm ∧ lm < before

-- The processors that have expired are gone, closed and without their data, and all others are as
-- they were.
structure Purged (nodes : List Influx.NodeInfo) (s s' : Service) : Prop where
  expired : ∀ {k p}, s.processors.lookup k = some p → Expired nodes (now k - maxAge) p →
    s'.processors.lookup k = none
      ∧ s'.removed.lookup k = some { p with isOpen := false, onDisk := false }
  untouched : ∀ {k}, (∀ p ∈ s.processors.lookup k, ¬Expired nodes (now k - maxAge) p) →
    s'.processors.lookup k = s.processors.lookup k ∧ s'.removed.lookup k = s.removed.lookup k

def NoneExpired (nodes : List Influx.NodeInfo) (s : Service) : Prop :=
  ∀ k ∈ s.processors.keys, ∀ p ∈ s.processors.lookup k, ¬Expired nodes (now k - maxAge) p

end Service
end Hh
