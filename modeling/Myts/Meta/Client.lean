import Myts.Meta.Store

namespace Meta

open Influx (Package)

-- A meta server that is up. The channels that are closed one after another to signal changes are
-- numbered, and `dataChanged` is the one that the next entry of the log closes.
structure Server where
  data : Data
  dataChanged : Nat

namespace Server

-- The channel to wait for, if it is not closed already.
def afterIndex (s : Server) (index : UInt64) : Option Nat :=
  if index < s.data.data.index then none else some s.dataChanged

def Signals (s : Server) (ch : Option Nat) : Prop :=
  ∀ n ∈ ch, n < s.dataChanged

instance : DecidablePred (Signals s) := fun ch => inferInstanceAs (Decidable (∀ n ∈ ch, _))

def apply (I : Package) (E : Env) (l : Log) (s : Server) : Option Server :=
  (s.data.apply I E l).map fun (d, _) => { data := d, dataChanged := s.dataChanged + 1 }

-- `storeFSM.Restore` does not close the channel.
def restore (I : Package) (pb : Internal.Data) (s : Server) : Server :=
  { s with data := .unmarshal I pb }

end Server

inductive ExecError
  | redirect (host : String)
  | command (msg : String)
  | other (msg : String)
deriving DecidableEq

-- Where a call of `retryUntilExec` is. It has returned nil if the client was closed, or else when
-- the index of the answer was reached.
inductive Call
  | select (tries currentServer : Nat) (redirectServer : String)
  | posted (url : String) (tries currentServer : Nat)
  | waitForIndex (idx : UInt64)
  | blocked (idx : UInt64) (ch : Nat)
  | returned (result : Except ExecError (Option UInt64))

-- Where the goroutine is that asks for snapshots. It starts in `Open` and goes on in
-- `pollForUpdates`.
inductive Poll
  | index
  | select (idx : UInt64) (currentServer : Nat)
  | requested (idx : UInt64) (currentServer : Nat) (server : String)
  -- The handler of the server waits for a channel.
  | waiting (idx : UInt64) (currentServer : Nat) (server : String) (ch : Option Nat)
  | answered (idx : UInt64) (currentServer : Nat) (pb : Internal.Data)
  | received (data : Data)
  | stopped

structure Client where
  metaServers : List String
  tls : Bool
  changed : Nat
  closing : Bool
  opened : Bool
  cacheData : Data

def maxRetries : Nat := 10

namespace Client

def index (c : Client) : UInt64 :=
  c.cacheData.data.index

-- The servers are tried one after another, and then again from the first one. There is no first one
-- in an empty list.
def server? (c : Client) (currentServer : Nat) : Option (Nat × String) :=
  let i := if currentServer ≥ c.metaServers.length then 0 else currentServer
  c.metaServers[i]?.map fun server => (i, server)

def executeURL (c : Client) (server : String) : String :=
  (if c.tls then "https" else "http") ++ "://" ++ server ++ "/execute"

-- What `pollForUpdates` does with a snapshot under the lock.
def update (c : Client) (data : Data) : Client :=
  { c with
    cacheData := data
    changed := if c.index < data.data.index then c.changed + 1 else c.changed }

-- The loop of `retryUntilExec` after a failed attempt.
def retry (err : ExecError) (tries currentServer : Nat) : Call :=
  if tries > maxRetries then
    .returned (.error err)
  else
    match err with
    | .redirect host => .select tries currentServer host
    | .command _ => .returned (.error err)
    | .other _       => .select tries currentServer ""

end Client

structure System where
  client : Client
  poll : Poll
  calls : Nat → Option Call
  servers : String → Option Server

namespace System

inductive Event
  | poll
  -- The request for a snapshot gets to the handler of its server.
  | receive
  -- The channel that the handler waits for has been closed.
  | answer (o : StatusOrder)
  | fail
  | call (k : Nat)
  | advance (k : Nat)
  | exec (k : Nat) (r : Except ExecError UInt64)
  | setMetaServers (a : List String)
  | close
  -- A server applies the next entry of the log, or installs a snapshot of the log.
  | apply (server : String) (E : Env) (l : Log)
  | restore (server : String) (pb : Internal.Data)
  -- A server goes down, or comes up with the state that it has stored.
  | restart (server : String) (s : Option Server)

def init (metaServers : List String) (tls : Bool) (servers : String → Option Server) : System where
  client := {
    metaServers, tls
    changed := 0
    closing := false
    opened := false
    cacheData := Data.empty }
  poll := .select 0 0
  calls := fun _ => none
  servers := servers

@[simps]
def setCall (s : System) (k : Nat) (c : Call) : System :=
  { s with calls := Function.update s.calls k (some c) }

@[simps]
def setServer (s : System) (server : String) (s' : Option Server) : System :=
  { s with servers := Function.update s.servers server s' }

-- A closed client leaves `Open` with a nil pointer, which the next read of the cache follows.
def pollStep (I : Package) (s : System) : Option System :=
  match s.poll with
  | .index => some { s with poll := .select s.client.index 0 }
  | .select idx currentServer =>
    if s.client.closing then
      if s.client.opened then some { s with poll := .stopped } else none
    else
      (s.client.server? currentServer).map fun (i, server) =>
        { s with poll := .requested idx i server }
  | .answered _ _ pb => some { s with poll := .received (.unmarshal I pb) }
  | .received data =>
    if s.client.opened then
      some { s with client := s.client.update data, poll := .index }
    else
      some { s with client := { s.client with cacheData := data, opened := true }, poll := .index }
  | _ => some s

def receive (s : System) : System :=
  match s.poll with
  | .requested idx currentServer server =>
    match s.servers server with
    | some s' => { s with poll := .waiting idx currentServer server (s'.afterIndex idx) }
    | none => s
  | _ => s

def answer (I : Package) (o : StatusOrder) (s : System) : System :=
  match s.poll with
  | .waiting idx currentServer server ch =>
    match s.servers server with
    | some s' =>
      if s'.Signals ch then
        { s with poll := .answered idx currentServer (s'.data.marshal I o) }
      else
        s
    | none => s
  | _ => s

def fail (s : System) : System :=
  match s.poll with
  | .requested idx currentServer _ | .waiting idx currentServer _ _ | .answered idx currentServer _ =>
    { s with poll := .select idx (currentServer + 1) }
  | _ => s

def advance (s : System) (k : Nat) : Option System :=
  match s.calls k with
  | some (.select tries currentServer redirectServer) =>
    if s.client.closing then
      some (s.setCall k (.returned (.ok none)))
    else if redirectServer ≠ "" then
      some (s.setCall k (.posted redirectServer tries currentServer))
    else
      (s.client.server? currentServer).map fun (i, server) =>
        s.setCall k (.posted (s.client.executeURL server) tries i)
  | some (.waitForIndex idx) =>
    if idx ≤ s.client.index then
      some (s.setCall k (.returned (.ok (some idx))))
    else
      some (s.setCall k (.blocked idx s.client.changed))
  | some (.blocked idx ch) =>
    some (if ch < s.client.changed then s.setCall k (.waitForIndex idx) else s)
  | _ => some s

def exec (s : System) (k : Nat) (r : Except ExecError UInt64) : System :=
  match s.calls k with
  | some (.posted _ tries currentServer) =>
    s.setCall k <|
      match r with
      | .ok idx => .waitForIndex idx
      | .error err => Client.retry err (tries + 1) (currentServer + 1)
  | _ => s

-- A server that restarts does not answer the request that it has.
def restart (s : System) (server : String) (s' : Option Server) : System :=
  match s.poll with
  | .waiting idx currentServer server' _ =>
    if server' = server then
      { s with poll := .select idx (currentServer + 1) }.setServer server s'
    else
      s.setServer server s'
  | _ => s.setServer server s'

def apply (I : Package) (s : System) (server : String) (E : Env) (l : Log) : System :=
  match s.servers server with
  | some s' => if s'.data.data.index < l.index then s.setServer server (s'.apply I E l) else s
  | none => s

def restore (I : Package) (s : System) (server : String) (pb : Internal.Data) : System :=
  match s.servers server with
  | some s' => if s'.data.data.index < pb.index then s.setServer server (s'.restore I pb) else s
  | none => s

-- The process of the client does not survive a panic.
def step (I : Package) (s : Option System) (e : Event) : Option System :=
  s.bind fun s =>
    match e with
    | .poll => s.pollStep I
    | .receive => some s.receive
    | .answer o => some (s.answer I o)
    | .fail => some s.fail
    | .call k =>
      some (if s.client.opened ∧ (s.calls k).isNone then s.setCall k (.select 0 0 "") else s)
    | .advance k => s.advance k
    | .exec k r => some (s.exec k r)
    | .setMetaServers a => some { s with client.metaServers := a }
    | .close => some { s with client.closing := true }
    | .apply server E l => some (s.apply I server E l)
    | .restore server pb => some (s.restore I server pb)
    | .restart server s' => some (s.restart server s')

-- The server that the request for a snapshot has been sent to.
def requested? (s : System) : Option Server :=
  match s.poll with
  | .requested _ _ server => s.servers server
  | _ => none

-- A request does not get to a server that is behind the client.
def Fresh (s : Option System) : Event → Prop
  | .receive => ∀ s' ∈ s, ∀ srv ∈ s'.requested?, s'.client.index ≤ srv.data.data.index
  | _ => True

instance : Decidable (Fresh s e) := by
  cases e <;> dsimp only [Fresh] <;> infer_instance

end System
end Meta
