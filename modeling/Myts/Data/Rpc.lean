import Myts.Data.Tlv
import Myts.Data.Writer

-- Requests that are sent to other nodes over pooled connections.
namespace Rpc

-- The type of the record is part of the request.
inductive Request
  | writeShard (shardID : UInt64) (database retentionPolicy : String) (points : List Bytes)
  | executeStatement (statement database : String)
deriving DecidableEq

structure Response where
  code : Int
  message : String
deriving DecidableEq

def writeShardRequestMessage       : UInt8 := 1
def writeShardResponseMessage      : UInt8 := 2
def executeStatementRequestMessage : UInt8 := 3
def createIteratorRequestMessage   : UInt8 := 5
def iteratorCostRequestMessage     : UInt8 := 7
def fieldDimensionsRequestMessage  : UInt8 := 9
def mapTypeRequestMessage          : UInt8 := 11

def Request.typ : Request → UInt8
  | writeShard _ _ _ _ => writeShardRequestMessage
  | executeStatement _ _ => executeStatementRequestMessage

-- The protocol buffers. A request is unmarshalled by the type of its record.
structure Codec where
  marshal : Request → Option Bytes
  unmarshal : UInt8 → Bytes → Except String Request
  marshalResponse : Response → Option Bytes
  unmarshalResponse : Bytes → Option Response

-- What was marshalled can be unmarshalled. The length of a slice fits into an `int`.
structure Codec.Laws (C : Codec) : Prop where
  unmarshal : ∀ {r b}, C.marshal r = some b → C.unmarshal r.typ b = .ok r
  length : ∀ {r b}, C.marshal r = some b → b.length < 2 ^ 63
  unmarshalResponse : ∀ {r b}, C.marshalResponse r = some b → C.unmarshalResponse b = some r
  lengthResponse : ∀ {r b}, C.marshalResponse r = some b → b.length < 2 ^ 63

section Peer

-- The error of a call is given by its text.
def processWriteShardRequest (shardID : UInt64) (database retentionPolicy : String) (a : Attempt) :
    Option String :=
  match a.writeToShard with
  | none => none
  | some .shardNotFound =>
    if database = "" ∨ retentionPolicy = "" then
      none
    else
      match a.createShard with
      | some e => some s!"create shard {shardID}: {e.toWriteError.text}"
      | none =>
        a.writeToShardAgain.map fun e => s!"write shard {shardID}: {e.toWriteError.text}"
  | some e              => some s!"write shard {shardID}: {e.toWriteError.text}"

-- What the store and the execution of statements do for a request.
structure Work where
  store : Attempt
  statement : Option String

def process (w : Work) : Request → Option String
  | .writeShard shardID database retentionPolicy _ =>
    processWriteShardRequest shardID database retentionPolicy w.store
  | .executeStatement _ _ => w.statement

-- `writeShardResponse`, which answers requests of both kinds.
def response : Option String → Response
  | some e => { code := 1, message := e }
  | none   => { code := 0, message := "" }

end Peer

-- A byte with the number of the call that it was written for.
abbrev Stream := List (UInt8 × Nat)

def Stream.tag (call : Nat) (b : Bytes) : Stream :=
  b.map (·, call)

def Stream.bytes (s : Stream) : Bytes :=
  s.map Prod.fst

-- What `WriteShard` and `executeOnNode` are called with.
inductive Args
  | writeShard (shardID : UInt64) (points : List Bytes)
  | executeOnNode (statement database : String)
deriving DecidableEq

inductive Kind
  | writeShard
  | executeOnNode
deriving DecidableEq

def Args.kind : Args → Kind
  | writeShard _ _ => .writeShard
  | executeOnNode _ _ => .executeOnNode

-- The request for a shard names the database and the retention policy that the shard belongs to.
def Args.request (database retentionPolicy : String) : Args → Request
  | writeShard shardID points => .writeShard shardID database retentionPolicy points
  | executeOnNode statement database => .executeStatement statement database

-- There is a pool for each node that requests of a kind are sent to.
abbrev PoolID := Kind × UInt64

inductive Owner
  | pool
  | call (k : Nat)
  | closed
deriving DecidableEq

structure Conn where
  poolID : PoolID
  owner : Owner
  toPeer : Stream
  toClient : Stream
  peerOpen : Bool
  writable : Bool

inductive Outcome
  | failed
  | unknownShard
  | answered (request : Request) (r : Response)
deriving DecidableEq

def Outcome.IsNil : Outcome → Prop
  | failed => False
  | unknownShard => True
  | answered _ r => r.code = 0

instance : DecidablePred Outcome.IsNil := fun o => by
  cases o <;> dsimp only [Outcome.IsNil] <;> infer_instance

inductive Phase
  | waiting
  | dialed (conn : Nat)
  | sent (conn : Nat) (request : Request)
  | returned (outcome : Outcome)
deriving DecidableEq

structure Call where
  args : Args
  node : UInt64
  phase : Phase
deriving DecidableEq

def Call.poolID (c : Call) : PoolID := (c.args.kind, c.node)

structure System where
  conns : Nat → Option Conn
  calls : Nat → Option Call
  -- The requests that have been processed: the call they were sent for and the result.
  handled : List (Nat × Request × Option String)

inductive Event
  | start (k : Nat) (args : Args) (node : UInt64)
  | get (k conn : Nat)
  | dial (k conn : Nat)
  | getFail (k : Nat)
  | unknownShard (k : Nat) (room : Bool)
  | send (k : Nat) (database retentionPolicy : String) (room : Bool)
  | sendFail (k : Nat) (database retentionPolicy : String) (n : Nat) (room : Bool)
  | receive (k : Nat) (room : Bool)
  | receiveFail (k n : Nat) (room : Bool)
  | handle (conn : Nat) (work : Work) (n : Nat)
  | peerClose (conn : Nat)

-- What becomes of a connection at the end of a call. The pool may have no room for it. The deferred
-- call of `Close` in `executeOnNode` has copied the connection before it could be marked as unusable.
def closeConn (kind : Kind) (unusable room : Bool) : Owner :=
  let seen :=
    match kind with
    | .writeShard => unusable
    | .executeOnNode => false
  if seen then .closed else if room then .pool else .closed

-- `writeShardResponse`. Nothing more gets through a connection after a write has failed.
def Conn.answer (C : Codec) (c : Conn) (k : Nat) (result : Option String) (n : Nat) : Conn :=
  match C.marshalResponse (response result) with
  | none => c
  | some b =>
    if c.writable then
      let frame := Stream.tag k (Tlv.writeTLV writeShardResponseMessage b)
      { c with toClient := c.toClient ++ frame.take n, writable := frame.length ≤ n }
    else
      c

namespace System

def setConn (s : System) (i : Nat) (c : Conn) : System :=
  { s with conns := Function.update s.conns i (some c) }

def setCall (s : System) (k : Nat) (c : Call) : System :=
  { s with calls := Function.update s.calls k (some c) }

def finish (s : System) (k : Nat) (call : Call) (i : Nat) (c : Conn) (unusable room : Bool)
    (o : Outcome) : System :=
  s.setConn i { c with owner := closeConn call.args.kind unusable room }
    |>.setCall k { call with phase := .returned o }

-- The peer reads a request from a connection and answers it, of which the first bytes get through.
def handle (C : Codec) (s : System) (i : Nat) (w : Work) (n : Nat) : System :=
  match s.conns i with
  | none => s
  | some c =>
    if c.peerOpen then
      match c.toPeer with
      | [] => s
      | (typ, k) :: bytes =>
        if typ = writeShardRequestMessage ∨ typ = executeStatementRequestMessage then
          match Tlv.readLV (Stream.bytes bytes) with
          | .more => s
          | .tooLarge | .negative => s.setConn i { c with peerOpen := false }
          | .ok buf l =>
            let c := { c with toPeer := bytes.drop l }
            match C.unmarshal typ buf with
            | .error e => s.setConn i (c.answer C k (some e) n)
            | .ok req =>
              { s with handled := s.handled ++ [(k, req, process w req)] }
                |>.setConn i (c.answer C k (process w req) n)
        else if typ ∈ [createIteratorRequestMessage, iteratorCostRequestMessage,
            fieldDimensionsRequestMessage, mapTypeRequestMessage] then
          s.setConn i { c with peerOpen := false }
        else
          s.setConn i { c with toPeer := bytes }
    else
      s

def peerClose (s : System) (i : Nat) : System :=
  match s.conns i with
  | none => s
  | some c => s.setConn i { c with peerOpen := false }

def start (s : System) (k : Nat) (args : Args) (node : UInt64) : System :=
  match s.calls k with
  | none => s.setCall k { args, node, phase := .waiting }
  | some _ => s

def get (s : System) (k i : Nat) : System :=
  match s.calls k, s.conns i with
  | some call, some c =>
    if call.phase = .waiting ∧ c.owner = .pool ∧ c.poolID = call.poolID then
      s.setConn i { c with owner := .call k } |>.setCall k { call with phase := .dialed i }
    else
      s
  | _, _ => s

def dial (s : System) (k i : Nat) : System :=
  match s.calls k, s.conns i with
  | some call, none =>
    if call.phase = .waiting then
      s.setConn i ⟨call.poolID, .call k, [], [], true, true⟩
        |>.setCall k { call with phase := .dialed i }
    else
      s
  | _, _ => s

def getFail (s : System) (k : Nat) : System :=
  match s.calls k with
  | none => s
  | some call =>
    if call.phase = .waiting then s.setCall k { call with phase := .returned .failed } else s

-- What a call does with the connection that it has got.
def onDialed (s : System) (k : Nat) (f : Call → Nat → Conn → System) : System :=
  match s.calls k with
  | none => s
  | some call =>
    match call.phase with
    | .dialed i =>
      match s.conns i with
      | none => s
      | some c => f call i c
    | _ => s

def unknownShard (s : System) (k : Nat) (room : Bool) : System :=
  s.onDialed k fun call i c =>
    if call.args.kind = .writeShard then s.finish k call i c false room .unknownShard else s

def send (C : Codec) (s : System) (k : Nat) (database retentionPolicy : String) (room : Bool) :
    System :=
  s.onDialed k fun call i c =>
    let request := call.args.request database retentionPolicy
    match C.marshal request with
    | none => s.finish k call i c false room .failed
    | some buf =>
      s.setConn i { c with toPeer := c.toPeer ++ Stream.tag k (Tlv.writeTLV request.typ buf) }
        |>.setCall k { call with phase := .sent i request }

def sendFail (C : Codec) (s : System) (k : Nat) (database retentionPolicy : String) (n : Nat)
    (room : Bool) : System :=
  s.onDialed k fun call i c =>
    let request := call.args.request database retentionPolicy
    match C.marshal request with
    | none => s
    | some buf =>
      let frame := Stream.tag k (Tlv.writeTLV request.typ buf)
      s.finish k call i { c with toPeer := c.toPeer ++ frame.take n } true room .failed

def onSent (s : System) (k : Nat) (f : Call → Nat → Request → Conn → System) : System :=
  match s.calls k with
  | none => s
  | some call =>
    match call.phase with
    | .sent i request =>
      match s.conns i with
      | none => s
      | some c => f call i request c
    | _ => s

-- The response has arrived. It is read as a whole even if it can not be unmarshalled.
def receive (C : Codec) (s : System) (k : Nat) (room : Bool) : System :=
  s.onSent k fun call i request c =>
    match Tlv.readTLV (Stream.bytes c.toClient) with
    | .ok (_, buf) n =>
      let c := { c with toClient := c.toClient.drop n }
      match C.unmarshalResponse buf with
      | none => s.finish k call i c false room .failed
      | some r => s.finish k call i c false room (.answered request r)
    | _ => s

-- The response is not read to its end: for a timeout, for an error or for its size.
def receiveFail (s : System) (k n : Nat) (room : Bool) : System :=
  s.onSent k fun call i _ c =>
    s.finish k call i { c with toClient := c.toClient.drop n } true room .failed

def step (C : Codec) (s : System) : Event → System
  | .start k args node => s.start k args node
  | .get k i => s.get k i
  | .dial k i => s.dial k i
  | .getFail k => s.getFail k
  | .unknownShard k room => s.unknownShard k room
  | .send k database retentionPolicy room => s.send C k database retentionPolicy room
  | .sendFail k database retentionPolicy n room => s.sendFail C k database retentionPolicy n room
  | .receive k room => s.receive C k room
  | .receiveFail k n room => s.receiveFail k n room
  | .handle i work n => s.handle C i work n
  | .peerClose i => s.peerClose i

def init : System where
  conns := fun _ => none
  calls := fun _ => none
  handled := []

-- A statement that can not be sent, or whose response can not be read, finds the pool full.
def Orderly (s : System) : Event → Prop
  | .sendFail k _ _ _ room | .receiveFail k _ room =>
    ∀ call ∈ s.calls k, call.args.kind = .executeOnNode → room = false
  | _ => True

instance (s : System) (e : Event) : Decidable (s.Orderly e) := by
  cases e <;> dsimp only [Orderly] <;> infer_instance

-- The response of a call is the one to its own request.
def Paired (s : System) (k : Nat) (call : Call) : Prop :=
  ∀ request r, call.phase = .returned (.answered request r) →
    (∃ database retentionPolicy, request = call.args.request database retentionPolicy) ∧
    ∃ result, (k, request, result) ∈ s.handled ∧ r = response result

-- A write returns `nil` only if the shard is unknown or the peer has written exactly these points.
def Written (s : System) (k : Nat) (call : Call) : Prop :=
  ∀ shardID points outcome, call.args = .writeShard shardID points →
    call.phase = .returned outcome → outcome.IsNil → outcome = .unknownShard ∨
      ∃ database retentionPolicy,
        (k, .writeShard shardID database retentionPolicy points, none) ∈ s.handled

end System

end Rpc
