import Myts.Data.Decode
import Myts.Data.Rpc

namespace DataService

section Reading

-- The error of a read that gets `n` bytes and not all that it was made for.
def readError (n : Nat) : String :=
  if n = 0 then "EOF" else "unexpected EOF"

def readType : Bytes → Go (UInt8 × Bytes)
  | []       => Go.fail s!"read message type: {readError 0}"
  | typ :: b => pure (typ, b)

-- The value and what follows it.
def readLV (b : Bytes) : Go (Bytes × Bytes) :=
  match Tlv.readLV b with
  | .ok buf n => pure (buf, b.drop n)
  | .negative => Go.panic
  | .tooLarge =>
    let sz := Bytes.uint64 (b.take 8)
    Go.fail s!"max message size of {Tlv.maxMessageSize} exceeded: {sz}"
  | .more =>
    if b.length < 8 then
      Go.fail s!"read message size: {readError b.length}"
    else
      Go.fail s!"read message value: {readError (b.length - 8)}"

def decodeLV (unmarshalBinary : Bytes → Go α) (b : Bytes) : Go α := do
  let (buf, _) ← readLV b
  unmarshalBinary buf

def decodeTLV (unmarshalBinary : Bytes → Go α) (b : Bytes) : Go (UInt8 × α) := do
  let (typ, b) ← readType b
  let v ← decodeLV unmarshalBinary b
  pure (typ, v)

end Reading

variable (X : External)

structure ShardGroup where
  createIterator : Option (Measurement X.Regex) →
                        IteratorOptions X.Regex X.Expr X.Location →
                        Except String (Option X.Iterator)
  fieldDimensions : List String → Except String (GoMap String Int64 × Finset String)
  mapType : String → String → Int64
  measurementsByRegex : X.Regex → List String
  -- A cost is returned along with an error.
  iteratorCost : String → IteratorOptions X.Regex X.Expr X.Location →
                        IteratorCost × Option String

structure TSDBStore where
  write : UInt64 → List X.Point → Attempt
  deleteDatabase : String → Option String
  deleteMeasurement : String → String → Option String
  deleteSeries : String → List (Measurement X.Regex) → Option X.Expr → Option String
  deleteRetentionPolicy : String → String → Option String
  shardGroup : List UInt64 → Option (ShardGroup X)
  -- A group of shards may be empty, it is never `nil`.
  isSome_shardGroup : ∀ ids, (shardGroup ids).isSome

variable {X} (S : TSDBStore X)

def processWriteShardRequest (buf : Bytes) : Go Unit := do
  let req ← unmarshal X.writeShardRequest buf
  let points ← unmarshalPoints X req.points
  let shardID := req.shardID.getD 0
  Go.ofError <| Rpc.processWriteShardRequest shardID (req.database.getD "")
    (req.retentionPolicy.getD "") (S.write shardID points)

def executeStatement (database : String) : Statement X.Regex X.Expr → Option String
  | .dropDatabase name => S.deleteDatabase name
  | .dropMeasurement name => S.deleteMeasurement database name
  | .dropSeries sources condition => S.deleteSeries database sources condition
  | .dropRetentionPolicy name => S.deleteRetentionPolicy database name
  | .other text =>
    some s!"{text.quote} should not be executed across a cluster"

def processExecuteStatementRequest (buf : Bytes) : Go Unit := do
  let req ← unmarshal X.executeStatementRequest buf
  let stmt ← Go.ofExcept (X.parseStatement (req.statement.getD ""))
  Go.ofError <| executeStatement S (req.database.getD "") stmt

-- The iterator is still `nil` when it is closed because of an error.
def processCreateIteratorRequest (b : Bytes) : Go (CreateIteratorResponse × Option X.Iterator) :=
  let created : Go (Option X.Iterator) := do
    let req ← decodeLV (CreateIteratorRequest.unmarshalBinary X) b
    let sg ← Go.deref (S.shardGroup req.shardIDs)
    Go.ofExcept (sg.createIterator req.measurement req.opt)
  match created with
  | .ok itr => pure ({ err := none }, itr)
  | .error .panic => Go.panic
  | .error (.error e) => do
    let itr : Option X.Iterator := none
    let _ ← Go.deref itr
    pure ({ err := some e }, none)

-- The response to a request, or to the error that it could not be answered for.
def orElse (x : Go α) (respond : String → α) : Go α :=
  match x with
  | .error (.error e) => pure (respond e)
  | x => x

def processFieldDimensionsRequest (b : Bytes) : Go FieldDimensionsResponse :=
  let found : Go FieldDimensionsResponse := do
    let req ← decodeLV (FieldDimensionsRequest.unmarshalBinary X) b
    let sg ← Go.deref (S.shardGroup req.shardIDs)
    let (fields, dimensions) ← Go.ofExcept (sg.fieldDimensions [req.measurement])
    pure { fields, dimensions, err := none }
  orElse found fun e => { fields := ∅, dimensions := ∅, err := some e }

def unknown : Int64 := 0

def processMapTypeRequest (b : Bytes) : Go MapTypeResponse :=
  let found : Go MapTypeResponse := do
    let req ← decodeLV (MapTypeRequest.unmarshalBinary X) b
    let sg ← Go.deref (S.shardGroup req.shardIDs)
    let t := sg.mapType req.measurement req.field
    pure { type := if X.lessThan unknown t then t else unknown, err := none }
  orElse found fun e => { type := 0, err := some e }

def noCost : IteratorCost := ⟨0, 0, 0, 0, 0, 0⟩

def patternCost (sg : ShardGroup X) (opt : IteratorOptions X.Regex X.Expr X.Location) :
    Option X.Regex → Except String IteratorCost
  | none => .ok noCost
  | some regex => (sg.measurementsByRegex regex).foldlM (fun costs measurement =>
    match sg.iteratorCost measurement opt with
    | (c, none) => .ok (X.combine costs c)
    | (_, some e) => .error e) noCost

-- The cost for the name takes the place of the cost for the pattern.
def processIteratorCostRequest (b : Bytes) : Go IteratorCostResponse :=
  let found : Go IteratorCostResponse := do
    let req ← decodeLV (IteratorCostRequest.unmarshalBinary X) b
    match S.shardGroup req.shardIDs with
    | none    => pure { error := "", iteratorCost := noCost }
    | some sg =>
      let _ ← Go.ofExcept (patternCost sg req.iteratorOptions req.measurement.regex)
      let (cost, err) := sg.iteratorCost req.measurement.name req.iteratorOptions
      pure { error := err.getD "", iteratorCost := cost }
  orElse found fun e => { error := e, iteratorCost := noCost }

section Connection

inductive Handled
  | returned
  | panicked
  | running
deriving DecidableEq

def Handled.of : Go α → Handled
  | .error .panic => panicked
  | _ => returned

-- A request that is read as a whole and that others may follow.
def handleNext (read : Go (Bytes × Bytes)) (process : Bytes → Go Unit)
    (following : Bytes → Handled) : Handled :=
  match read with
  | .error .panic => .panicked
  | .error (.error _) => .returned
  | .ok (buf, b) =>
    match process buf with
    | .error .panic => .panicked
    | _ => following b

-- The store may be another one for each message.
def handleConn (S : Nat → TSDBStore X) : Nat → Nat → Bytes → Handled
  | _, 0, _ => .running
  | i, k + 1, b =>
    match readType b with
    | .error _ => .returned
    | .ok (typ, b') =>
      if typ = Rpc.writeShardRequestMessage then
        handleNext (readLV b') (processWriteShardRequest (S i)) (handleConn S (i + 1) k)
      else if typ = Rpc.executeStatementRequestMessage then
        handleNext (readLV b') (processExecuteStatementRequest (S i)) (handleConn S (i + 1) k)
      else if typ = Rpc.createIteratorRequestMessage then
        .of (processCreateIteratorRequest (S i) b')
      else if typ = Rpc.fieldDimensionsRequestMessage then
        .of (processFieldDimensionsRequest (S i) b')
      else if typ = Rpc.mapTypeRequestMessage then
        .of (processMapTypeRequest (S i) b')
      else if typ = Rpc.iteratorCostRequestMessage then
        .of (processIteratorCostRequest (S i) b')
      else
        handleConn S i k b'

structure Request where
  index : Nat
  typ : UInt8
  bytes : Bytes

-- The requests in the first messages of a stream. Most of them are the last one on a connection.
def requestsIn : Nat → Nat → Bytes → List Request
  | _, 0, _ => []
  | _, _ + 1, [] => []
  | i, k + 1, typ :: b =>
    if typ = Rpc.writeShardRequestMessage ∨ typ = Rpc.executeStatementRequestMessage then
      match Tlv.readLV b with
      | .ok _ n => ⟨i, typ, b⟩ :: requestsIn (i + 1) k (b.drop n)
      | _ => [⟨i, typ, b⟩]
    else if typ ∈ [Rpc.createIteratorRequestMessage, Rpc.fieldDimensionsRequestMessage,
        Rpc.mapTypeRequestMessage, Rpc.iteratorCostRequestMessage] then
      [⟨i, typ, b⟩]
    else
      requestsIn i k b

def requests (b : Bytes) : List Request :=
  requestsIn 0 (b.length + 1) b

end Connection

section Harmless

-- The size of a value is read as a signed integer.
def NegativeSize (b : Bytes) : Prop :=
  8 ≤ b.length ∧ 2 ^ 63 ≤ Bytes.uint64 (b.take 8)

instance : DecidablePred NegativeSize :=
  fun _ => inferInstanceAs (Decidable (_ ∧ _))

-- All points of a request to write can be parsed.
def Parses (X : External) (b : Bytes) : Prop :=
  ∀ buf n req, Tlv.readLV b = .ok buf n → X.writeShardRequest.run buf = .ok req →
    ∀ p ∈ req.points, ∃ pt, X.newPointFromBytes p = .ok pt

-- A request for an iterator can be decoded and the store creates the iterator.
structure Creates (S : TSDBStore X) (b : Bytes) (pb : Internal.CreateIteratorRequest)
    (opt : IteratorOptions X.Regex X.Expr X.Location) (mm : Internal.Measurement) : Prop where
  read : ∃ buf n, Tlv.readLV b = .ok buf n ∧ X.createIteratorRequest.run buf = .ok pb
  options : X.iteratorOptions (pb.opt.getD []) = .ok opt
  measurement : X.measurement.run (pb.measurement.getD []) = .ok mm
  store : ∃ sg ∈ S.shardGroup pb.shardIDs, ∃ itr,
                sg.createIterator (decodeMeasurement X (some mm)).toOption opt = .ok itr

structure Harmless (S : Nat → TSDBStore X) (r : Request) : Prop where
  size : ¬NegativeSize r.bytes
  points : r.typ = Rpc.writeShardRequestMessage → Parses X r.bytes
  create : r.typ = Rpc.createIteratorRequestMessage →
           ∃ pb opt mm, Creates (S r.index) r.bytes pb opt mm

-- A response can be decoded, or there is an error, whatever response it is taken for.
structure Decodes (X : External) (b : Bytes) : Prop where
  writeShard : (decodeTLV (unmarshal X.writeShardResponse) b).Safe
  createIterator : (decodeTLV (CreateIteratorResponse.unmarshalBinary X) b).Safe
  fieldDimensions : (decodeTLV (FieldDimensionsResponse.unmarshalBinary X) b).Safe
  mapType : (decodeTLV (MapTypeResponse.unmarshalBinary X) b).Safe
  iteratorCost : (decodeTLV (IteratorCostResponse.unmarshalBinary X) b).Safe

end Harmless

end DataService
