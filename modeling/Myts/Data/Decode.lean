import Myts.Data.Message

namespace DataService

structure Measurement (Regex : Type) where
  database : String
  retentionPolicy : String
  name : String
  regex : Option Regex
  isTarget : Bool
  systemIterator : String

structure Interval where
  duration : Int64
  offset : Int64

structure VarRef where
  val : String
  type : Int32

structure IteratorOptions (Regex Expr Location : Type) where
  expr : Option Expr
  aux : List VarRef
  sources : List (Measurement Regex)
  interval : Interval
  dimensions : List String
  groupBy : Option (Finset String)
  fill : Int32
  fillValue : Option UInt64
  condition : Option Expr
  startTime : Int64
  endTime : Int64
  location : Option Location
  ascending : Bool
  limit : Int64
  offset : Int64
  sLimit : Int64
  sOffset : Int64
  stripName : Bool
  dedupe : Bool
  maxSeriesN : Int64
  ordered : Bool

structure IteratorCost where
  numShards : Int64
  numSeries : Int64
  cachedValues : Int64
  numFiles : Int64
  blocksRead : Int64
  blockSize : Int64

-- The statements that are executed across the cluster, and the text of any other.
inductive Statement (Regex Expr : Type)
  | dropDatabase (name : String)
  | dropMeasurement (name : String)
  | dropSeries (sources : List (Measurement Regex)) (condition : Option Expr)
  | dropRetentionPolicy (name : String)
  | other (text : String)

-- The libraries that the messages are decoded with.
structure External where
  Point : Type
  Regex : Type
  Expr : Type
  Location : Type
  Iterator : Type
  newPointFromBytes : Bytes → Except String Point
  compile : String → Except String Regex
  parseExpr : String → Except String Expr
  loadLocation : String → Except String Location
  parseStatement : String → Except String (Statement Regex Expr)
  iteratorOptions : Bytes → Except String (IteratorOptions Regex Expr Location)
  lessThan : Int64 → Int64 → Bool
  combine : IteratorCost → IteratorCost → IteratorCost
  writeShardRequest : Internal.Unmarshal Internal.WriteShardRequest
  writeShardResponse : Internal.Unmarshal Internal.WriteShardResponse
  executeStatementRequest : Internal.Unmarshal Internal.ExecuteStatementRequest
  createIteratorRequest : Internal.Unmarshal Internal.CreateIteratorRequest
  createIteratorResponse : Internal.Unmarshal Internal.CreateIteratorResponse
  fieldDimensionsRequest : Internal.Unmarshal Internal.FieldDimensionsRequest
  fieldDimensionsResponse : Internal.Unmarshal Internal.FieldDimensionsResponse
  mapTypeRequest : Internal.Unmarshal Internal.MapTypeRequest
  mapTypeResponse : Internal.Unmarshal Internal.MapTypeResponse
  measurement : Internal.Unmarshal Internal.Measurement
  iteratorCostRequest : Internal.Unmarshal Internal.IteratorCostRequest
  iteratorCostResponse : Internal.Unmarshal Internal.IteratorCostResponse

open Internal (Message Unmarshal)

def unmarshal [Message α] (u : Unmarshal α) (buf : Bytes) : Go α :=
  Go.ofExcept (u.run buf)

variable (X : External)

-- `unmarshalPoints` panics if a point can not be parsed.
def unmarshalPoints (points : List Bytes) : Go (List X.Point) :=
  points.mapM fun p =>
    match X.newPointFromBytes p with
    | .ok pt => pure pt
    | .error _ => Go.panic

-- `decodeMeasurement` and `UnMarchalBinayMeasurement`
def decodeMeasurement (pb : Option Internal.Measurement) : Go (Measurement X.Regex) := do
  let mm : Measurement X.Regex := {
    database := (pb.bind (·.database)).getD ""
    retentionPolicy := (pb.bind (·.retentionPolicy)).getD ""
    name := (pb.bind (·.name)).getD ""
    regex := none
    isTarget := (pb.bind (·.isTarget)).getD false
    systemIterator := (pb.bind (·.systemIterator)).getD "" }
  let pb ← Go.deref pb
  match pb.regex with
  | none => pure mm
  | some val =>
    match X.compile val with
    | .ok regex => pure { mm with regex := some regex }
    | .error err =>
      Go.fail s!"invalid binary measurement regex: value={val.quote}, err={err}"

def decodeInterval (pb : Option Internal.Interval) : Interval where
  duration := (pb.bind (·.duration)).getD 0
  offset := (pb.bind (·.offset)).getD 0

def decodeVarRef (pb : Internal.VarRef) : VarRef where
  val := pb.val.getD ""
  type := pb.type.getD 0

-- A string field that is parsed if it is set.
def parseOption (parse : String → Except String α) : Option String → Go (Option α)
  | none => pure none
  | some s => some <$> Go.ofExcept (parse s)

def decodeAux (pb : Internal.IteratorOptions) : List VarRef :=
  if pb.fields ≠ [] then
    pb.fields.map decodeVarRef
  else
    pb.aux.map ({ val := ·, type := 0 })

def decodeIteratorOptions (pb : Option Internal.IteratorOptions) :
    Go (IteratorOptions X.Regex X.Expr X.Location) := do
  let pb ← Go.deref pb
  let expr ← parseOption X.parseExpr pb.expr
  let location ← parseOption X.loadLocation pb.location
  let sources ← pb.sources.mapM fun source => decodeMeasurement X (some source)
  let condition ← parseOption X.parseExpr pb.condition
  pure {
    expr, location, sources, condition
    aux := decodeAux pb
    interval := decodeInterval pb.interval
    dimensions := pb.dimensions
    groupBy := if pb.groupBy = [] then none else some pb.groupBy.toFinset
    fill := pb.fill.getD 0
    fillValue := pb.fillValue
    startTime := pb.startTime.getD 0
    endTime := pb.endTime.getD 0
    ascending := pb.ascending.getD false
    limit := pb.limit.getD 0
    offset := pb.offset.getD 0
    sLimit := pb.sLimit.getD 0
    sOffset := pb.sOffset.getD 0
    stripName := pb.stripName.getD false
    dedupe := pb.dedupe.getD false
    maxSeriesN := pb.maxSeriesN.getD 0
    ordered := pb.ordered.getD false }

section Requests

structure CreateIteratorRequest where
  measurement : Option (Measurement X.Regex)
  opt : IteratorOptions X.Regex X.Expr X.Location
  shardIDs : List UInt64

-- The error of a measurement with a bad pattern is dropped.
def CreateIteratorRequest.unmarshalBinary (data : Bytes) : Go (CreateIteratorRequest X) := do
  let pb ← unmarshal X.createIteratorRequest data
  let opt ← Go.ofExcept (X.iteratorOptions (pb.opt.getD []))
  let mm ← unmarshal X.measurement (pb.measurement.getD [])
  let measurement ← Go.dropError (decodeMeasurement X (some mm))
  pure { measurement, opt, shardIDs := pb.shardIDs }

structure FieldDimensionsRequest where
  measurement : String
  shardIDs : List UInt64

def FieldDimensionsRequest.unmarshalBinary (data : Bytes) : Go FieldDimensionsRequest := do
  let pb ← unmarshal X.fieldDimensionsRequest data
  pure { measurement := pb.measurement.getD "", shardIDs := pb.shardIDs }

structure MapTypeRequest where
  shardIDs : List UInt64
  measurement : String
  field : String

def MapTypeRequest.unmarshalBinary (data : Bytes) : Go MapTypeRequest := do
  let pb ← unmarshal X.mapTypeRequest data
  pure {
    shardIDs := pb.shardIDs
    measurement := pb.measurement.getD ""
    field := pb.field.getD "" }

structure IteratorCostRequest where
  shardIDs : List UInt64
  measurement : Measurement X.Regex
  iteratorOptions : IteratorOptions X.Regex X.Expr X.Location

def IteratorCostRequest.unmarshalBinary (data : Bytes) : Go (IteratorCostRequest X) := do
  let pb ← unmarshal X.iteratorCostRequest data
  let measurement ← decodeMeasurement X pb.measurement
  let iteratorOptions ← decodeIteratorOptions X pb.iteratorOptions
  pure { shardIDs := pb.shardIDs, measurement, iteratorOptions }

end Requests

section Responses

structure CreateIteratorResponse where
  err : Option String

def CreateIteratorResponse.unmarshalBinary (data : Bytes) : Go CreateIteratorResponse := do
  let pb ← unmarshal X.createIteratorResponse data
  pure { err := pb.err }

structure FieldDimensionsResponse where
  fields : GoMap String Int64
  dimensions : Finset String
  err : Option String

def FieldDimensionsResponse.unmarshalBinary (data : Bytes) : Go FieldDimensionsResponse := do
  let pb ← unmarshal X.fieldDimensionsResponse data
  let fields ← pb.fields.mapM fun s => do
    let name ← Go.deref s.name
    let type ← Go.deref s.type
    pure (name, type.toInt64)
  pure {
    fields := fields.foldl (fun m (name, type) => m.insert name type) ∅
    dimensions := pb.dimensions.toFinset
    err := pb.err }

structure MapTypeResponse where
  type : Int64
  err : Option String

def MapTypeResponse.unmarshalBinary (data : Bytes) : Go MapTypeResponse := do
  let pb ← unmarshal X.mapTypeResponse data
  let type ← Go.deref pb.type
  pure { type, err := pb.err }

structure IteratorCostResponse where
  error : String
  iteratorCost : IteratorCost

def IteratorCostResponse.unmarshalBinary (data : Bytes) : Go IteratorCostResponse := do
  let pb ← unmarshal X.iteratorCostResponse data
  let cost ← Go.deref pb.cost
  let numShards ← Go.deref cost.numShards
  let numSeries ← Go.deref cost.numSeries
  let cachedValues ← Go.deref cost.cachedValues
  let numFiles ← Go.deref cost.numFiles
  let blocksRead ← Go.deref cost.blocksRead
  let blockSize ← Go.deref cost.blockSize
  pure {
    error := pb.err.getD ""
    iteratorCost := { numShards, numSeries, cachedValues, numFiles, blocksRead, blockSize } }

end Responses

end DataService
