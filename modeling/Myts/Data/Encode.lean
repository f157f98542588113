import Myts.Data.Decode

namespace DataService

-- The libraries that the messages are encoded with.
structure Printer (X : External) where
  regexString : X.Regex → String
  exprString : X.Expr → String
  locationString : X.Location → String
  fieldDimensionsResponse : Internal.FieldDimensionsResponse → Except String Bytes
  iteratorCostRequest : Internal.IteratorCostRequest → Except String Bytes

-- What has been printed is parsed, and a message with all of its required fields is read as it was
-- written.
structure Printer.Laws {X : External} (P : Printer X) : Prop where
  compile : ∀ r, X.compile (P.regexString r) = .ok r
  parseExpr : ∀ e, X.parseExpr (P.exprString e) = .ok e
  loadLocation : ∀ l, X.loadLocation (P.locationString l) = .ok l
  fieldDimensionsResponse : ∀ {m}, Internal.Message.Required m →
    ∃ b, P.fieldDimensionsResponse m = .ok b ∧ X.fieldDimensionsResponse.run b = .ok m
  iteratorCostRequest : ∀ {m}, Internal.Message.Required m →
    ∃ b, P.iteratorCostRequest m = .ok b ∧ X.iteratorCostRequest.run b = .ok m

namespace FieldDimensionsResponse

-- The variables of the loop over the fields: there is one `k` for all of its rounds, and one `iv`
-- for each of them.
structure Variables where
  k : String
  iv : List UInt64

-- A field of the message that points to the variables, `Name` to `k` and `Type` to the `iv` of a
-- round.
structure FieldRef where
  type : Nat

def FieldRef.field (v : Variables) (f : FieldRef) : Internal.Field where
  name := some v.k
  type := v.iv[f.type]?

def round (fields : GoMap String Int64) (s : Variables × List FieldRef) (k : String) :
    Variables × List FieldRef :=
  let iv := ((fields.lookup k).getD 0).toUInt64
  ({ k, iv := s.1.iv ++ [iv] }, s.2 ++ [{ type := s.1.iv.length }])

-- The pointers are followed after the loop.
def encodeFields (fields : GoMap String Int64) (order : List String) : List Internal.Field :=
  let (v, fs) := order.foldl (round fields) ({ k := "", iv := [] }, [])
  fs.map (·.field v)

-- The loops over the maps come to their keys in some order.
def marshalBinary {X : External} (P : Printer X) (order dimensions : List String)
    (r : FieldDimensionsResponse) : Go Bytes :=
  Go.ofExcept <| P.fieldDimensionsResponse {
    fields := encodeFields r.fields order
    dimensions := dimensions
    err := r.err }

-- What is read is what was written.
def RoundTrips {X : External} (P : Printer X) (order dimensions : List String)
    (r : FieldDimensionsResponse) : Prop :=
  (do unmarshalBinary X (← r.marshalBinary P order dimensions)) = .ok r

end FieldDimensionsResponse

-- The requests as they are before they are sent. The types that are enumerations are integers.
namespace Query

structure VarRef where
  val : String
  type : Int64

inductive Source (Regex : Type)
  | measurement (mm : Measurement Regex)
  | subQuery (statement : String)

inductive FillValue
  -- A number that is given by its bits.
  | float (bits : UInt64)
  | integer (n : Int64)

structure IteratorOptions (X : External) where
  expr : Option X.Expr
  aux : List VarRef
  sources : List (Source X.Regex)
  interval : Interval
  dimensions : List String
  groupBy : Option (Finset String)
  fill : Int64
  fillValue : Option FillValue
  condition : Option X.Expr
  startTime : Int64
  endTime : Int64
  location : Option X.Location
  ascending : Bool
  limit : Int64
  offset : Int64
  sLimit : Int64
  sOffset : Int64
  stripName : Bool
  dedupe : Bool
  maxSeriesN : Int64
  ordered : Bool

structure IteratorCostRequest (X : External) where
  shardIDs : List UInt64
  measurement : Measurement X.Regex
  iteratorOptions : IteratorOptions X

section Encode

variable {X : External} (P : Printer X)

def encodeInterval (i : Interval) : Internal.Interval where
  duration := some i.duration
  offset := some i.offset

def encodeMeasurement (mm : Measurement X.Regex) : Internal.Measurement where
  database := some mm.database
  retentionPolicy := some mm.retentionPolicy
  name := some mm.name
  regex := mm.regex.map P.regexString
  isTarget := some mm.isTarget
  systemIterator := some mm.systemIterator

def encodeVarRef (ref : VarRef) : Internal.VarRef where
  val := some ref.val
  type := some ref.type.toInt32

-- A source that is not a measurement fails the type assertion.
def encodeSource : Source X.Regex → Go Internal.Measurement
  | .measurement mm => pure (encodeMeasurement P mm)
  | .subQuery _ => Go.panic

-- Any other type of value is left out.
def encodeFillValue : Option FillValue → Option UInt64
  | some (.float bits) => some bits
  | _ => none

-- The loop over the set comes to the dimensions in the given order.
def encodeIteratorOptions (groupBy : List String) (opt : IteratorOptions X) :
    Go Internal.IteratorOptions := do
  let sources ← opt.sources.mapM (encodeSource P)
  pure {
    sources := sources
    expr := opt.expr.map P.exprString
    aux := opt.aux.map (·.val)
    fields := opt.aux.map encodeVarRef
    interval := some (encodeInterval opt.interval)
    dimensions := opt.dimensions
    groupBy := if opt.groupBy.isSome then groupBy else []
    fill := some opt.fill.toInt32
    fillValue := encodeFillValue opt.fillValue
    condition := opt.condition.map P.exprString
    startTime := some opt.startTime
    endTime := some opt.endTime
    location := opt.location.map P.locationString
    ascending := some opt.ascending
    limit := some opt.limit
    offset := some opt.offset
    sLimit := some opt.sLimit
    sOffset := some opt.sOffset
    stripName := some opt.stripName
    dedupe := some opt.dedupe
    maxSeriesN := some opt.maxSeriesN
    ordered := some opt.ordered }

def IteratorCostRequest.marshalBinary (groupBy : List String) (m : IteratorCostRequest X) :
    Go Bytes := do
  let opt ← encodeIteratorOptions P groupBy m.iteratorOptions
  Go.ofExcept <| P.iteratorCostRequest {
    shardIDs := m.shardIDs
    measurement := some (encodeMeasurement P m.measurement)
    iteratorOptions := some opt }

end Encode

section Decoded

variable {X : External}

-- A request that has been read. The conversions to `influxql.DataType` and `influxql.FillOption`
-- extend the sign.
def IteratorOptions.ofDecoded
    (opt : DataService.IteratorOptions X.Regex X.Expr X.Location) : IteratorOptions X where
  expr := opt.expr
  aux := opt.aux.map fun ref => { val := ref.val, type := ref.type.toInt64 }
  sources := opt.sources.map .measurement
  interval := opt.interval
  dimensions := opt.dimensions
  groupBy := opt.groupBy
  fill := opt.fill.toInt64
  fillValue := opt.fillValue.map .float
  condition := opt.condition
  startTime := opt.startTime
  endTime := opt.endTime
  location := opt.location
  ascending := opt.ascending
  limit := opt.limit
  offset := opt.offset
  sLimit := opt.sLimit
  sOffset := opt.sOffset
  stripName := opt.stripName
  dedupe := opt.dedupe
  maxSeriesN := opt.maxSeriesN
  ordered := opt.ordered

def IteratorCostRequest.ofDecoded (m : DataService.IteratorCostRequest X) :
    IteratorCostRequest X where
  shardIDs := m.shardIDs
  measurement := m.measurement
  iteratorOptions := .ofDecoded m.iteratorOptions

-- A nil set has the same elements as an empty set.
def IteratorOptions.normal (opt : IteratorOptions X) : IteratorOptions X :=
  { opt with groupBy := opt.groupBy.filter (· ≠ ∅) }

def IteratorCostRequest.normal (m : IteratorCostRequest X) : IteratorCostRequest X :=
  { m with iteratorOptions := m.iteratorOptions.normal }

def IteratorCostRequest.RoundTrips (P : Printer X) (groupBy : List String)
    (m : IteratorCostRequest X) : Prop :=
  ∃ m', ofDecoded m' = m.normal
    ∧ (do DataService.IteratorCostRequest.unmarshalBinary X (← m.marshalBinary P groupBy)) = .ok m'

-- All that the options say has its place in the message.
structure IteratorOptions.Sendable (opt : IteratorOptions X) : Prop where
  sources : ∀ s ∈ opt.sources, ∃ mm, s = .measurement mm
  aux : ∀ ref ∈ opt.aux, -2 ^ 31 ≤ ref.type.toInt ∧ ref.type.toInt < 2 ^ 31
  fill : -2 ^ 31 ≤ opt.fill.toInt ∧ opt.fill.toInt < 2 ^ 31
  fillValue : ∀ n, opt.fillValue ≠ some (.integer n)

end Decoded

end Query
end DataService
