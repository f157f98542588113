import Myts.Data.Cost
import Myts.Lib.Wire

open List

-- The messages in the wire format, by the numbers of their fields.
namespace Internal

open Wire Scalar

def Field.codec : Codec Field where
  put m := flatten [string.one 1 m.name, uint64.one 2 m.type]
  read fs := do
    return { name := ← string.last 1 fs, type := ← uint64.last 2 fs }
  read_put m := by
    simp [one, last, getLast?_toList]

def FieldDimensionsResponse.codec : Codec FieldDimensionsResponse where
  put m := flatten [(message Field.codec).many 1 m.fields, string.many 2 m.dimensions,
    string.one 3 m.err]
  read fs := do
    return {
      fields := ← (message Field.codec).all 1 fs
      dimensions := ← string.all 2 fs
      err := ← string.last 3 fs }
  read_put m := by
    simp [one, last, getLast?_toList]

def WriteShardRequest.codec : Codec WriteShardRequest where
  put m := flatten [uint64.one 1 m.shardID, bytes.many 2 m.points, string.one 3 m.database,
    string.one 4 m.retentionPolicy]
  read fs := do
    return {
      shardID := ← uint64.last 1 fs
      points := ← bytes.all 2 fs
      database := ← string.last 3 fs
      retentionPolicy := ← string.last 4 fs }
  read_put m := by
    simp [one, last, getLast?_toList]

def Measurement.codec : Codec Measurement where
  put m := flatten [string.one 1 m.database, string.one 2 m.retentionPolicy, string.one 3 m.name,
    string.one 4 m.regex, bool.one 5 m.isTarget, string.one 6 m.systemIterator]
  read fs := do
    return {
      database := ← string.last 1 fs
      retentionPolicy := ← string.last 2 fs
      name := ← string.last 3 fs
      regex := ← string.last 4 fs
      isTarget := ← bool.last 5 fs
      systemIterator := ← string.last 6 fs }
  read_put m := by
    simp [one, last, getLast?_toList]

def Interval.codec : Codec Interval where
  put m := flatten [int64.one 1 m.duration, int64.one 2 m.offset]
  read fs := do
    return { duration := ← int64.last 1 fs, offset := ← int64.last 2 fs }
  read_put m := by
    simp [one, last, getLast?_toList]

def VarRef.codec : Codec VarRef where
  put m := flatten [string.one 1 m.val, int32.one 2 m.type]
  read fs := do
    return { val := ← string.last 1 fs, type := ← int32.last 2 fs }
  read_put m := by
    simp [one, last, getLast?_toList]

def IteratorOptions.codec : Codec IteratorOptions where
  put m := flatten [string.one 1 m.expr, string.many 2 m.aux,
    (message Measurement.codec).many 3 m.sources, (message Interval.codec).one 4 m.interval,
    string.many 5 m.dimensions, int32.one 6 m.fill, double.one 7 m.fillValue,
    string.one 8 m.condition, int64.one 9 m.startTime, int64.one 10 m.endTime,
    bool.one 11 m.ascending, int64.one 12 m.limit, int64.one 13 m.offset, int64.one 14 m.sLimit,
    int64.one 15 m.sOffset, bool.one 16 m.dedupe, (message VarRef.codec).many 17 m.fields,
    int64.one 18 m.maxSeriesN, string.many 19 m.groupBy, bool.one 20 m.ordered,
    string.one 21 m.location, bool.one 22 m.stripName]
  read fs := do
    return {
      expr := ← string.last 1 fs
      aux := ← string.all 2 fs
      fields := ← (message VarRef.codec).all 17 fs
      sources := ← (message Measurement.codec).all 3 fs
      interval := ← (message Interval.codec).last 4 fs
      dimensions := ← string.all 5 fs
      groupBy := ← string.all 19 fs
      fill := ← int32.last 6 fs
      fillValue := ← double.last 7 fs
      condition := ← string.last 8 fs
      startTime := ← int64.last 9 fs
      endTime := ← int64.last 10 fs
      location := ← string.last 21 fs
      ascending := ← bool.last 11 fs
      limit := ← int64.last 12 fs
      offset := ← int64.last 13 fs
      sLimit := ← int64.last 14 fs
      sOffset := ← int64.last 15 fs
      stripName := ← bool.last 22 fs
      dedupe := ← bool.last 16 fs
      maxSeriesN := ← int64.last 18 fs
      ordered := ← bool.last 20 fs }
  read_put m := by
    simp [one, last, getLast?_toList]

def IteratorCostRequest.codec : Codec IteratorCostRequest where
  put m := flatten [uint64.many 1 m.shardIDs, (message Measurement.codec).one 2 m.measurement,
    (message IteratorOptions.codec).one 3 m.iteratorOptions]
  read fs := do
    return {
      shardIDs := ← uint64.all 1 fs
      measurement := ← (message Measurement.codec).last 2 fs
      iteratorOptions := ← (message IteratorOptions.codec).last 3 fs }
  read_put m := by
    simp [one, last, getLast?_toList]

section Unmarshal

variable (c : Codec α)

def marshal (m : α) : Bytes :=
  Wire.put (c.put m)

variable [Message α] [DecidablePred (Message.Required (α := α))]

def unmarshal : Unmarshal α where
  run b :=
    match Wire.read b >>= c.read with
    | none => .error "unexpected EOF"
    | some m => if Message.Required m then .ok m else .error "proto: required field not set"
  required h := by
    split at h
    case h_1 => cases h
    case h_2 =>
      split at h <;> cases h
      assumption

theorem unmarshal_marshal {m : α} (h : Message.Required m) :
    (unmarshal c).run (marshal c m) = .ok m := by
  have hr : (Wire.read (marshal c m) >>= c.read) = some m := by
    rw [marshal, Wire.read_put]
    exact c.read_put m
  dsimp only [unmarshal]
  rw [hr]
  exact if_pos h

instance : DecidablePred (Message.Required (α := WriteShardRequest)) :=
  fun m => inferInstanceAs (Decidable (m.shardID.isSome = true))

instance : DecidablePred (Message.Required (α := FieldDimensionsResponse)) :=
  fun m => inferInstanceAs (Decidable (∀ f ∈ m.fields, f.name.isSome ∧ f.type.isSome))

instance : DecidablePred (Message.Required (α := IteratorCostRequest)) :=
  fun m => inferInstanceAs (Decidable (m.measurement.isSome ∧
    ∃ opt ∈ m.iteratorOptions, ∀ ref ∈ opt.fields, ref.val.isSome))

end Unmarshal

end Internal

namespace DataService

open Internal (Message Unmarshal)

def nothing [Message α] : Unmarshal α where
  run := fun _ => .error "unexpected EOF"
  required := nofun

-- Patterns, expressions and locations are their own texts, and no point can be parsed.
def textual : External where
  Point := Empty
  Regex := String
  Expr := String
  Location := String
  Iterator := Empty
  newPointFromBytes := fun _ => .error "invalid point"
  compile := .ok
  parseExpr := .ok
  loadLocation := .ok
  parseStatement := fun _ => .error "found EOF"
  iteratorOptions := fun _ => .error "unexpected EOF"
  lessThan := fun _ _ => false
  combine := IteratorCost.add
  writeShardRequest := Internal.unmarshal Internal.WriteShardRequest.codec
  writeShardResponse := nothing
  executeStatementRequest := nothing
  createIteratorRequest := nothing
  createIteratorResponse := nothing
  fieldDimensionsRequest := nothing
  fieldDimensionsResponse := Internal.unmarshal Internal.FieldDimensionsResponse.codec
  mapTypeRequest := nothing
  mapTypeResponse := nothing
  measurement := nothing
  iteratorCostRequest := Internal.unmarshal Internal.IteratorCostRequest.codec
  iteratorCostResponse := nothing

end DataService
