import Myts.Lib.Bytes
import Myts.Lib.Go
import Myts.Lib.GoMap

-- The messages that the nodes exchange as protocol buffers. A field that is not repeated is a
-- pointer.
namespace Internal

structure WriteShardRequest where
  shardID : Option UInt64
  points : List Bytes
  database : Option String
  retentionPolicy : Option String

-- Also the response to a statement.
structure WriteShardResponse where
  code : Option Int32
  message : Option String

structure ExecuteStatementRequest where
  statement : Option String
  database : Option String

structure CreateIteratorRequest where
  measurement : Option Bytes
  opt : Option Bytes
  shardIDs : List UInt64

structure CreateIteratorResponse where
  err : Option String

structure Field where
  name : Option String
  type : Option UInt64

structure FieldDimensionsRequest where
  measurement : Option String
  shardIDs : List UInt64

structure FieldDimensionsResponse where
  fields : List Field
  dimensions : List String
  err : Option String

structure MapTypeRequest where
  shardIDs : List UInt64
  measurement : Option String
  field : Option String

structure MapTypeResponse where
  type : Option Int64
  err : Option String

structure Measurement where
  database : Option String
  retentionPolicy : Option String
  name : Option String
  regex : Option String
  isTarget : Option Bool
  systemIterator : Option String

structure Interval where
  duration : Option Int64
  offset : Option Int64

structure VarRef where
  val : Option String
  type : Option Int32

-- The fill value is given by its bits.
structure IteratorOptions where
  expr : Option String
  aux : List String
  fields : List VarRef
  sources : List Measurement
  interval : Option Interval
  dimensions : List String
  groupBy : List String
  fill : Option Int32
  fillValue : Option UInt64
  condition : Option String
  startTime : Option Int64
  endTime : Option Int64
  location : Option String
  ascending : Option Bool
  limit : Option Int64
  offset : Option Int64
  sLimit : Option Int64
  sOffset : Option Int64
  stripName : Option Bool
  dedupe : Option Bool
  maxSeriesN : Option Int64
  ordered : Option Bool

structure IteratorCostRequest where
  shardIDs : List UInt64
  measurement : Option Measurement
  iteratorOptions : Option IteratorOptions

structure IteratorCost where
  numShards : Option Int64
  numSeries : Option Int64
  cachedValues : Option Int64
  numFiles : Option Int64
  blocksRead : Option Int64
  blockSize : Option Int64

structure IteratorCostResponse where
  cost : Option IteratorCost
  err : Option String

-- The fields that are declared as required, in the message and in those that it contains.
class Message (α : Type) where
  Required : α → Prop

instance : Message WriteShardRequest where
  Required m := m.shardID.isSome

instance : Message WriteShardResponse where
  Required m := m.code.isSome

instance : Message ExecuteStatementRequest where
  Required m := m.statement.isSome ∧ m.database.isSome

instance : Message CreateIteratorRequest where
  Required m := m.measurement.isSome ∧ m.opt.isSome

instance : Message CreateIteratorResponse where
  Required _ := True

instance : Message FieldDimensionsRequest where
  Required m := m.measurement.isSome

instance : Message FieldDimensionsResponse where
  Required m := ∀ f ∈ m.fields, f.name.isSome ∧ f.type.isSome

instance : Message MapTypeRequest where
  Required m := m.measurement.isSome ∧ m.field.isSome

instance : Message MapTypeResponse where
  Required m := m.type.isSome

instance : Message Measurement where
  Required _ := True

instance : Message IteratorCostRequest where
  Required m := m.measurement.isSome ∧
    ∃ opt ∈ m.iteratorOptions, ∀ ref ∈ opt.fields, ref.val.isSome

instance : Message IteratorCostResponse where
  Required m := ∃ c ∈ m.cost, c.numShards.isSome ∧ c.numSeries.isSome ∧ c.cachedValues.isSome ∧
    c.numFiles.isSome ∧ c.blocksRead.isSome ∧ c.blockSize.isSome

-- `proto.Unmarshal`, which returns an error if a required field is missing.
structure Unmarshal (α : Type) [Message α] where
  run : Bytes → Except String α
  required : run b = .ok m → Message.Required m

end Internal
