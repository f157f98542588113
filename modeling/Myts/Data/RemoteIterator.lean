import Myts.Data.Fanout
import Myts.Tsm1.CreateIterator

namespace RemoteShardMapping

open Tsm1 (DataType Query IteratorOptions Measurement)

-- As much of an expression as the type of a reader is made from.
def Expr.of : Tsm1.Expr → Expr
  | .call name _ => .call name
  | _ => .other

def IteratorType.toDataType : IteratorType → DataType
  | .integer => .integer
  | .float => .float

-- No conversation makes the call panic, and the stream of a node is read by an iterator of the type
-- that the engine of the node has created, for whatever series it has.
def DecodesAsServed (q : Query) (opt : IteratorOptions)
    (fields : Option (GoMap String DataType)) : Prop :=
  ∀ (I : Type) (c : Conversation I),
    (createIterator (opt.expr.map .of) c).Safe ∧
    ∀ m : Measurement, m.fields = fields → ∀ served,
      Tsm1.Engine.createIterator q m opt = .ok (some served) → c.Succeeds →
      ∃ t : IteratorType, t.toDataType = served ∧
        createIterator (opt.expr.map .of) c = .ok (c.reader t)

-- There is no expression, or it is a reference or a call of a function for a reference.
def Expressed : Option Tsm1.Expr → Prop
  | none => True
  | some (.varRef _) => True
  | some (.call _ (.varRef _ :: _)) => True
  | _ => False

-- The expression is a call of `count`, or of a function that has floats as result for the field.
def Guessed (q : Query) (fields : Option (GoMap String DataType)) : Option Tsm1.Expr → Prop
  | some (.call name (.varRef ref :: _)) =>
    name = "count" ∨ ∀ t result, Tsm1.Engine.buildCursor fields ref = some t →
      q.newCallIterator name t = .ok result → result = .float
  | _ => False

end RemoteShardMapping
