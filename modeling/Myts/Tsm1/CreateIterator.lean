import Myts.Lib.Go
import Myts.Lib.GoMap

namespace Tsm1

-- The types of fields, and of the cursors and iterators over their values.
inductive DataType
  | float
  | integer
  | unsigned
  | string
  | boolean
deriving DecidableEq

-- What can stand as the type of a reference in a query.
inductive RefType
  | unknown
  | field (type : DataType)
  | anyField
  | tag
  | time
  | duration
deriving DecidableEq

structure VarRef where
  val : String
  type : RefType
deriving DecidableEq

inductive Expr
  | varRef (ref : VarRef)
  | call (name : String) (args : List Expr)
  | other

-- `expr.(*influxql.VarRef)`, where the result is `nil` for other expressions.
def Expr.varRef? : Expr → Option VarRef
  | varRef ref => some ref
  | _ => none

-- The package `query`, by the types of its iterators.
structure Query where
  newCallIterator : String → DataType → Except String DataType
  newParallelMergeIterator : List DataType → DataType
  merge : Option Expr → List (Option DataType) → Except String (Option DataType)

-- An iterator of this type can be a part of the result for the expression.
def Query.Produced (q : Query) (t : DataType) : Option Expr → Prop
  | some (.call name _) => ∃ t', q.newCallIterator name t' = .ok t
  | _ => True

-- Parts of one type are put together to an iterator of this type.
structure Query.Laws (q : Query) : Prop where
  count    : ∀ t, q.newCallIterator "count" t = .ok .integer
  first    : ∀ t, q.newCallIterator "first" t = .ok t
  last     : ∀ t, q.newCallIterator "last" t = .ok t
  parallel : ∀ {t ts}, ts ≠ [] → (∀ t' ∈ ts, t' = t) → q.newParallelMergeIterator ts = t
  none : ∀ {e}, q.merge e [] = .ok none
  merge : ∀ {t e ts}, ts ≠ [] → (∀ t' ∈ ts, t' = some t) → q.Produced t e →
    q.merge e ts = .ok (some t)

structure IteratorOptions where
  expr : Option Expr
  interval : Int

-- The series of a tag set, and why their iterators can not be created: the query has been killed or
-- there are too many of them.
structure TagSet where
  seriesKeys : List String
  error : Option String

-- What an engine has of a measurement, and the tag sets that are left for the query.
structure Measurement where
  found : Except String Bool
  fields : Option (GoMap String DataType)
  tagSets : Except String (List TagSet)

namespace Engine

-- The system fields that every measurement has.
def systemFields : List String :=
  ["_name", "_tagKey", "_tagValue", "_seriesKey"]

-- A cast is possible between different numbers.
def cast : DataType → DataType → Option DataType
  | .float, .integer => some .float
  | .float, .unsigned => some .float
  | .integer, .float => some .integer
  | .integer, .unsigned => some .integer
  | .unsigned, .float => some .unsigned
  | .unsigned, .integer => some .unsigned
  | _, _ => none

def fieldCursor (ref : RefType) (t : DataType) : Option DataType :=
  match ref with
  | .unknown => some t
  | .anyField => some t
  | .field t' => if t' = t then some t else cast t' t
  | _ => none

-- The type of the cursor, which is `nil` if there is no such field.
def buildCursor (fields : Option (GoMap String DataType)) (ref : VarRef) : Option DataType :=
  if ref.val ∈ systemFields then
    some .string
  else
    match fields with
    | none => none
    | some mf =>
      if ref.val = "_fieldKey" then
        some .string
      else
        (mf.lookup ref.val).bind (fieldCursor ref.type)

-- Without a reference there are only auxiliary fields.
def createVarRefSeriesIterator (m : Measurement) (ref : Option VarRef) : Option DataType :=
  match ref with
  | none => some .float
  | some ref => buildCursor m.fields ref

def createTagSetIterators (m : Measurement) (ref : Option VarRef) (t : TagSet) :
    Go (List DataType) := do
  Go.ofError t.error
  pure (t.seriesKeys.filterMap fun _ => createVarRefSeriesIterator m ref)

-- The loop over the tag sets. Those without an iterator are skipped.
def forTagSets (m : Measurement) (ref : Option VarRef) (f : List DataType → Go (Option DataType)) :
    List TagSet → Go (List (Option DataType))
  | [] => pure []
  | t :: ts => do
    let inputs ← createTagSetIterators m ref t
    if inputs.isEmpty then
      forTagSets m ref f ts
    else do
      let itr ← f inputs
      let itrs ← forTagSets m ref f ts
      pure (itr :: itrs)

def forMeasurement (m : Measurement) (ref : Option VarRef)
    (f : List DataType → Go (Option DataType)) : Go (List (Option DataType)) := do
  let exists' ← Go.ofExcept m.found
  if ¬exists' then
    pure []
  else do
    let tagSets ← Go.ofExcept m.tagSets
    forTagSets m ref f tagSets

-- Each series is wrapped in an iterator for the call.
def callTagSet (q : Query) (name : String) (inputs : List DataType) : Go (Option DataType) := do
  let itrs ← inputs.mapM fun t => Go.ofExcept (q.newCallIterator name t)
  pure (some (q.newParallelMergeIterator itrs))

def createCallIterator (q : Query) (m : Measurement) (name : String) (arg : Expr) :
    Go (List (Option DataType)) :=
  forMeasurement m arg.varRef? (callTagSet q name)

def createVarRefIterator (q : Query) (m : Measurement) (expr : Option Expr) :
    Go (List (Option DataType)) :=
  forMeasurement m (expr.bind Expr.varRef?) fun inputs =>
    Go.ofExcept (q.merge expr (inputs.map some))

def newMergeFinalizerIterator (q : Query) (inputs : List (Option DataType)) (opt : IteratorOptions) :
    Go (Option DataType) :=
  Go.ofExcept (q.merge opt.expr inputs)

-- The type of the iterator that is created, which is `nil` if there is nothing to iterate over.
-- The reads of `call.Args[0]` are in both branches of the source.
def createIterator (q : Query) (m : Measurement) (opt : IteratorOptions) : Go (Option DataType) :=
  match opt.expr with
  | some (.call name args) => do
    let arg ← Go.deref args.head?
    if opt.interval = 0 ∧ (name = "first" ∨ name = "last") then do
      let itrs ← createVarRefIterator q m (some arg)
      newMergeFinalizerIterator q itrs opt
    else do
      let inputs ← createCallIterator q m name arg
      if inputs.isEmpty then
        pure none
      else
        newMergeFinalizerIterator q inputs opt
  | expr => do
    let itrs ← createVarRefIterator q m expr
    newMergeFinalizerIterator q itrs opt

end Engine
end Tsm1
