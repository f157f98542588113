import Myts.Lib.GoMap
import Myts.Lib.Int64
import Myts.Lib.Timeline

open Timeline

namespace Tsm1.Join

-- `V` are the values of auxiliary and condition cursors, `W` those of the main cursor. A `none` is
-- the `nil` pointer of the type of the cursor.
variable {V W : Type}

-- A cursor is what it still yields. At its end it says `eof`, however often it is asked.
def Cursor.next (eof : Int64) : Series Int64 V → (Int64 × Option V) × Series Int64 V
  | [] => ((eof, none), [])
  | (k, v) :: rest => ((k, some v), rest)

structure BufCursor (V : Type) where
  cur : Series Int64 V
  buf : Option (Int64 × Option V)
  ascending : Bool

namespace BufCursor

variable (eof : Int64)

def next (c : BufCursor V) : (Int64 × Option V) × BufCursor V :=
  match c.buf with
  | some b => (b, { c with buf := none })
  | none =>
    let (r, cur) := Cursor.next eof c.cur
    (r, { c with cur })

def unread (c : BufCursor V) (k : Int64) (v : Option V) : BufCursor V :=
  { c with buf := some (k, v) }

def peek (c : BufCursor V) : (Int64 × Option V) × BufCursor V :=
  let ((k, v), c) := c.next eof
  ((k, v), c.unread k v)

-- The loop of `nextAt`. It is `none` if the loop does not end within so many turns.
def nextAt (seek : Int64) : Nat → BufCursor V → Option (Option V × BufCursor V)
  | 0, _ => none
  | n + 1, c =>
    let ((k, v), c) := c.next eof
    if k ≠ eof then
      if k = seek then some (v, c)
      else if c.ascending ∧ k < seek then nextAt seek n c
      else if ¬c.ascending ∧ k > seek then nextAt seek n c
      else some (none, c.unread k v)
    else some (none, c)

end BufCursor

inductive CursorAt (V : Type)
  | buffered (c : BufCursor V)
  | literal (value : Option V)

namespace CursorAt

variable (eof : Int64)

def peek : CursorAt V → (Int64 × Option V) × CursorAt V
  | buffered c =>
    let (r, c) := c.peek eof
    (r, buffered c)
  | literal value => ((eof, value), literal value)

def nextAt (seek : Int64) (fuel : Nat) : CursorAt V → Option (Option V × CursorAt V)
  | buffered c => (c.nextAt eof seek fuel).map fun (v, c) => (v, buffered c)
  | literal value => some (value, literal value)

end CursorAt

-- `opt.Condition` as `influxql.EvalBool` evaluates it, the cursors of its fields, and the map that
-- is used for the evaluation. Condition cursors are only built for a condition.
structure Condition (V : Type) where
  evalBool : GoMap String (Option V) → Bool
  conds : List (String × CursorAt V)
  m : GoMap String (Option V)

-- Read from condition field cursors.
def Condition.read (eof seek : Int64) (fuel : Nat) (c : Condition V) : Option (Condition V) := do
  let rs ← c.conds.mapM fun (name, cur) => (cur.nextAt eof seek fuel).map (name, ·)
  some {
    c with
    conds := rs.map fun r => (r.1, r.2.2)
    m := rs.foldl (fun m r => m.insert r.1 r.2.1) c.m
  }

structure Point (V W : Type) where
  time : Int64
  value : Option W
  aux : List (Option V)
  deriving DecidableEq

structure Iterator (V W : Type) where
  cur : Option (Series Int64 W)
  aux : List (CursorAt V)
  condition : Option (Condition V)
  ascending : Bool
  startTime : Int64
  endTime : Int64

namespace Iterator

variable (eof : Int64)

def lower (ascending : Bool) (seek k : Int64) : Int64 :=
  if k ≠ eof then
    if seek = eof ∨ (ascending ∧ k < seek) ∨ (¬ascending ∧ k > seek) then k else seek
  else seek

-- The lowest (highest) time of the auxiliary cursors, from the one found so far.
def lowest (ascending : Bool) : Int64 → List (CursorAt V) → Int64 × List (CursorAt V)
  | seek, [] => (seek, [])
  | seek, c :: aux =>
    let ((k, _), c) := c.peek eof
    let (seek, aux) := lowest ascending (lower eof ascending seek k) aux
    (seek, c :: aux)

-- Read from the main cursor if we have one, otherwise find lowest aux timestamp.
def seek (itr : Iterator V W) : (Int64 × Option W) × Iterator V W :=
  match itr.cur with
  | some cur =>
    let (r, cur) := Cursor.next eof cur
    (r, { itr with cur := some cur })
  | none =>
    let (seek, aux) := lowest eof itr.ascending eof itr.aux
    ((seek, none), { itr with aux })

-- We have no more points or we are outside our time range.
def Exits (itr : Iterator V W) (time : Int64) : Prop :=
  time = eof ∨ (itr.ascending ∧ time > itr.endTime) ∨ (¬itr.ascending ∧ time < itr.startTime)

instance {itr : Iterator V W} {time : Int64} : Decidable (itr.Exits eof time) :=
  inferInstanceAs (Decidable (_ ∨ _))

def evaluate (c : Option (Condition V)) : Bool :=
  match c with
  | none => true
  | some c => c.evalBool c.m

-- The loop of `Next`, which retries while the condition fails. `fuel` bounds the loops of the
-- cursors.
def nextLoop (fuel : Nat) : Nat → Iterator V W → Option (Option (Point V W) × Iterator V W)
  | 0, _ => none
  | n + 1, itr =>
    let ((time, value), itr) := itr.seek eof
    if itr.Exits eof time then some (none, itr)
    else do
      let aux ← itr.aux.mapM (·.nextAt eof time fuel)
      let condition ← itr.condition.mapM (·.read eof time fuel)
      let itr := { itr with aux := aux.map Prod.snd, condition }
      if evaluate condition then some (some ⟨time, value, aux.map Prod.fst⟩, itr)
      else nextLoop fuel n itr

def next (fuel : Nat) (itr : Iterator V W) : Option (Option (Point V W) × Iterator V W) :=
  itr.nextLoop eof fuel fuel

def calls (fuel : Nat) : Nat → Iterator V W → Option (List (Option (Point V W)))
  | 0, _ => some []
  | n + 1, itr => do
    let (p, itr) ← itr.next eof fuel
    let ps ← itr.calls fuel n
    some (p :: ps)

end Iterator

-- What a cursor is for: the values of a field by time, or one value for every time.
inductive Field (V : Type)
  | stored (values : Series Int64 V)
  | literal (value : Option V)

namespace Field

def values : Field V → Series Int64 V
  | stored values => values
  | literal _ => []

def valueAt (t : Int64) : Field V → Option V
  | stored values => values.lookup t
  | literal value => value

def after (asc : Bool) (t : Int64) : Field V → Field V
  | stored values => stored (Timeline.after asc t values)
  | literal value => literal value

end Field

structure Rows (V W : Type) where
  main : Option (Series Int64 W)
  aux : List (Field V)
  condition : Option ((GoMap String (Option V) → Bool) × List (String × Field V))
  ascending : Bool
  startTime : Int64
  endTime : Int64

namespace Rows

-- The times of the main field, or those of all auxiliary fields.
def times (r : Rows V W) : List (Int64 × Option W) :=
  match r.main with
  | some main => main.map fun p => (p.1, some p.2)
  | none => (union r.ascending (r.aux.map Field.values)).map (·, none)

def InRange (r : Rows V W) (t : Int64) : Prop :=
  if r.ascending then t ≤ r.endTime else r.startTime ≤ t

instance {r : Rows V W} : DecidablePred r.InRange :=
  fun t => inferInstanceAs (Decidable (if r.ascending then t ≤ r.endTime else r.startTime ≤ t))

def fieldsAt (t : Int64) (conds : List (String × Field V)) : GoMap String (Option V) :=
  conds.foldl (fun m c => m.insert c.1 (c.2.valueAt t)) ∅

def satisfied (r : Rows V W) (t : Int64) : Bool :=
  match r.condition with
  | none => true
  | some (evalBool, conds) => evalBool (fieldsAt t conds)

def point (r : Rows V W) (p : Int64 × Option W) : Point V W :=
  ⟨p.1, p.2, r.aux.map (Field.valueAt p.1)⟩

def points (r : Rows V W) : List (Point V W) :=
  r.times.filter (fun p => r.InRange p.1 ∧ r.satisfied p.1) |>.map r.point

def tail (r : Rows V W) : Rows V W :=
  { r with main := r.main.map List.tail }

-- What is left when the next time has been read.
def past (r : Rows V W) (t : Int64) : Rows V W :=
  { r with
    main := r.main.map List.tail
    aux := r.aux.map (Field.after r.ascending t)
    condition := r.condition.map fun c => (c.1, c.2.map fun p => (p.1, p.2.after r.ascending t)) }

def fields (r : Rows V W) : List (Field V) :=
  r.aux ++ r.condition.elim [] (·.2.map Prod.snd)

def size (r : Rows V W) : Nat :=
  r.times.length + (r.fields.map fun f => f.values.length).sum + 1

end Rows

-- The values that a buffered cursor has still to yield.
def BufCursor.pending (c : BufCursor V) : Series Int64 V :=
  match c.buf with
  | some (k, some v) => (k, v) :: c.cur
  | _ => c.cur

def CursorAt.field : CursorAt V → Field V
  | buffered c => .stored c.pending
  | literal value => .literal value

def Condition.fields (c : Condition V) : List (String × Field V) :=
  c.conds.map fun p => (p.1, p.2.field)

def Iterator.rows (itr : Iterator V W) : Rows V W where
  main := itr.cur
  aux := itr.aux.map CursorAt.field
  condition := itr.condition.map fun c => (c.evalBool, c.fields)
  ascending := itr.ascending
  startTime := itr.startTime
  endTime := itr.endTime

section Ordered

variable (eof : Int64) (asc : Bool)

-- Strictly ascending (descending) times.
def Yields (a : Series Int64 V) : Prop :=
  Ordered asc a ∧ ∀ p ∈ a, p.1 ≠ eof

instance {a : Series Int64 V} : Decidable (Yields eof asc a) :=
  inferInstanceAs (Decidable (_ ∧ _))

-- A pushed back end of the cursor is its end.
structure BufCursor.Yields (c : BufCursor V) : Prop where
  ascending : c.ascending = asc
  pending : Join.Yields eof asc c.pending
  ended : ∀ k, c.buf = some (k, none) → k = eof ∧ c.cur = []

def CursorAt.Yields : CursorAt V → Prop
  | buffered c => c.Yields eof asc
  | literal _ => True

-- The map of the condition only has the names of its fields.
structure Condition.Yields (c : Condition V) : Prop where
  conds : ∀ p ∈ c.conds, p.2.Yields eof asc
  m : ∀ name ∈ c.m, name ∈ c.conds.map Prod.fst

end Ordered

structure Iterator.Yields (eof : Int64) (itr : Iterator V W) : Prop where
  cur : ∀ cur ∈ itr.cur, Join.Yields eof itr.ascending cur
  aux : ∀ c ∈ itr.aux, c.Yields eof itr.ascending
  condition : ∀ c ∈ itr.condition, c.Yields eof itr.ascending

end Tsm1.Join
