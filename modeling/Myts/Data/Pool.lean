import Myts.Lib.Run

-- The pool without its `Close`, such that there always is a channel.
structure BoundedPool (κ : Type) where
  total : Int32
  conns : List κ
  cap : Nat

-- A connection as it is seen by whoever holds it.
structure PooledConn (κ : Type) where
  conn : κ
  unusable : Bool
deriving DecidableEq

-- How far a call of `Get` has come.
inductive Getting (κ : Type)
  | start
  | default
  | factory
  | created (conn : κ)
  | waiting
deriving DecidableEq

namespace Getting

def isFactory : Getting κ → Bool
  | factory => true
  | _ => false

def isCreated : Getting κ → Bool
  | created _ => true
  | _ => false

end Getting

namespace BoundedPool

-- `put`, which closes the connection if the channel is full.
def put (c : BoundedPool κ) (conn : κ) : BoundedPool κ :=
  if c.conns.length < c.cap then { c with conns := c.conns ++ [conn] } else c

-- `pooledConn.Close`
def close (c : BoundedPool κ) (p : PooledConn κ) : BoundedPool κ :=
  if p.unusable then c else c.put p.conn

structure State (κ : Type) where
  pool : BoundedPool κ
  gets : List (Getting κ)
  held : List (PooledConn κ)

inductive Event (κ : Type)
  | get
  -- The first `select`
  | select
  | loadTotal
  | factory (conn : Option κ)
  | addTotal (conn : κ)
  -- The second `select`
  | receive
  | timeout
  | markUnusable (p : PooledConn κ)
  -- The receiver of a deferred `Close` is copied when it is deferred, that is, before the connection
  -- may have been marked.
  | close (p : PooledConn κ) (deferred : Bool)
deriving DecidableEq

namespace State

variable [DecidableEq κ]

-- A call goes on.
def advance (s : State κ) (g g' : Getting κ) : State κ :=
  { s with gets := g' :: s.gets.erase g }

-- A call hands out a connection.
def handOut (s : State κ) (g : Getting κ) (conn : κ) : State κ :=
  { s with gets := s.gets.erase g, held := { conn, unusable := false } :: s.held }

def step (s : State κ) : Event κ → State κ
  | .get => { s with gets := .start :: s.gets }
  | .select =>
    if .start ∈ s.gets then
      match s.pool.conns with
      | [] => s.advance .start .default
      | conn :: conns => { s with pool.conns := conns }.handOut .start conn
    else
      s
  | .loadTotal =>
    if .default ∈ s.gets then
      s.advance .default (if s.pool.total < .ofNat s.pool.cap then .factory else .waiting)
    else
      s
  | .factory conn =>
    if .factory ∈ s.gets then
      match conn with
      | none => { s with gets := s.gets.erase .factory }
      | some conn => s.advance .factory (.created conn)
    else
      s
  | .addTotal conn =>
    if .created conn ∈ s.gets then
      { s with pool.total := s.pool.total + 1 }.handOut (.created conn) conn
    else
      s
  | .receive =>
    if .waiting ∈ s.gets then
      match s.pool.conns with
      | [] => s
      | conn :: conns => { s with pool.conns := conns }.handOut .waiting conn
    else
      s
  | .timeout => { s with gets := s.gets.erase .waiting }
  | .markUnusable p =>
    if p ∈ s.held then
      { s with
        pool.total := s.pool.total - 1
        held := { p with unusable := true } :: s.held.erase p }
    else
      s
  | .close p deferred =>
    if p ∈ s.held then
      { s with
        pool := s.pool.close (if deferred then { p with unusable := false } else p)
        held := s.held.erase p }
    else
      s

-- `NewBoundedPool` with connections for the initial capacity.
def new (conns : List κ) (cap : Nat) : State κ where
  pool := { total := .ofNat conns.length, conns, cap }
  gets := []
  held := []

def opened (s : State κ) : Nat :=
  s.pool.conns.length + s.held.length + s.gets.countP Getting.isCreated

def opening (s : State κ) : Nat :=
  s.gets.countP Getting.isFactory

-- No call of `Get` is in progress, and no connection waits for its `Close` after it was marked.
def Quiet (s : State κ) : Prop :=
  s.gets = [] ∧ ∀ p ∈ s.held, p.unusable = false

instance : DecidablePred (Quiet (κ := κ)) := fun _ => inferInstanceAs (Decidable (_ ∧ _))

-- A call that finds the total below the capacity finds less connections open or about to be opened.
-- A connection is marked once, and the mark is seen when it is closed.
def Orderly (s : State κ) : Event κ → Prop
  | .loadTotal => .default ∈ s.gets → s.pool.total < .ofNat s.pool.cap →
    s.opened + s.opening < s.pool.cap
  | .markUnusable p => p.unusable = false
  | .close p deferred => deferred → p.unusable = false
  | _ => True

instance (s : State κ) : DecidablePred s.Orderly := fun e => by
  cases e <;> unfold Orderly <;> infer_instance

end State

end BoundedPool
