import Myts.Lib.Run
import Myts.Meta.Fsm

namespace Meta

open Influx (Package)

namespace DataOf

def mapStatus (f : σ → τ) (d : DataOf σ) : DataOf τ where
  data := d.data
  metaNodes := d.metaNodes
  dataNodes := d.dataNodes
  shardStatus := f d.shardStatus
  maxNodeID := d.maxNodeID

-- Each entry of the log leaves its term and its index in the metadata.
def stamp (l : Log) (d : DataOf σ) : DataOf σ :=
  { d with data.term := l.term, data.index := l.index }

end DataOf

-- The address of a map of shard states, together with its inner maps.
abbrev Ref := Nat

-- The memory of a replica. Pieces of metadata are never freed, and `data` is the address of the
-- current one. A copy of a piece of metadata has the same map as the original.
structure Store where
  maps : List StatusMap
  cells : List (DataOf (Option Ref))
  data : Nat
  data_lt : data < cells.length
  refs_lt : ∀ c ∈ cells, ∀ r ∈ c.shardStatus, r < maps.length
deriving DecidableEq

namespace Store

def value (maps : List StatusMap) (c : DataOf (Option Ref)) : Data :=
  c.mapStatus (·.bind (maps[·]?))

-- The metadata that is found at an address.
def read? (s : Store) (p : Nat) : Option Data :=
  s.cells[p]?.map (value s.maps)

def cell (s : Store) : DataOf (Option Ref) :=
  s.cells.get ⟨s.data, s.data_lt⟩

def live (s : Store) : Data :=
  value s.maps s.cell

@[simps maps cells data]
def setMap (s : Store) (r : Ref) (m : StatusMap) : Store where
  maps := s.maps.set r m
  cells := s.cells
  data := s.data
  data_lt := s.data_lt
  refs_lt := by simpa using s.refs_lt

@[simps maps cells data]
def newMap (s : Store) (m : StatusMap) : Store where
  maps := s.maps ++ [m]
  cells := s.cells
  data := s.data
  data_lt := s.data_lt
  refs_lt := fun c hc r hr => by simpa using Nat.lt_succ_of_lt <| s.refs_lt c hc r hr

-- A new piece of metadata, which becomes the current one.
@[simps maps cells data]
def newCell (s : Store) (d : Data) (ref : Option Ref) (h : ∀ r ∈ ref, r < s.maps.length) :
    Store where
  maps := s.maps
  cells := s.cells ++ [d.mapStatus fun _ => ref]
  data := s.cells.length
  data_lt := by simp
  refs_lt := by simpa [or_imp, forall_and] using ⟨s.refs_lt, h⟩

@[simps maps cells data]
def stamp (s : Store) (l : Log) : Store where
  maps := s.maps
  cells := s.cells.set s.data (s.cell.stamp l)
  data := s.data
  data_lt := by simpa using s.data_lt
  refs_lt := fun c hc r hr =>
    (List.mem_or_eq_of_mem_set hc).elim (s.refs_lt c · r hr) fun h =>
      s.refs_lt s.cell (List.get_mem s.cells _) r <| by simpa [h, DataOf.stamp] using hr

-- Metadata that has been made from scratch becomes the current one.
def overwrite (s : Store) (d : Data) : Store :=
  match d.shardStatus with
  | none => s.newCell d none (by simp)
  | some m => (s.newMap m).newCell d (some s.maps.length) (by simp)

-- What is written to the map of a copy is written to the map of the original, also if the copy is
-- not used in the end.
def writeThrough (s : Store) (d : Data) : Store :=
  match s.cell.shardStatus, d.shardStatus with
  | some r, some m => s.setMap r m
  | _, _ => s

-- A copy to which a method has been applied becomes the current metadata.
def install (s : Store) (d : Data) : Store :=
  match h : s.cell.shardStatus, d.shardStatus with
  | some r, some m =>
    (s.setMap r m).newCell d (some r) <| by
      simpa using s.refs_lt s.cell (List.get_mem s.cells _) r h
  | _, _ => s.overwrite d

-- The result of `storeFSM.Apply`, which is nothing if the process does not survive.
def apply (I : Package) (E : Env) (l : Log) (s : Store) : Option (Store × Option Error) :=
  match dispatch I E l.cmd with
  | .panic => none
  | .keep err => some (s.stamp l, err)
  | .overwrite d => some ((s.overwrite d).stamp l, none)
  | .update m =>
    match m s.live with
    | .ok () d => some ((s.install d).stamp l, none)
    | .error .panic _ => none
    | .error e d => some ((s.writeThrough d).stamp l, some e)

def step (I : Package) (s : Option Store) (i : Env × Log) : Option Store :=
  s.bind fun s => (s.apply I i.1 i.2).map Prod.fst

def ofData (d : Data) : Store where
  maps := d.shardStatus.toList
  cells := [d.mapStatus fun m => m.map fun _ => 0]
  data := 0
  data_lt := by simp
  refs_lt := by simp +contextual [DataOf.mapStatus]

def init : Store :=
  ofData { Data.empty with data.index := 1 }

-- `store.snapshot` returns the address of a copy.
def snapshot (s : Store) : Store × Nat :=
  ({ maps := s.maps
     cells := s.cells ++ [s.cell]
     data := s.data
     data_lt := by simpa using Nat.lt_succ_of_lt s.data_lt
     refs_lt := by
       simpa [or_imp, forall_and] using ⟨s.refs_lt, s.refs_lt s.cell (List.get_mem s.cells _)⟩ },
    s.cells.length)

-- `storeFSM.Snapshot` returns the address of the current metadata itself. `Persist` encodes what is
-- found there when it is called.
def persist (I : Package) (o : StatusOrder) (s : Store) (p : Nat) : Option Internal.Data :=
  (s.read? p).map (Data.marshal I o)

def restore (I : Package) (s : Store) (pb : Internal.Data) : Store :=
  s.overwrite (Data.unmarshal I pb)

end Store

namespace Data

-- The map of the metadata after a failed method has been applied to a copy of it.
def leaked (d d' : Data) : Option StatusMap :=
  match d.shardStatus, d'.shardStatus with
  | some _, some m => some m
  | m, _ => m

-- The application of a command as a function of the current metadata.
def apply (I : Package) (E : Env) (l : Log) (d : Data) : Option (Data × Option Error) :=
  match dispatch I E l.cmd with
  | .panic => none
  | .keep err => some (d.stamp l, err)
  | .overwrite d' => some (d'.stamp l, none)
  | .update m =>
    match m d with
    | .ok () d' => some (d'.stamp l, none)
    | .error .panic _ => none
    | .error e d' => some (DataOf.stamp l { d with shardStatus := d.leaked d' }, some e)

def step (I : Package) (d : Option Data) (i : Env × Log) : Option Data :=
  d.bind fun d => (d.apply I i.1 i.2).map Prod.fst

end Data
end Meta
