import Myts.Lib.Run

-- What is remembered about the tombstone file of a TSM file, by the sections of the code that hold
-- the lock and the calls of `os.Stat` between them.
namespace Tsm1.TombstoneStats

structure FileStat where
  lastModified : Int64
  size : UInt32
deriving DecidableEq

-- The result of `os.Stat`.
inductive Stat
  | found (stat : FileStat)
  | notExist
  | failed
deriving DecidableEq

-- Where a call of `TombstoneFiles` is.
inductive Phase
  | entered
  -- The first section has found that the statistics are not loaded.
  | missed
  | statted (stat : Stat)
  | returned (files : List FileStat)
deriving DecidableEq

structure Call where
  phase : Phase
  -- The call has started after an `AddRange` returned `nil`, and there was no `Delete` since until
  -- it returned.
  due : Bool
deriving DecidableEq

namespace Call

def waive (c : Call) : Call :=
  match c.phase with
  | .returned _ => c
  | _ => { c with due := false }

def Reports (c : Call) : Prop :=
  ∀ files, c.phase = .returned files → c.due → files ≠ []

end Call

-- Where the call is that holds the lock.
inductive Writer
  | idle
  -- `AddRange`, before and after the new file is renamed
  | adding
  | renamed
  -- `Delete`, before and after the file is removed
  | deleting
  | removed
deriving DecidableEq

structure Tombstoner where
  statsLoaded : Bool
  fileStats : List FileStat
  file : Option FileStat
  writer : Writer
  -- An `AddRange` has returned `nil`, and there was no `Delete` since.
  added : Bool
  calls : List Call
deriving DecidableEq

inductive Event
  | call
  | check (i : Nat)
  | stat (i : Nat) (failed : Bool)
  | publish (i : Nat)
  -- `AddRange` with some keys. It returns `nil` if it can not read the tombstones.
  | lockAdd
  | readFails
  | writeFails
  | rename (stat : FileStat)
  | addReturns (err : Bool)
  | lockDelete
  | removeFails
  | remove
  | deleteReturns

namespace Tombstoner

def init (file : Option FileStat) : Tombstoner where
  statsLoaded := false
  fileStats := []
  file := file
  writer := .idle
  added := false
  calls := []

def osStat (t : Tombstoner) (failed : Bool) : Stat :=
  if failed then .failed else
    match t.file with
    | some stat => .found stat
    | none => .notExist

def phase? (t : Tombstoner) (i : Nat) : Option Phase :=
  t.calls[i]?.map (·.phase)

def move (t : Tombstoner) (i : Nat) (phase : Phase) : Tombstoner :=
  { t with calls := t.calls.modify i fun c => { c with phase } }

def check (t : Tombstoner) (i : Nat) : Tombstoner :=
  t.move i (if t.statsLoaded then .returned t.fileStats else .missed)

def publish (t : Tombstoner) (i : Nat) : Stat → Tombstoner
  | .found stat => { t with fileStats := [stat], statsLoaded := true }.move i (.returned [stat])
  | .notExist => { t with fileStats := [], statsLoaded := true }.move i (.returned [])
  | .failed => { t with fileStats := [], statsLoaded := false }.move i (.returned [])

def step (t : Tombstoner) : Event → Tombstoner
  | .call => { t with calls := t.calls ++ [{ phase := .entered, due := t.added }] }
  | .check i =>
    if t.writer = .idle ∧ t.phase? i = some .entered then t.check i else t
  | .stat i failed =>
    if t.phase? i = some .missed then t.move i (.statted (t.osStat failed)) else t
  | .publish i =>
    match t.phase? i with
    | some (.statted stat) => if t.writer = .idle then t.publish i stat else t
    | _ => t
  | .lockAdd => if t.writer = .idle then { t with writer := .adding, statsLoaded := false } else t
  | .readFails => if t.writer = .adding then { t with writer := .idle, added := true } else t
  | .writeFails => if t.writer = .adding then { t with writer := .idle } else t
  | .rename stat =>
    if t.writer = .adding then { t with writer := .renamed, file := some stat } else t
  | .addReturns err =>
    if t.writer = .renamed then { t with writer := .idle, added := t.added || !err } else t
  | .lockDelete =>
    if t.writer = .idle then
      { t with writer := .deleting, added := false, calls := t.calls.map Call.waive }
    else
      t
  | .removeFails => if t.writer = .deleting then { t with writer := .idle } else t
  | .remove => if t.writer = .deleting then { t with writer := .removed, file := none } else t
  | .deleteReturns =>
    if t.writer = .removed then { t with writer := .idle, statsLoaded := false } else t

-- A call that has found no file stores this only if there is still none. Neither `os.Stat` nor the
-- reading of the old tombstones fails.
def Fresh (t : Tombstoner) : Event → Prop
  | .publish i => t.phase? i = some (.statted .notExist) → t.file = none
  | .stat _ failed => failed = false
  | .readFails => t.file ≠ none
  | _ => True

instance (t : Tombstoner) : DecidablePred t.Fresh := fun e => by
  cases e <;> dsimp only [Fresh] <;> infer_instance

end Tombstoner

end Tsm1.TombstoneStats
