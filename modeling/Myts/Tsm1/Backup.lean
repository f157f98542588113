import Myts.Lib.Filepath
import Myts.Tsm1.Tombstone

-- How the files of a shard are written to an archive and installed from one.
namespace Tsm1

open Bytes Go
open Filepath (Path)

structure Member where
  name : List Char
  data : Bytes
deriving DecidableEq

structure Fs (σ : Type) where
  create : Path → σ → Except String σ
  copy : Path → Bytes → σ → Except String σ
  rename : Path → Path → σ → Except String σ
  read : Path → σ → Except String (Option Bytes)
  syncDir : Path → σ → Except String σ

-- What has been done to the files, together with the member of the archive it was done for.
inductive Effect
  | create (member : List Char) (p : Path)
  | rename (member : List Char) (p q : Path)
deriving DecidableEq

structure TSMFile where
  path : Path
  reader : TSMReader

structure Shard (σ : Type) where
  disk : σ
  effects : List Effect
  currentGeneration : Nat
  files : List TSMFile

abbrev ShardM (σ : Type) := EStateM Stop (Shard σ)

-- The directories and the files of a disk without faults.
structure World where
  dirs : List Path
  files : GoMap Path Bytes

def noSuchFile : String := "no such file or directory"

def posix : Fs World where
  create p w :=
    if p ∈ w.dirs then
      .error "is a directory"
    else if p.parent ∈ w.dirs then
      .ok { w with files := w.files.insert p ((w.files.lookup p).getD []) }
    else
      .error noSuchFile
  -- What is behind the written bytes stays.
  copy p b w :=
    match w.files.lookup p with
    | none => .error noSuchFile
    | some old => .ok { w with files := w.files.insert p (b ++ old.drop b.length) }
  rename p q w :=
    match w.files.lookup p with
    | none => .error noSuchFile
    | some b =>
      if q ∈ w.dirs then
        .error "file exists"
      else if q.parent ∈ w.dirs then
        .ok { w with files := (w.files.erase p).insert q b }
      else
        .error noSuchFile
  read p w := .ok (w.files.lookup p)
  syncDir p w := if p ∈ w.dirs then .ok w else .error noSuchFile

def tsmFileExtension : FileName := "tsm".toList
def tmpExt           : FileName := ".tmp".toList

-- `%09d`
def pad9 (n : Nat) : FileName :=
  let s := Decimal.formatUint n
  List.replicate (9 - s.length) '0' ++ s

def tsmFileName (generation sequence : Nat) : FileName :=
  pad9 generation ++ ['-'] ++ pad9 sequence ++ ['.'] ++ tsmFileExtension

-- The name of the file of tombstones next to a file.
def tombstonePath (p : Path) : Path :=
  match p.elems.getLast? with
  | none => p
  | some l =>
    if "tombstone".toList <:+ l then
      p
    else
      -- The extension starts at the last dot.
      let stem := ((l.reverse.dropWhile (· ≠ '.')).drop 1).reverse
      let stem := if '.' ∈ l then stem else l
      { p with elems := p.elems.dropLast ++ [stem ++ ".tombstone".toList] }

section Overlay

variable {σ : Type} (F : Fs σ)

def call (f : σ → Except String σ) (effects : List Effect) : ShardM σ Unit := fun s =>
  match f s.disk with
  | .ok disk => .ok () { s with disk := disk, effects := s.effects ++ effects }
  | .error e => .error (.error e) s

def nextGeneration : ShardM σ Nat := fun s =>
  .ok (s.currentGeneration + 1) { s with currentGeneration := s.currentGeneration + 1 }

-- Where the member goes, relative to the directory of the shard.
def destination (basePath : List Char) (asNew : Bool) (hdr : Member) : ShardM σ Path :=
  match Filepath.rel (Filepath.clean basePath) (Filepath.clean hdr.name) with
  | none          => throw (.error "Rel: can't make path relative")
  | some filename =>
    if asNew then do
      let generation ← nextGeneration
      return { rooted := false, elems := [tsmFileName generation 1] }
    else
      return filename

-- The member and the temporary file that it has been copied to. A member is skipped if its name
-- does not start with the text of the base path.
def readFileFromBackup (path : Path) (basePath : List Char) (asNew : Bool) (hdr : Member) :
    ShardM σ (Option (List Char × Path)) :=
  if basePath <+: hdr.name then do
    let filename ← destination basePath asNew hdr
    let tmp := (path.join filename).addExt tmpExt
    call (F.create tmp) [.create hdr.name tmp]
    call (F.copy tmp hdr.data) []
    return some (hdr.name, tmp)
  else
    return none

variable (fs : FixedSearch) (format : TombstoneFormat)

def readFile (p : Path) : ShardM σ (Option Bytes) := fun s =>
  match F.read p s.disk with
  | .ok b => .ok b s
  | .error e => .error (.error e) s

def ofGo (x : Go α) : ShardM σ α := fun s =>
  match x with
  | .ok a => .ok a s
  | .error e => .error e s

-- `NewTSMReader`. The tombstones are looked for when the index is open.
def openTSM (p : Path) : ShardM σ TSMReader := do
  match ← readFile F p with
  | none => throw (.error noSuchFile)
  | some b =>
    let index ← ofGo (TSMReader.openIndex b)
    let file ← readFile F (tombstonePath p)
    let (index, tombstones) ← ofGo (Tombstoner.applyFile format fs index file)
    return { b, index, tombstones }

def installFile (file : List Char × Path) : ShardM σ TSMFile := do
  let newName := file.2.dropExt tmpExt.length
  call (F.rename file.2 newName) [.rename file.1 file.2 newName]
  return { path := newName, reader := ← openTSM F fs format newName }

-- `Replace` without old files
def replace (path : Path) (newFiles : List (List Char × Path)) : ShardM σ Unit :=
  if newFiles = [] then
    return ()
  else do
    let updated ← newFiles.mapM (installFile F fs format)
    call (F.syncDir path) []
    modify fun s => { s with
      files := (updated ++ s.files).insertionSort fun a b => a.path.str ≤ b.path.str }

-- The keys of the new files are added to the index, which may refuse them.
def loadKeys (index : List TSMReader → Option String) (newFiles : List (List Char × Path)) :
    ShardM σ Unit := do
  let readers ← newFiles.mapM fun file =>
    openTSM F fs format (file.2.dropExt tmpExt.length)
  ofGo (Go.ofError (index readers))

def overlay (index : List TSMReader → Option String) (path : Path) (archive : List Member)
    (basePath : List Char) (asNew : Bool) : ShardM σ Unit := do
  let newFiles ← archive.mapM (readFileFromBackup F path basePath asNew)
  let newFiles := newFiles.reduceOption
  call (F.syncDir path) []
  replace F fs format path newFiles
  loadKeys F fs format index newFiles

end Overlay

structure BasePath where
  db : FileName
  rp : FileName
  id : FileName
  plain : ∀ e ∈ [db, rp, id], Filepath.Plain e ∧ Filepath.separator ∉ e

namespace BasePath

def str (base : BasePath) : List Char :=
  base.db ++ Filepath.separator :: (base.rp ++ Filepath.separator :: base.id)

def path (base : BasePath) : Path where
  rooted := false
  elems := [base.db, base.rp, base.id]

end BasePath

-- Nothing outside of the directory is touched, and a file is installed for a member of the shard.
def Effect.Confined (dir base : Path) : Effect → Prop
  | create _ p => p.Below dir
  | rename m p q => p.Below dir ∧ q.Below dir ∧ (Filepath.clean m).Below base

instance : DecidablePred (Effect.Confined dir base)
  | .create .. => inferInstanceAs (Decidable (Path.Below _ _))
  | .rename .. => inferInstanceAs (Decidable (_ ∧ _ ∧ _))

end Tsm1
