import Myts.Tsm1.Backup

-- The archive that is written for a shard.
namespace Tsm1

open Bytes Go
open Filepath (Path)

-- `NewTSMReader` of a file and the file of its tombstones
def TSMReader.ofFiles (fs : FixedSearch) (format : TombstoneFormat) (b : Bytes)
    (file : Option Bytes) : Go TSMReader := do
  let index ← TSMReader.openIndex b
  let (index, tombstones) ← Tombstoner.applyFile format fs index file
  return { b, index, tombstones }

-- A file in the directory of a snapshot, which may have directories itself.
structure SnapshotFile where
  path : List FileName
  data : Bytes
  modTime : Nat

-- The elements of the path are names.
structure SnapshotFile.Named (f : SnapshotFile) : Prop where
  ne_nil : f.path ≠ []
  names : ∀ e ∈ f.path, Filepath.Plain e ∧ Filepath.separator ∉ e

-- A file of the file store, with its tombstones.
structure SourceFile (fs : FixedSearch) (format : TombstoneFormat) where
  stem : FileName
  data : Bytes
  modTime : Nat
  tombstones : Option Bytes
  tombstoneModTime : Nat
  reader : TSMReader
  isName : Filepath.separator ∉ stem
  opens : TSMReader.ofFiles fs format data tombstones = .ok reader
  -- A file of tombstones does not start like a TSM file.
  notTSM : ∀ b ∈ tombstones, Tombstoner.header b ≠ magicNumber

namespace SourceFile

variable {fs : FixedSearch} {format : TombstoneFormat} (f : SourceFile fs format)

def name : FileName :=
  f.stem ++ ['.'] ++ tsmFileExtension

def tombstoneName : FileName :=
  f.stem ++ ".tombstone".toList

def links : List SnapshotFile :=
  { path := [f.name], data := f.data, modTime := f.modTime } ::
    f.tombstones.toList.map fun b =>
      { path := [f.tombstoneName], data := b, modTime := f.tombstoneModTime }

end SourceFile

-- The files of a file store are sorted by their names.
structure Source (fs : FixedSearch) (format : TombstoneFormat) where
  files : List (SourceFile fs format)
  sorted : files.Pairwise (·.name < ·.name)

-- Together with what the index has put into a directory of its own.
def Source.createSnapshot (source : Source fs format) (index : List SnapshotFile) :
    List SnapshotFile :=
  source.files.flatMap (·.links) ++ index

def writeFileToBackup (base : BasePath) (f : SnapshotFile) : Member where
  name := (base.path.join { rooted := false, elems := f.path }).str
  data := f.data

-- The files are written in the order in which the directory lists them.
def backup (base : BasePath) (since : Nat) (files : List SnapshotFile) : List Member :=
  (files.filter (since < ·.modTime)).map (writeFileToBackup base)

def emptyShard (dir : Path) : Shard World where
  disk := { dirs := [dir], files := ∅ }
  effects := []
  currentGeneration := 0
  files := []

-- The archive is restored, and every key reads the same values from the files.
def Reproduces (source : Source fs format) (index : List TSMReader → Option String) (dir : Path)
    (base : BasePath) (archive : List Member) : Prop :=
  ∃ s, overlay posix fs format index dir archive base.str false (emptyShard dir) = .ok () s ∧
    ∀ codec k, s.files.map (·.reader.readAll codec fs k) =
      source.files.map (·.reader.readAll codec fs k)

end Tsm1
