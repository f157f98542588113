import Myts.Lib.Decimal

namespace Tsm1.Replacing

abbrev Path := List Char

def tmpExt : Path := ['.', 't', 'm', 'p']

-- The operations that can fail. Those on a reader name its position among all readers and the path
-- that it has at the time.
inductive Op
  | renameNew (i : Nat)
  | openNew (i : Nat)
  | newReader (i : Nat)
  | munmap (j : Nat) (path : Path)
  | closeFile (j : Nat) (path : Path)
  | munmapIndex (j : Nat) (path : Path)
  | deleteTombstones (j : Nat) (path : Path)
  | renameFile (j : Nat) (path : Path)
  | reopen (j : Nat) (path : Path)
  | seek (j : Nat) (path : Path)
  | stat (j : Nat) (path : Path)
  | mmap (j : Nat) (path : Path)
  | removeAll (j : Nat) (path removed : Path)
  | syncDir
  deriving DecidableEq

-- A reader serves what it has mapped, whatever happens to the name of its file.
structure Reader (D : Type) where
  path : Path
  content : D
  tombstones : List Path
  inUse : Bool
  mapped : Bool
  -- The index points to the bytes that are mapped.
  indexed : Bool
  deriving DecidableEq

variable {D : Type}

namespace Reader

variable (fails : Op → Bool) (j : Nat)

def Readable (x : Reader D) : Prop :=
  x.mapped ∧ x.indexed

instance : DecidablePred (Readable (D := D)) :=
  fun _ => inferInstanceAs (Decidable (_ ∧ _))

-- `accessor.rename`. The file is mapped again under its new name, but the index stays where it is.
def rename (target : Path) (x : Reader D) : Option Op × Reader D :=
  if fails (.munmap j x.path) then (some (.munmap j x.path), x)
  else
    match [.closeFile j x.path, .renameFile j x.path, .reopen j x.path].find? fails with
    | some op => (some op, { x with mapped := false, indexed := false })
    | none =>
      match [.seek j x.path, .stat j x.path, .mmap j x.path].find? fails with
      | some op => (some op, { x with path := target, mapped := false, indexed := false })
      | none => (none, { x with path := target, mapped := true, indexed := false })

def close (x : Reader D) : Option Op × Reader D :=
  if x.mapped && fails (.munmap j x.path) then (some (.munmap j x.path), x)
  else if x.mapped && fails (.closeFile j x.path) then
    (some (.closeFile j x.path), { x with mapped := false })
  else ([.munmapIndex j x.path].find? fails, { x with mapped := false })

-- `TSMReader.Remove`. An error of the removal of the file itself is ignored.
def remove (x : Reader D) : Option Op :=
  [.deleteTombstones j x.path].find? fails

-- The loop over the old files for one reader: the error, whether the reader is kept and what has
-- become of it.
def prune : List Path → Reader D → Option Op × Bool × Reader D
  | [], x => (none, true, x)
  | r :: old, x =>
    if r = x.path then
      if x.inUse then
        let deletes := x.tombstones ++ [x.path]
        match x.rename fails j (x.path ++ tmpExt) with
        | (some op, x') => (some op, false, x')
        | (none, x') =>
          match (deletes.map (.removeAll j x.path)).find? fails with
          | some op => (some op, false, x')
          | none =>
            let (e, _, x'') := prune old x'
            (e, false, x'')
      else
        match x.close fails j with
        | (some op, x) => (some op, false, x)
        | (none, x) => (x.remove fails j, false, x)
    else prune old x

end Reader

-- The readers in their order, up to the first error.
def prune (fails : Op → Bool) (old : List Path) :
    Nat → List (Reader D) → Option Op × List (Bool × Reader D)
  | _, [] => (none, [])
  | j, x :: xs =>
    match x.prune fails j old with
    | (some op, keep, x) => (some op, (keep, x) :: xs.map (true, ·))
    | (none, keep, x) =>
      let (e, xs) := prune fails old (j + 1) xs
      (e, (keep, x) :: xs)

-- The new TSM files have a tmp extension.
def newName (file : Path) : Path :=
  if tmpExt <:+ file then file.take (file.length - 4) else file

-- The operations that make a new file live.
def loading (i : Nat) (file : Path) : List Op :=
  (if tmpExt <:+ file then [.renameNew i] else []) ++ [.openNew i, .newReader i]

def opened (contents : Path → D) (file : Path) : Reader D where
  path := newName file
  content := contents file
  tombstones := []
  inUse := false
  mapped := true
  indexed := true

def load (contents : Path → D) (fails : Op → Bool) : Nat → List Path → Except Op (List (Reader D))
  | _, [] => .ok []
  | i, file :: fs =>
    match (loading i file).find? fails with
    | some op => .error op
    | none => (opened contents file :: ·) <$> load contents fails (i + 1) fs

structure FileStore (D : Type) where
  files : List (Reader D)

namespace FileStore

def replace (contents : Path → D) (fails : Op → Bool) (oldFiles newFiles : List Path)
    (f : FileStore D) : Option Op × FileStore D :=
  if oldFiles = [] ∧ newFiles = [] then (none, f)
  else
    match load contents fails 0 newFiles with
    | .error op => (some op, f)
    | .ok updated =>
      let (e, xs) := prune fails oldFiles 0 (updated ++ f.files)
      -- The readers of the store are the last ones.
      let files := (xs.drop updated.length).map Prod.snd
      match e with
      | some op => (some op, { f with files })
      | none =>
        if fails .syncDir then (some .syncDir, { f with files })
        else
          let active := (xs.filter Prod.fst).map Prod.snd
          (none, { f with files := active.insertionSort (·.path ≤ ·.path) })

-- Active files are open and sorted by path.
structure Valid (f : FileStore D) : Prop where
  readable : ∀ x ∈ f.files, x.Readable
  sorted : f.files.Pairwise (·.path < ·.path)

def AllOrNothing (contents : Path → D) (fails : Op → Bool) (oldFiles newFiles : List Path)
    (f : FileStore D) : Prop :=
  match f.replace contents fails oldFiles newFiles with
  | (none, f') =>
    f'.files.Perm (f.files.filter (·.path ∉ oldFiles) ++ newFiles.map (opened contents)) ∧
      f'.files.Pairwise (·.path < ·.path)
  | (some _, f') =>
    f'.files.map Reader.content = f.files.map Reader.content ∧ ∀ x ∈ f'.files, x.Readable

end FileStore

-- The paths under which the loop over the old files comes to a reader in use.
def names : List Path → Path → List Path
  | [], _ => []
  | r :: old, p => if r = p then p :: names old (p ++ tmpExt) else names old p

namespace Reader

variable (fails : Op → Bool) (j : Nat) (old : List Path) (x : Reader D)

-- The operations on a reader while none fails.
def renameScript (p : Path) : List Op :=
  [.munmap j p, .closeFile j p, .renameFile j p, .reopen j p, .seek j p, .stat j p, .mmap j p] ++
    (x.tombstones ++ [p]).map (.removeAll j p)

def script : List Op :=
  if x.inUse then (names old x.path).flatMap (x.renameScript j)
  else if x.path ∈ old then
    [.munmap j x.path, .closeFile j x.path, .munmapIndex j x.path, .deleteTombstones j x.path]
  else []

def Succeeds : Prop :=
  ∀ op ∈ x.script j old, ¬fails op

-- An old file stays readable if it cannot even be unmapped.
def Spared : Prop :=
  x.path ∈ old → fails (.munmap j x.path)

end Reader

namespace FileStore

variable (contents : Path → D) (fails : Op → Bool) (oldFiles newFiles : List Path)
variable (f : FileStore D)

def readers : List (Reader D) :=
  newFiles.map (opened contents) ++ f.files

def Loads : Prop :=
  ∀ i, ∀ file ∈ newFiles[i]?, ∀ op ∈ loading i file, ¬fails op

def SucceedsUntil (j : Nat) : Prop :=
  ∀ i < j, ∀ x ∈ (f.readers contents newFiles)[i]?, Reader.Succeeds fails i oldFiles x

def Completes : Prop :=
  (∀ i, ∀ x ∈ (f.readers contents newFiles)[i]?, Reader.Succeeds fails i oldFiles x) ∧
    ¬fails .syncDir

-- Each file of the store that is come to stays readable.
def Harmless : Prop :=
  ∀ j, newFiles.length ≤ j → ∀ x ∈ (f.readers contents newFiles)[j]?,
    f.SucceedsUntil contents fails oldFiles newFiles j → Reader.Spared fails j oldFiles x

def Distinct : Prop :=
  (∀ file ∈ newFiles, newName file ∉ oldFiles) ∧
    (newFiles.map newName ++ (f.files.map Reader.path).filter (· ∉ oldFiles)).Nodup

def Replaceable : Prop :=
  Loads fails newFiles →
    (f.Completes contents fails oldFiles newFiles → f.Distinct oldFiles newFiles) ∧
    (¬f.Completes contents fails oldFiles newFiles → f.Harmless contents fails oldFiles newFiles)

end FileStore

end Tsm1.Replacing
