import Myts.Lib.Bytes
import Myts.Lib.Decimal

open List

structure DirEntry where
  name : FileName
  isDir : Bool
  content : Bytes
deriving DecidableEq

abbrev Directory := List DirEntry

namespace Directory

def readDir (d : Directory) : List DirEntry :=
  d.insertionSort (·.name.lexLe ·.name)

def openFile (d : Directory) (n : FileName) : Bytes × Directory :=
  match d.find? (·.name = n) with
  | some e => (e.content, d)
  | none => ([], d ++ [⟨n, false, []⟩])

def write (d : Directory) (n : FileName) (c : Bytes) : Directory :=
  d.map fun e => if e.name = n then { e with content := c } else e

def remove (d : Directory) (n : FileName) : Directory :=
  d.filter (·.name ≠ n)

variable {d d' : Directory} {n : FileName} {c : Bytes}

@[simp]
theorem write_append : (d ++ d').write n c = d.write n c ++ d'.write n c :=
  map_append

theorem write_cons {e : DirEntry} :
    write (e :: d) n c = (if e.name = n then { e with content := c } else e) :: d.write n c :=
  rfl

theorem write_of_notMem (h : ∀ e ∈ d, e.name ≠ n) : d.write n c = d := by
  have hi : ∀ e ∈ d, (if e.name = n then { e with content := c } else e) = id e :=
    fun e he => if_neg <| h e he
  rw [write, map_congr_left hi, map_id]

theorem write_singleton {e : DirEntry} (h : e.name = n) :
    write [e] n c = [{ e with content := c }] := by
  simp [write, h]

theorem openFile_of_notMem (h : ∀ e ∈ d, e.name ≠ n) :
    d.openFile n = ([], d ++ [⟨n, false, []⟩]) := by
  have hn : d.find? (·.name = n) = none := by simpa using h
  simp [openFile, hn]

theorem openFile_of_mem {e : DirEntry} (h : e ∈ d) (hd : (d.map (·.name)).Nodup) :
    d.openFile e.name = (e.content, d) := by
  have ⟨e', he'⟩ : ∃ e', d.find? (·.name = e.name) = some e' :=
    Option.isSome_iff_exists.mp <| by simpa using ⟨e, h, rfl⟩
  have hn : e'.name = e.name := by simpa using find?_some he'
  cases inj_on_of_nodup_map hd (mem_of_find?_eq_some he') h hn
  simp [openFile, he']

theorem write_of_mem {e : DirEntry} (h : e ∈ d) (hd : (d.map (·.name)).Nodup) :
    d.write e.name e.content = d := by
  have hi : ∀ e' ∈ d, (if e'.name = e.name then { e' with content := e.content } else e') = id e' := by
    intro e' he'
    split
    case isTrue hn => cases inj_on_of_nodup_map hd he' h hn; rfl
    case isFalse => rfl
  rw [write, map_congr_left hi, map_id]

theorem remove_cons {e : DirEntry} (h : e.name = n) (hd : ∀ e ∈ d, e.name ≠ n) :
    remove (e :: d) n = d := by
  simp only [remove, filter_cons, h, ne_eq, not_true_eq_false, decide_false]
  simpa using hd

theorem readDir_of_sorted (h : d.Pairwise (·.name.lexLe ·.name)) : d.readDir = d :=
  h.insertionSort_eq

theorem mem_readDir {e : DirEntry} : e ∈ d.readDir ↔ e ∈ d :=
  mem_insertionSort _

end Directory
