import Myts.Lib.Bytes

@[ext]
structure File where
  content : Bytes
  offset : Nat
deriving DecidableEq

namespace File

def seekStart (f : File) (pos : Int) : Option File :=
  if pos < 0 then none else some { f with offset := pos.toNat }

def seekEnd (f : File) (pos : Int) : Option File :=
  f.seekStart (f.content.length + pos)

def write (f : File) (b : Bytes) : File where
  content :=
    f.content.take f.offset ++ .replicate (f.offset - f.content.length) 0 ++ b ++
    f.content.drop (f.offset + b.length)
  offset := f.offset + b.length

def read (f : File) (n : Nat) : Bytes × File :=
  let b := f.content.drop f.offset |>.take n
  (b, { f with offset := f.offset + b.length })

variable {pre b post : Bytes} {o : Nat}

theorem seekStart_of_nat (f : File) (n : Nat) : f.seekStart n = some { f with offset := n } := by
  simp [seekStart]

theorem seekEnd_append (h : post.length = n) :
    (File.mk (pre ++ post) o).seekEnd (-n) = some ⟨pre ++ post, pre.length⟩ := by
  have hp : ((pre ++ post).length : Int) + -n = pre.length := by
    simp only [List.length_append, h]
    omega
  simp only [seekEnd, hp, seekStart_of_nat]

theorem write_append :
    (File.mk (pre ++ post) pre.length).write b =
      ⟨pre ++ b ++ post.drop b.length, pre.length + b.length⟩ := by
  simp [write]

theorem read_append (h : b.length = n) :
    (File.mk (pre ++ (b ++ post)) pre.length).read n =
      (b, ⟨pre ++ (b ++ post), pre.length + n⟩) := by
  simp [read, ← h]

end File
