import Myts.Hh.Segment

open List

namespace Hh

open Bytes EStateM

def record (b : Bytes) : Bytes :=
  putUint64 b.length ++ b

def records (bs : List Bytes) : Bytes :=
  bs.flatMap record

def layout (done todo : List Bytes) : Bytes :=
  records done ++ records todo ++ putUint64 (records done).length

@[simp]
theorem records_nil : records [] = [] :=
  rfl

@[simp]
theorem records_cons (b : Bytes) (bs : List Bytes) : records (b :: bs) = record b ++ records bs :=
  rfl

@[simp]
theorem records_append (as bs : List Bytes) : records (as ++ bs) = records as ++ records bs :=
  flatMap_append

@[simp]
theorem length_record (b : Bytes) : (record b).length = b.length + 8 := by
  simp [record, Nat.add_comm]

theorem length_layout (done todo : List Bytes) :
    (layout done todo).length = (records done).length + (records todo).length + 8 := by
  simp [layout, Nat.add_assoc]

theorem length_layout_advance (done todo : List Bytes) (b : Bytes) :
    (layout (done ++ [b]) todo).length = (layout done (b :: todo)).length := by
  simp [length_layout, Nat.add_comm, Nat.add_left_comm]

def nextSize (done todo : List Bytes) : Nat :=
  todo.head?.elim (records done).length List.length

theorem exists_layout_eq (done todo : List Bytes) :
    ∃ post, layout done todo = records done ++ (putUint64 (nextSize done todo) ++ post) := by
  cases todo
  case nil => exact ⟨[], by simp [layout, nextSize]⟩
  case cons b bs => exact ⟨_, by simp [layout, nextSize, record]; rfl⟩

theorem toInt64_of_lt {n : Nat} (h : n < 2 ^ 63) : toInt64 n = n :=
  if_pos h

theorem toUint64_natCast {n : Nat} (h : n < 2 ^ 63) : toUint64 n = n := by
  simp only [toUint64]
  omega

namespace Segment

variable {l : Segment} {done todo : List Bytes} {b : Bytes}

structure Holds (l : Segment) (done todo : List Bytes) : Prop where
  file : ∃ f, l.file = some f ∧ f.content = layout done todo
  size : l.size = (layout done todo).length
  pos : l.pos = (records done).length
  currentSize : l.currentSize = (todo.head?.elim 0 List.length : Nat)
  nonempty : ∀ b ∈ todo, b ≠ []
  fits : ∀ b ∈ todo, (b.length : Int) ≤ l.maxSize.toInt
  bounded : (layout done todo).length < 2 ^ 63 + 8

-- The lemmas about the primitives speak about a segment given by its fields, so that a method is
-- executed by rewriting with them from its first primitive to its last.
section

variable {sz ps cs : Int} {pa : FileName} {mx : Int64} {pre post : Bytes} {o n : Nat}

theorem withFile_run {f : File → Except Error (α × File)} {file : File} :
    (withFile f).run ⟨sz, some file, pa, ps, cs, mx⟩ = match f file with
      | .error e => .error e ⟨sz, some file, pa, ps, cs, mx⟩
      | .ok (a, file) => .ok a ⟨sz, some file, pa, ps, cs, mx⟩ := by
  simp only [withFile, run_bind, run_get]
  cases f file <;> rfl

theorem seek_run {c : Bytes} :
    (seek n).run ⟨sz, some ⟨c, o⟩, pa, ps, cs, mx⟩ = .ok () ⟨sz, some ⟨c, n⟩, pa, ps, cs, mx⟩ := by
  simp [seek, withFile_run, File.seekStart_of_nat]

theorem seekEnd_run :
    (seekEnd (-footerSize)).run ⟨sz, some ⟨layout done todo, o⟩, pa, ps, cs, mx⟩ =
      .ok () ⟨sz, some ⟨layout done todo, (records done ++ records todo).length⟩, pa, ps, cs, mx⟩
    := by
  have hs : (File.mk (layout done todo) o).seekEnd (-footerSize) =
      some ⟨layout done todo, (records done ++ records todo).length⟩ :=
    File.seekEnd_append (length_putUint64 _)
  simp only [seekEnd, withFile_run, hs]

theorem writeBytes_run :
    (writeBytes b).run ⟨sz, some ⟨pre ++ post, pre.length⟩, pa, ps, cs, mx⟩ =
      .ok () ⟨sz, some ⟨pre ++ b ++ post.drop b.length, (pre ++ b).length⟩, pa, ps, cs, mx⟩ := by
  simp [writeBytes, withFile_run, File.write_append]

theorem writeUint64_footer :
    (writeUint64 (records (done ++ [b])).length).run
      ⟨sz, some ⟨layout done (b :: todo), (records done ++ records (b :: todo)).length⟩, pa, ps, cs, mx⟩ =
      .ok () ⟨sz, some ⟨layout (done ++ [b]) todo, (layout (done ++ [b]) todo).length⟩, pa, ps, cs, mx⟩
    := by
  rw [layout, writeUint64, writeBytes_run]
  simp [layout]

theorem readBytes_run (hn : b.length = n) (ho : pre.length = o) :
    (readBytes n).run ⟨sz, some ⟨pre ++ (b ++ post), o⟩, pa, ps, cs, mx⟩ =
      .ok b ⟨sz, some ⟨pre ++ (b ++ post), o + n⟩, pa, ps, cs, mx⟩ := by
  subst hn ho
  simp [readBytes, withFile_run, File.read_append]

theorem readUint64_run (hn : n < 2 ^ 63) (ho : pre.length = o) :
    readUint64.run ⟨sz, some ⟨pre ++ (putUint64 n ++ post), o⟩, pa, ps, cs, mx⟩ =
      .ok n ⟨sz, some ⟨pre ++ (putUint64 n ++ post), o + 8⟩, pa, ps, cs, mx⟩ := by
  simp only [readUint64, ← bind_pure_comp, run_bind, readBytes_run (length_putUint64 n) ho,
    uint64_putUint64_of_lt (hn.trans (by decide))]
  rfl

theorem readUint64_footer (h : (records done).length < 2 ^ 63) :
    readUint64.run
      ⟨sz, some ⟨layout done todo, (records done ++ records todo).length⟩, pa, ps, cs, mx⟩ =
      .ok (records done).length
        ⟨sz, some ⟨layout done todo, (records done ++ records todo).length + 8⟩, pa, ps, cs, mx⟩ := by
  have hl : layout done todo =
      records done ++ records todo ++ (putUint64 (records done).length ++ []) := by
    simp [layout]
  rw [hl, readUint64_run h rfl]

theorem readUint64_current (h : nextSize done todo < 2 ^ 63) :
    readUint64.run ⟨sz, some ⟨layout done todo, (records done).length⟩, pa, ps, cs, mx⟩ =
      .ok (nextSize done todo)
        ⟨sz, some ⟨layout done todo, (records done).length + 8⟩, pa, ps, cs, mx⟩ := by
  obtain ⟨post, hl⟩ := exists_layout_eq done todo
  rw [hl, readUint64_run h rfl]

theorem readBytes_current :
    (readBytes b.length).run
      ⟨sz, some ⟨layout done (b :: todo), (records done).length + 8⟩, pa, ps, cs, mx⟩ =
      .ok b
        ⟨sz, some ⟨layout done (b :: todo), (records done).length + 8 + b.length⟩, pa, ps, cs, mx⟩ := by
  have hl : layout done (b :: todo) =
      records done ++ putUint64 b.length ++ (b ++ (records todo ++ putUint64 (records done).length))
    := by
    simp [layout, record]
  rw [hl, readBytes_run rfl (by simp)]

end

namespace Holds

theorem pos_lt (h : l.Holds done todo) : (records done).length < 2 ^ 63 := by
  have hb := h.bounded
  rw [length_layout] at hb
  omega

theorem length_lt (h : l.Holds done todo) (hb : b ∈ todo) : b.length < 2 ^ 63 := by
  have := h.fits b hb
  have := Int64.toInt_lt l.maxSize
  omega

theorem nextSize_lt (h : l.Holds done todo) : nextSize done todo < 2 ^ 63 := by
  cases todo
  case nil => exact h.pos_lt
  case cons => exact h.length_lt mem_cons_self

theorem drained_iff (h : l.Holds done todo) : l.pos = l.size - footerSize ↔ todo = [] := by
  rw [h.pos, h.size, length_layout, footerSize]
  cases todo
  case nil => simp
  case cons => simp; omega

theorem append_full (h : l.Holds done todo) (hf : l.size + b.length > l.maxSize.toInt) :
    (append b).run l = .error .segmentFull l := by
  obtain ⟨_, ho, -⟩ := h.file
  simp [append, ho, hf]

theorem append_fits (h : l.Holds done todo) (hb : b ≠ [])
    (hf : ¬(l.size + b.length > l.maxSize.toInt)) :
    ∃ l', (append b).run l = .ok () l' ∧ l'.Holds done (todo ++ [b]) ∧ l'.path = l.path ∧
      l'.maxSize = l.maxSize := by
  have hp := toUint64_natCast h.pos_lt
  have hm := Int64.toInt_lt l.maxSize
  obtain ⟨sz, file, pa, ps, cs, mx⟩ := l
  obtain ⟨⟨⟨_, o⟩, rfl, rfl⟩, rfl, rfl, rfl, hn, hx, hl⟩ := h
  dsimp only at hf hx hm
  simp only [append, run_bind, run_get, hf, Option.isNone_some,
    Bool.false_eq_true, if_false, seekEnd_run, writeUint64, hp]
  simp only [layout, writeBytes_run, run_modify]
  refine ⟨_, rfl, ⟨⟨_, rfl, ?file⟩, ?size, rfl, ?currentSize, ?nonempty, ?fits, ?bounded⟩, rfl, rfl⟩
  case file => simp [layout, record]
  case size => simp [layout]; omega
  case currentSize =>
    cases todo
    case nil => simp
    case cons c cs => simp [hn c]
  case nonempty =>
    intro c hc
    simp only [mem_append, mem_singleton] at hc
    exact hc.elim (hn c) (· ▸ hb)
  case fits =>
    intro c hc
    simp only [mem_append, mem_singleton] at hc
    cases hc
    case inl hc => exact hx c hc
    case inr hc => subst hc; dsimp only; omega
  case bounded =>
    simp only [length_layout, records_append, length_append, records_cons, records_nil,
      length_record, append_nil] at hf ⊢
    omega

theorem current_eof (h : l.Holds done []) : current.run l = .error .eof l := by
  have hd : l.pos = l.size - 8 := h.drained_iff.mpr rfl
  simp [current, hd]
  rfl

theorem current_ok (h : l.Holds done (b :: todo)) :
    ∃ l', current.run l = .ok b l' ∧ l'.Holds done (b :: todo) ∧ l'.path = l.path ∧
      l'.maxSize = l.maxSize := by
  have hd : ¬(l.pos = l.size - 8) := mt h.drained_iff.mp (by simp)
  have hk := h.nextSize_lt
  have hb := toInt64_of_lt <| h.length_lt mem_cons_self
  have hm := Int.not_lt.mpr <| h.fits b mem_cons_self
  obtain ⟨sz, file, pa, ps, cs, mx⟩ := l
  obtain ⟨⟨⟨_, o⟩, rfl, rfl⟩, rfl, rfl, rfl, hn, hx, hl⟩ := h
  dsimp only at hd hm
  have hz : nextSize done (b :: todo) = b.length := rfl
  simp only [current, run_bind, run_get, hd, if_false, seekToCurrent, seek_run,
    readUint64_current hk, hz, hb, run_modify, gt_iff_lt, hm,
    Int.not_lt.mpr (Int.natCast_nonneg _), readBytes_current]
  exact ⟨_, rfl, ⟨⟨_, rfl, rfl⟩, rfl, rfl, rfl, hn, hx, hl⟩, rfl, rfl⟩

theorem advance_eof (h : l.Holds done []) : advance.run l = .error .eof l := by
  have hd := h.drained_iff.mpr rfl
  obtain ⟨sz, file, pa, ps, cs, mx⟩ := l
  obtain ⟨⟨⟨_, o⟩, rfl, rfl⟩, rfl, rfl, rfl, -⟩ := h
  dsimp only at hd
  simp only [advance, run_bind, run_get, hd, if_true, Option.isNone_some,
    Bool.false_eq_true, if_false, run_set]
  rfl

theorem next (h : l.Holds done (b :: todo)) (l' : Segment)
    (hf : ∃ f, l'.file = some f ∧ f.content = layout (done ++ [b]) todo) (hs : l'.size = l.size)
    (hp : l'.pos = l.pos + l.currentSize + 8)
    (hc : l'.currentSize = (todo.head?.elim 0 List.length : Nat)) (hm : l'.maxSize = l.maxSize) :
    l'.Holds (done ++ [b]) todo where
  file := hf
  size := by rw [hs, h.size, length_layout_advance]
  pos := by rw [hp, h.pos, h.currentSize]; simp; omega
  currentSize := hc
  nonempty c := h.nonempty c ∘ mem_cons_of_mem _
  fits c := hm ▸ h.fits c ∘ mem_cons_of_mem _
  bounded := length_layout_advance .. ▸ h.bounded

theorem advance_cons (h : l.Holds done (b :: todo)) :
    ∃ l', advance.run l = (if todo = [] then .error .eof l' else .ok () l') ∧
      l'.Holds (done ++ [b]) todo ∧ l'.path = l.path ∧ l'.maxSize = l.maxSize := by
  have hd : ¬(l.pos = l.size - footerSize) := mt h.drained_iff.mp (by simp)
  have hp : l.pos + l.currentSize + 8 = (records (done ++ [b])).length := by
    rw [h.pos, h.currentSize]; simp; omega
  have hnext := h.next { l with
    file := some ⟨layout (done ++ [b]) todo, (records (done ++ [b])).length + 8⟩
    pos := l.pos + l.currentSize + 8
    currentSize := (todo.head?.elim 0 List.length : Nat)
  } ⟨_, rfl, rfl⟩ rfl rfl rfl rfl
  have hu := toUint64_natCast hnext.pos_lt
  have hz := hnext.nextSize_lt
  have he := hnext.drained_iff
  have hi := toInt64_of_lt hz
  obtain ⟨⟨_, o⟩, hf, rfl⟩ := h.file
  obtain ⟨sz, file, pa, ps, cs, mx⟩ := l
  dsimp only at hd hp hf he hnext
  subst hf
  simp only [advance, run_bind, run_get, hd, Option.isNone_some,
    Bool.false_eq_true, if_false, seekEnd_run, hp, hu, writeUint64_footer, run_modify,
    seekToCurrent, seek_run, readUint64_current hz, hi] at he ⊢
  refine ⟨_, ?_, hnext, rfl, rfl⟩
  cases todo
  case nil => rw [if_pos (he.mpr rfl), hp]; rfl
  case cons c cs => rw [if_neg (mt he.mp (by simp)), hp]; rfl

theorem advance (h : l.Holds done todo) :
    ∃ l', Segment.advance.run l = (if todo.drop 1 = [] then .error .eof l' else .ok () l') ∧
      l'.Holds (done ++ todo.take 1) (todo.drop 1) ∧ l'.path = l.path ∧ l'.maxSize = l.maxSize := by
  cases todo
  case nil => exact ⟨l, h.advance_eof, by simpa using h, rfl, rfl⟩
  case cons => exact h.advance_cons

theorem newSegment_empty (path : FileName) (maxSize : Int64) :
    ∃ l, Segment.newSegment path [] maxSize = .ok () l ∧ l.Holds [] [] ∧ l.path = path ∧
      l.maxSize = maxSize := by
  refine ⟨_, rfl, ⟨⟨_, rfl, rfl⟩, rfl, rfl, rfl, ?_, ?_, by decide⟩, rfl, rfl⟩ <;> simp

theorem newSegment (h : l.Holds done todo) (path : FileName) :
    ∃ l', Segment.newSegment path (layout done todo) l.maxSize = .ok () l' ∧
      l'.Holds done todo ∧ l'.path = path ∧ l'.maxSize = l.maxSize := by
  have hs : ((layout done todo).length : Int) ≠ 0 := by
    rw [length_layout]; omega
  have hi := toInt64_of_lt h.nextSize_lt
  simp only [Segment.newSegment, «open», run_bind, run_get, hs, if_false,
    seekEnd_run, readUint64_footer h.pos_lt, toInt64_of_lt h.pos_lt, run_modify,
    seekToCurrent, seek_run]
  cases todo
  case nil =>
    have hd : ¬(((records done).length : Int) < (layout done []).length - footerSize) := by
      simp [length_layout, footerSize]
    rw [if_neg hd]
    exact ⟨_, rfl, ⟨⟨_, rfl, rfl⟩, rfl, rfl, rfl, h.nonempty, h.fits, h.bounded⟩, rfl, rfl⟩
  case cons b todo =>
    have hd : ((records done).length : Int) < (layout done (b :: todo)).length - footerSize := by
      simp [length_layout, footerSize]; omega
    rw [if_pos hd]
    simp only [run_bind, readUint64_current h.nextSize_lt, run_modify, hi]
    exact ⟨_, rfl, ⟨⟨_, rfl, rfl⟩, rfl, rfl, rfl, h.nonempty, h.fits, h.bounded⟩, rfl, rfl⟩

end Holds
end Segment
end Hh
