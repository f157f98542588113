import Myts.Lib.Bytes

open List

-- Arrays of bytes, some of which can be taken from a pool. An array has its capacity as its length,
-- and it keeps its bytes when it goes to the pool and when it is taken from there.
structure BufferPool where
  arrays : List Bytes
  free : List Nat
deriving DecidableEq

namespace BufferPool

def bytes (p : BufferPool) (a : Nat) : Bytes :=
  p.arrays[a]?.getD []

def alloc (p : BufferPool) (b : Bytes) : Nat × BufferPool :=
  (p.arrays.length, { p with arrays := p.arrays ++ [b] })

def get (p : BufferPool) (size : Nat) : Option Nat → Nat × BufferPool
  | none => p.alloc (List.replicate size 0)
  | some a =>
    if a ∈ p.free then
      let p := { p with free := p.free.erase a }
      if (p.bytes a).length < size then p.alloc (List.replicate size 0) else (a, p)
    else
      p.alloc (List.replicate size 0)

def put (p : BufferPool) (a : Nat) : BufferPool :=
  { p with free := a :: p.free }

def write (p : BufferPool) (a : Nat) (b : Bytes) : BufferPool :=
  { p with arrays := p.arrays.modify a fun x => b.take x.length ++ x.drop b.length }

def drop (p : BufferPool) (a : Nat) : BufferPool :=
  { p with free := p.free.erase a }

structure Valid (p : BufferPool) : Prop where
  nodup : p.free.Nodup
  lt : a ∈ p.free → a < p.arrays.length

structure Got (p : BufferPool) (choice : Option Nat) (a : Nat) (p' : BufferPool) : Prop where
  valid : p'.Valid
  le : p.arrays.length ≤ p'.arrays.length
  lt : a < p'.arrays.length
  notMem : a ∉ p'.free
  free : x ∈ p'.free → x ∈ p.free
  bytes : x < p.arrays.length → p'.bytes x = p.bytes x
  taken : a = p.arrays.length ∨ a ∈ p.free ∧ choice = some a

variable {p : BufferPool}

@[simp]
theorem bytes_put : (p.put a).bytes x = p.bytes x :=
  rfl

@[simp]
theorem bytes_drop : (p.drop a).bytes x = p.bytes x :=
  rfl

@[simp]
theorem length_write : (p.write a b).arrays.length = p.arrays.length :=
  length_modify ..

@[simp]
theorem free_write : (p.write a b).free = p.free :=
  rfl

theorem bytes_write_of_ne (h : x ≠ a) : (p.write a b).bytes x = p.bytes x := by
  simp [bytes, write, Ne.symm h]

theorem take_bytes_write (ha : a < p.arrays.length) (hb : b.length ≤ (p.bytes a).length) :
    ((p.write a b).bytes a).take b.length = b := by
  have hw : (p.write a b).bytes a = b.take (p.bytes a).length ++ (p.bytes a).drop b.length := by
    simp [bytes, write, getElem?_eq_getElem ha]
  rw [hw, take_of_length_le hb, List.take_left]

@[simp]
theorem length_alloc : (p.alloc b).2.arrays.length = p.arrays.length + 1 :=
  length_append

theorem bytes_alloc_of_lt (h : x < p.arrays.length) : (p.alloc b).2.bytes x = p.bytes x := by
  rw [bytes, bytes, alloc, getElem?_append_left h]

theorem bytes_alloc : (p.alloc b).2.bytes p.arrays.length = b := by
  simp [bytes, alloc]

namespace Valid

theorem write (h : p.Valid) : (p.write a b).Valid where
  nodup := h.nodup
  lt hx := (h.lt hx).trans_eq length_write.symm

theorem drop (h : p.Valid) : (p.drop a).Valid where
  nodup := h.nodup.erase _
  lt hx := h.lt <| mem_of_mem_erase hx

theorem put (h : p.Valid) (ha : a < p.arrays.length) (hf : a ∉ p.free) : (p.put a).Valid where
  nodup := nodup_cons.mpr ⟨hf, h.nodup⟩
  lt hx := by
    rcases mem_cons.mp hx with rfl | hx
    · exact ha
    · exact h.lt hx

theorem alloc (h : p.Valid) : (p.alloc b).2.Valid where
  nodup := h.nodup
  lt hx := (Nat.lt_succ_of_lt (h.lt hx)).trans_eq length_alloc.symm

end Valid

theorem got_alloc (h : p.Valid) : p.Got choice (p.alloc b).1 (p.alloc b).2 where
  valid := h.alloc
  le := length_alloc ▸ Nat.le_succ _
  lt := length_alloc ▸ Nat.lt_succ_self _
  notMem hx := Nat.lt_irrefl _ <| h.lt hx
  free := id
  bytes := bytes_alloc_of_lt
  taken := .inl rfl

theorem got_get (size : Nat) (choice : Option Nat) (h : p.Valid) :
    p.Got choice (p.get size choice).1 (p.get size choice).2 := by
  cases choice
  case none => exact got_alloc h
  case some a =>
    rw [get]
    split
    case isFalse => exact got_alloc h
    case isTrue ha =>
      have hd : { p with free := p.free.erase a }.Valid := h.drop
      dsimp only
      split
      case isTrue =>
        have hg : Got _ (some a) _ _ := got_alloc (b := List.replicate size 0) hd
        exact { hg with
          free := fun hx => mem_of_mem_erase <| hg.free hx
          taken := .inl rfl }
      case isFalse =>
        exact {
          valid := hd
          le := le_rfl
          lt := h.lt ha
          notMem := h.nodup.not_mem_erase
          free := mem_of_mem_erase
          bytes := fun _ => rfl
          taken := .inr ⟨ha, rfl⟩ }

theorem le_length_get : size ≤ ((p.get size choice).2.bytes (p.get size choice).1).length := by
  have ha {p : BufferPool} : size ≤
      ((p.alloc (List.replicate size 0)).2.bytes (p.alloc (List.replicate size 0)).1).length :=
    (congrArg List.length bytes_alloc).trans length_replicate |>.ge
  cases choice
  case none => exact ha
  case some a =>
    rw [get]
    split
    case isFalse => exact ha
    case isTrue =>
      dsimp only
      split
      case isTrue => exact ha
      case isFalse hlt => exact not_lt.mp hlt

end BufferPool
