import Myts.Lib.Bytes

open List

-- The wire format of protocol buffers: a message is a sequence of numbered fields.
namespace Wire

open Bytes

inductive Value
  | varint (n : UInt64)
  | fixed64 (n : UInt64)
  | bytes (b : Bytes)

namespace Value

def type : Value → Nat
  | varint _ => 0
  | fixed64 _ => 1
  | bytes _ => 2

def put : Value → Bytes
  | varint n => putUvarint n.toNat
  | fixed64 n => (putUint64 n.toNat).reverse
  | bytes b => putUvarint b.length ++ b

def read (type : Nat) (b : Bytes) : Option (Value × Bytes) :=
  match type with
  | 0 => (readUvarint b).map fun (n, b) => (varint (.ofNat n), b)
  | 1 =>
    if 8 ≤ b.length then
      some (fixed64 (.ofNat (uint64 (b.take 8).reverse)), b.drop 8)
    else
      none
  | 2 => do
    let (n, b) ← readUvarint b
    if n ≤ b.length then some (bytes (b.take n), b.drop n) else none
  | _ => none

theorem read_put (v : Value) (b : Bytes) : read v.type (v.put ++ b) = some (v, b) := by
  cases v
  case varint n => simp [type, put, read, readUvarint_putUvarint]
  case fixed64 n =>
    have hl : (putUint64 n.toNat).reverse.length = 8 := by simp
    simp [type, put, read, take_left' hl, drop_left' hl, ofNat_uint64_putUint64]
  case bytes c => simp [type, put, read, append_assoc, readUvarint_putUvarint]

end Value

structure Field where
  number : Nat
  value : Value

def Field.put (f : Field) : Bytes :=
  putUvarint (f.number * 8 + f.value.type) ++ f.value.put

def put (fs : List Field) : Bytes :=
  fs.flatMap (·.put)

def read (b : Bytes) : Option (List Field) :=
  go b.length b
where
  go : (fuel : Nat) → Bytes → Option (List Field)
    | 0, _ => some []
    | fuel + 1, b =>
      if b = [] then
        some []
      else do
        let (tag, b) ← readUvarint b
        let (value, b) ← Value.read (tag % 8) b
        return { number := tag / 8, value } :: (← go fuel b)

theorem Field.length_put_pos (f : Field) : 0 < f.put.length := by
  have h := readUvarint_putUvarint (f.number * 8 + f.value.type) []
  rw [put, length_append]
  refine Nat.add_pos_left (length_pos_iff.mpr fun hn => ?_) _
  rw [hn] at h
  cases h

theorem Value.type_lt (v : Value) : v.type < 8 := by
  cases v <;> simp [type]

theorem read_put (fs : List Field) : read (put fs) = some fs := by
  suffices h : ∀ fuel, (put fs).length ≤ fuel → read.go fuel (put fs) = some fs from h _ le_rfl
  induction fs
  case nil => intro fuel _; cases fuel <;> rfl
  case cons f fs hi =>
    intro fuel hf
    have hl := f.length_put_pos
    have hv := f.value.type_lt
    rw [put, flatMap_cons, ← put] at hf ⊢
    rw [length_append] at hf
    obtain ⟨fuel, rfl⟩ := Nat.exists_eq_succ_of_ne_zero (n := fuel) (by omega)
    have hne : f.put ++ put fs ≠ [] := by simp [length_pos_iff.mp hl]
    rw [read.go, if_neg hne, Field.put, append_assoc, readUvarint_putUvarint]
    dsimp only [Option.bind_eq_bind, Option.bind_some]
    rw [show (f.number * 8 + f.value.type) % 8 = f.value.type by omega, Value.read_put]
    dsimp only [Option.bind_some]
    rw [hi fuel (by omega), show (f.number * 8 + f.value.type) / 8 = f.number by omega]
    rfl

structure Scalar (α : Type) where
  put : α → Value
  read : Value → Option α
  read_put : ∀ a, read (put a) = some a

structure Codec (α : Type) where
  put : α → List Field
  read : List Field → Option α
  read_put : ∀ a, read (put a) = some a

namespace Scalar

def varint (put : α → UInt64) (read : UInt64 → α) (h : ∀ a, read (put a) = a) : Scalar α where
  put a := .varint (put a)
  read
    | .varint n => some (read n)
    | _ => none
  read_put a := congrArg some (h a)

def uint64 : Scalar UInt64 :=
  varint id id fun _ => rfl

def int64 : Scalar Int64 :=
  varint (·.toUInt64) (·.toInt64) fun _ => rfl

def int32 : Scalar Int32 :=
  varint (·.toInt64.toUInt64) (·.toInt64.toInt32) fun n => by simp

def bool : Scalar Bool :=
  varint (fun a => if a then 1 else 0) (· ≠ 0) fun a => by cases a <;> rfl

def double : Scalar UInt64 where
  put := .fixed64
  read
    | .fixed64 n => some n
    | _ => none
  read_put _ := rfl

def bytes : Scalar Bytes where
  put := .bytes
  read
    | .bytes b => some b
    | _ => none
  read_put _ := rfl

def string : Scalar String where
  put s := .bytes s.toByteArray.data.toList
  read
    | .bytes b => String.fromUTF8? ⟨b.toArray⟩
    | _ => none
  read_put s := dif_pos s.isValidUTF8

def message (c : Codec α) : Scalar α where
  put m := .bytes (Wire.put (c.put m))
  read
    | .bytes b => Wire.read b >>= c.read
    | _ => none
  read_put m := by
    dsimp only
    rw [Wire.read_put]
    exact c.read_put m

variable (s : Scalar α) (number : Nat)

def many (as : List α) : List Field :=
  as.map fun a => { number, value := s.put a }

def one (a : Option α) : List Field :=
  s.many number a.toList

def all (fs : List Field) : Option (List α) :=
  (fs.filter (·.number = number)).mapM (s.read ·.value)

def last (fs : List Field) : Option (Option α) :=
  (s.all number fs).map (·.getLast?)

variable {s number}

theorem mapM_many (as : List α) : (s.many number as).mapM (s.read ·.value) = some as := by
  induction as
  case nil => rfl
  case cons a as hi =>
    rw [many, map_cons, mapM_cons, s.read_put, ← many, hi]
    rfl

theorem filter_many (as : List α) :
    (s.many number' as).filter (·.number = number) =
      if number' = number then s.many number' as else [] := by
  split <;> simp_all [many]

@[simp]
theorem all_many (as : List α) : s.all number (s.many number as) = some as := by
  rw [all, filter_many, if_pos rfl, mapM_many]

@[simp]
theorem all_many_append (h : s.all number fs = some []) (as : List α) :
    s.all number (s.many number as ++ fs) = some as := by
  rw [all] at h ⊢
  rw [filter_append, mapM_append, h, filter_many, if_pos rfl, mapM_many]
  exact congrArg some (append_nil as)

@[simp]
theorem all_many_of_ne {s' : Scalar β} (h : number' ≠ number) (bs : List β) :
    s.all number (s'.many number' bs) = some [] := by
  rw [all, filter_many, if_neg h]
  rfl

theorem getLast?_toList (a : Option α) : a.toList.getLast? = a := by
  cases a <;> rfl

@[simp]
theorem all_many_append_of_ne {s' : Scalar β} (h : number' ≠ number) (bs : List β)
    (fs : List Field) : s.all number (s'.many number' bs ++ fs) = s.all number fs := by
  rw [all, all, filter_append, filter_many, if_neg h, nil_append]

end Scalar

end Wire
