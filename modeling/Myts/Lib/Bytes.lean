import Myts.Lib.Int64

open List

abbrev Bytes := List UInt8

instance UInt8.linearOrder : LinearOrder UInt8 where
  le_refl := UInt8.le_refl
  le_trans _ _ _ := UInt8.le_trans
  lt_iff_le_not_ge _ _ := by
    rw [UInt8.lt_iff_toNat_lt, UInt8.le_iff_toNat_le, UInt8.le_iff_toNat_le]
    omega
  le_antisymm _ _ := UInt8.le_antisymm
  le_total := UInt8.le_total
  toDecidableLE := inferInstance
  toDecidableLT := inferInstance
  toDecidableEq := inferInstance
  min := min
  max := max

instance UInt8.lawfulBEq : LawfulBEq UInt8 := inferInstance

instance Bytes.lawfulBEq : LawfulBEq Bytes := inferInstance

namespace Bytes

def putUint64 (n : Nat) : Bytes :=
  [56, 48, 40, 32, 24, 16, 8, 0].map fun s => UInt8.ofNat (n / 2 ^ s)

def uint64 (b : Bytes) : Nat :=
  b.foldl (fun n x => n * 256 + x.toNat) 0

@[simp]
theorem length_putUint64 (n : Nat) : (putUint64 n).length = 8 :=
  rfl

theorem uint64_putUint64 (n : Nat) : uint64 (putUint64 n) = n % 2 ^ 64 := by
  simp only [putUint64, uint64, map_cons, map_nil, foldl_cons, foldl_nil,
    UInt8.toNat_ofNat']
  omega

theorem uint64_putUint64_of_lt {n : Nat} (h : n < 2 ^ 64) : uint64 (putUint64 n) = n := by
  rw [uint64_putUint64, Nat.mod_eq_of_lt h]

theorem uint64_lt (b : Bytes) : uint64 b < 256 ^ b.length := by
  induction b using List.reverseRecOn
  case nil => simp [uint64]
  case append_singleton b x hi =>
    have hx := x.toNat_lt
    rw [uint64, foldl_append, length_append, pow_add]
    simp only [uint64] at hi
    simp only [foldl_cons, foldl_nil, length_singleton, pow_one]
    omega

def putUint16 (n : Nat) : Bytes :=
  [8, 0].map fun s => UInt8.ofNat (n / 2 ^ s)

def putUint32 (n : Nat) : Bytes :=
  [24, 16, 8, 0].map fun s => UInt8.ofNat (n / 2 ^ s)

def uint16 (b : Bytes) : Nat :=
  uint64 b

def uint32 (b : Bytes) : Nat :=
  uint64 b

@[simp]
theorem length_putUint16 (n : Nat) : (putUint16 n).length = 2 :=
  rfl

@[simp]
theorem length_putUint32 (n : Nat) : (putUint32 n).length = 4 :=
  rfl

theorem uint16_putUint16 (n : Nat) : uint16 (putUint16 n) = n % 2 ^ 16 := by
  simp only [putUint16, uint16, uint64, map_cons, map_nil, foldl_cons,
    foldl_nil, UInt8.toNat_ofNat']
  omega

theorem uint32_putUint32 (n : Nat) : uint32 (putUint32 n) = n % 2 ^ 32 := by
  simp only [putUint32, uint32, uint64, map_cons, map_nil, foldl_cons,
    foldl_nil, UInt8.toNat_ofNat']
  omega

def putInt64 (n : Int64) : Bytes :=
  putUint64 n.toUInt64.toNat

def int64 (b : Bytes) : Int64 :=
  (UInt64.ofNat (uint64 b)).toInt64

@[simp]
theorem length_putInt64 (n : Int64) : (putInt64 n).length = 8 :=
  rfl

theorem ofNat_uint64_putUint64 (n : UInt64) : UInt64.ofNat (uint64 (putUint64 n.toNat)) = n := by
  rw [uint64_putUint64_of_lt n.toNat_lt, UInt64.ofNat_toNat]

theorem int64_putInt64 (n : Int64) : int64 (putInt64 n) = n := by
  rw [int64, putInt64, ofNat_uint64_putUint64]
  rfl

def putUvarint (n : Nat) : Bytes :=
  go n n
where
  go : (fuel : Nat) → Nat → Bytes
    | 0, n => [.ofNat n]
    | fuel + 1, n => if n < 128 then [.ofNat n] else .ofNat (n % 128 + 128) :: go fuel (n / 128)

def readUvarint : Bytes → Option (Nat × Bytes)
  | [] => none
  | x :: b =>
    if x < 128 then
      some (x.toNat, b)
    else
      (readUvarint b).map fun (n, b) => (x.toNat - 128 + 128 * n, b)

theorem readUvarint_go {n : Nat} (h : n ≤ fuel) (b : Bytes) :
    readUvarint (putUvarint.go fuel n ++ b) = some (n, b) := by
  induction fuel generalizing n
  case zero =>
    cases Nat.le_zero.mp h
    rfl
  case succ fuel hi =>
    rw [putUvarint.go]
    split
    case isTrue hn =>
      have hx : (UInt8.ofNat n).toNat = n := by rw [UInt8.toNat_ofNat']; omega
      have hlt : UInt8.ofNat n < 128 := by
        rw [UInt8.lt_iff_toNat_lt, hx]
        exact hn
      rw [singleton_append, readUvarint, if_pos hlt, hx]
    case isFalse hn =>
      have hx : (UInt8.ofNat (n % 128 + 128)).toNat = n % 128 + 128 := by
        rw [UInt8.toNat_ofNat']
        omega
      have hlt : ¬UInt8.ofNat (n % 128 + 128) < 128 := by
        rw [UInt8.lt_iff_toNat_lt, hx]
        exact Nat.not_lt.mpr (Nat.le_add_left ..)
      rw [cons_append, readUvarint, if_neg hlt, hi (by omega), Option.map_some, hx,
        Nat.add_sub_cancel]
      dsimp only
      rw [Nat.mod_add_div]

theorem readUvarint_putUvarint (n : Nat) (b : Bytes) :
    readUvarint (putUvarint n ++ b) = some (n, b) :=
  readUvarint_go le_rfl b

structure Sorter where
  sort : List Bytes → List Bytes
  perm : ∀ l, (sort l).Perm l
  pairwise : ∀ l, (sort l).Pairwise (· ≤ ·)

def Sorter.insertion : Sorter where
  sort l := l.insertionSort (· ≤ ·)
  perm := perm_insertionSort _
  pairwise := pairwise_insertionSort _

end Bytes
