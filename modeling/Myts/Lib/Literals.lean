import Myts.Lib.Bytes

open List

-- The Snappy format of a block, as far as it has literals: the length of the data, and parts of up
-- to 60 bytes that are each behind a byte with their length.
namespace Literals

open Bytes

def putLiterals : (fuel : Nat) → Bytes → Bytes
  | 0, _ => []
  | fuel + 1, b =>
    if b = [] then
      []
    else
      .ofNat ((min 60 b.length - 1) * 4) :: (b.take 60 ++ putLiterals fuel (b.drop 60))

def encode (b : Bytes) : Bytes :=
  putUvarint b.length ++ putLiterals b.length b

def corrupt : String :=
  "snappy: corrupt input"

def readLiterals : (fuel : Nat) → Bytes → Except String Bytes
  | 0, _ => .ok []
  | _, [] => .ok []
  | fuel + 1, x :: b =>
    let n := x.toNat / 4 + 1
    if x.toNat % 4 = 0 ∧ n ≤ 60 ∧ n ≤ b.length then
      return b.take n ++ (← readLiterals fuel (b.drop n))
    else
      .error corrupt

def decodedLen (b : Bytes) : Except String Nat :=
  match readUvarint b with
  | some (n, _) => .ok n
  | none => .error corrupt

def decode (b : Bytes) : Except String Bytes :=
  match readUvarint b with
  | some (_, b) => readLiterals b.length b
  | none => .error corrupt

theorem decodedLen_encode (b : Bytes) : decodedLen (encode b) = .ok b.length := by
  rw [decodedLen, encode, readUvarint_putUvarint]

theorem readLiterals_putLiterals {b : Bytes} (h : b.length ≤ fuel)
    (hf : (putLiterals fuel b).length ≤ fuel') :
    readLiterals fuel' (putLiterals fuel b) = .ok b := by
  induction fuel generalizing b fuel'
  case zero =>
    cases length_eq_zero_iff.mp (Nat.le_zero.mp h)
    cases fuel' <;> rfl
  case succ fuel hi =>
    rw [putLiterals] at hf ⊢
    split at hf
    case isTrue hb => cases fuel' <;> simp [hb, readLiterals]
    case isFalse hb =>
      have hpos := length_pos_iff.mpr hb
      have hl : (b.take 60).length = min 60 b.length := length_take
      obtain ⟨fuel', rfl⟩ := Nat.exists_eq_succ_of_ne_zero (n := fuel') (by rintro rfl; simp at hf)
      have hx : (UInt8.ofNat ((min 60 b.length - 1) * 4)).toNat = (min 60 b.length - 1) * 4 := by
        rw [UInt8.toNat_ofNat']
        omega
      have hn : (min 60 b.length - 1) * 4 / 4 + 1 = min 60 b.length := by omega
      rw [length_cons, length_append] at hf
      rw [if_neg hb, readLiterals, hx, hn, ← hl, take_left, drop_left,
        hi (by rw [length_drop]; omega) (by omega), if_pos]
      case hc => exact ⟨Nat.mul_mod_left .., by omega, by rw [length_append]; omega⟩
      exact congrArg Except.ok (take_append_drop 60 b)

theorem decode_encode (b : Bytes) : decode (encode b) = .ok b := by
  rw [decode, encode, readUvarint_putUvarint]
  exact readLiterals_putLiterals le_rfl le_rfl

end Literals
