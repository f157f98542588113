import Myts.Lib.Bytes

open List

-- The records that are sent between the nodes: a type, the length of the value and the value.
namespace Tlv

def maxMessageSize : Nat := 1024 * 1024 * 1024

def writeLV (buf : Bytes) : Bytes :=
  Bytes.putUint64 buf.length ++ buf

def writeTLV (typ : UInt8) (buf : Bytes) : Bytes :=
  typ :: writeLV buf

-- What comes of reading from a connection, as far as bytes have arrived.
inductive Read (α : Type)
  | more
  | tooLarge
  -- There is no slice of a negative length: the process panics.
  | negative
  | ok (a : α) (length : Nat)
deriving DecidableEq

def readLV (b : Bytes) : Read Bytes :=
  if b.length < 8 then
    .more
  else
    let sz := Bytes.uint64 (b.take 8)
    if sz ≥ 2 ^ 63 then
      .negative
    else if sz ≥ maxMessageSize then
      .tooLarge
    else if b.length < 8 + sz then
      .more
    else
      .ok ((b.drop 8).take sz) (8 + sz)

def readTLV : Bytes → Read (UInt8 × Bytes)
  | [] => .more
  | typ :: b =>
    match readLV b with
    | .more => .more
    | .tooLarge => .tooLarge
    | .negative => .negative
    | .ok buf n => .ok (typ, buf) (n + 1)

theorem length_writeLV : (writeLV buf).length = 8 + buf.length := by
  rw [writeLV, length_append, Bytes.length_putUint64]

theorem readLV_append {k : Nat} (hk : k < 2 ^ 63) (rest : Bytes) :
    readLV (Bytes.putUint64 k ++ rest) =
      if k ≥ maxMessageSize then .tooLarge
      else if rest.length < k then .more else .ok (rest.take k) (8 + k) := by
  have hl : (Bytes.putUint64 k ++ rest).length = 8 + rest.length := length_append
  have ht : (Bytes.putUint64 k ++ rest).take 8 = Bytes.putUint64 k := rfl
  have hd : (Bytes.putUint64 k ++ rest).drop 8 = rest := rfl
  rw [readLV, if_neg (by omega), ht, hd, hl, Bytes.uint64_putUint64_of_lt (by omega),
    if_neg (by omega)]
  simp only [Nat.add_lt_add_iff_left]

theorem of_readLV_take {buf : Bytes} (hb : buf.length < 2 ^ 63)
    (h : readLV ((writeLV buf).take i) = .ok buf' n) : buf' = buf ∧ n = (writeLV buf).length := by
  by_cases hi : i < 8
  case pos =>
    have hl : ((writeLV buf).take i).length < 8 := by
      rw [length_take]
      omega
    rw [readLV, if_pos hl] at h
    cases h
  case neg =>
    obtain ⟨j, rfl⟩ := Nat.exists_eq_add_of_le (not_lt.mp hi)
    have ht : (writeLV buf).take ((Bytes.putUint64 buf.length).length + j)
        = Bytes.putUint64 buf.length ++ buf.take j := take_length_add_append j
    rw [Bytes.length_putUint64] at ht
    rw [ht, readLV_append hb] at h
    split at h
    case isTrue => cases h
    case isFalse =>
      split at h
      case isTrue => cases h
      case isFalse hj =>
        cases h
        have hj : buf.length ≤ j := by
          rw [length_take] at hj
          omega
        rw [take_of_length_le hj, take_length, length_writeLV]
        exact ⟨rfl, rfl⟩

theorem of_readTLV_take {buf : Bytes} (hb : buf.length < 2 ^ 63)
    (h : readTLV ((writeTLV typ buf).take i) = .ok (typ', buf') n) :
    typ' = typ ∧ buf' = buf ∧ n = (writeTLV typ buf).length := by
  cases i
  case zero => cases h
  case succ i =>
    rw [writeTLV, take_succ_cons, readTLV] at h
    split at h <;> cases h
    case h_4 hr =>
      obtain ⟨rfl, rfl⟩ := of_readLV_take hb hr
      exact ⟨rfl, rfl, rfl⟩

end Tlv
