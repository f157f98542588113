import Myts.Tsm1.Damage
import Myts.Tsm1.Theorems.TsmFile

open List

namespace Tsm1

open Bytes Go IndirectIndex

theorem int32_le {n : Nat} : int32 n ≤ n := by
  rw [int32, Int.bmod]
  split <;> omega

theorem int32_lt (n : Int) : int32 n < 2 ^ 31 := by
  rw [int32, Int.bmod]
  split <;> omega

theorem int32_neg {n : Int} (h : 2 ^ 31 ≤ n) (h' : n < 2 ^ 32) : int32 n = n - 2 ^ 32 := by
  rw [int32, Int.bmod]
  split <;> omega

theorem int32_int32_add (n k : Int) : int32 (int32 n + k) = int32 (n + k) :=
  Int.bmod_add_bmod

theorem exists_sliceAt {b : Bytes} {i j : Int} (h : 0 ≤ i) (hij : i ≤ j) (hj : j ≤ b.length) :
    ∃ x, sliceAt b i j = .ok x :=
  ⟨_, if_pos ⟨h, hij, hj⟩⟩

theorem require_sliceAt {b : Bytes} {i : Int} {n iMax : Nat} (e : String) (f : Bytes → Go α)
    (hm : iMax ≤ n) (hn : n < 2 ^ 32) :
    (n < 2 ^ 31 → ∃ e', (do require (int32 n < iMax) e; f (← sliceAt b i (int32 n))) = fail e')
      ∧ (2 ^ 31 ≤ n → (do require (int32 n < iMax) e; f (← sliceAt b i (int32 n))) = Go.panic) := by
  refine ⟨fun hs => ?_, fun hs => ?_⟩
  · rw [int32_eq (by omega) (by omega), require, if_neg (by omega)]
    exact ⟨_, rfl⟩
  · rw [int32_neg (by omega) (by omega), require_pos (by omega), ok_bind,
      sliceAt_of_neg_right (by omega)]
    rfl

theorem IndexEntry.unmarshalBinary_ok {b : Bytes} (h : 28 ≤ b.length) :
    ∃ e, IndexEntry.unmarshalBinary b = .ok e := by
  have ⟨x₁, h₁⟩ := exists_sliceAt (b := b) (i := 0) (j := 8) (by omega) (by omega) (by omega)
  have ⟨x₂, h₂⟩ := exists_sliceAt (b := b) (i := 8) (j := 16) (by omega) (by omega) (by omega)
  have ⟨x₃, h₃⟩ := exists_sliceAt (b := b) (i := 16) (j := 24) (by omega) (by omega) (by omega)
  have ⟨x₄, h₄⟩ := exists_sliceAt (b := b) (i := 24) (j := 28) (by omega) (by omega) (by omega)
  rw [unmarshalBinary, indexEntrySize, require_pos h, ok_bind, h₁, ok_bind, h₂, ok_bind, h₃,
    ok_bind, h₄, ok_bind]
  exact ⟨_, rfl⟩

theorem readIndexEntries_cases (count : Nat) (b : Bytes) :
    (count * 28 ≤ b.length → ∃ entries, readIndexEntries count b = .ok entries)
      ∧ (b.length < count * 28 → ∃ e, readIndexEntries count b = fail e) := by
  induction count generalizing b
  case zero => exact ⟨fun _ => ⟨[], rfl⟩, fun h => by omega⟩
  case succ count hi =>
    by_cases hl : 28 ≤ b.length
    case neg =>
      refine ⟨fun h => by omega, fun _ => ?_⟩
      rw [readIndexEntries, IndexEntry.unmarshalBinary, require, indexEntrySize, if_neg hl]
      exact ⟨_, rfl⟩
    case pos =>
      obtain ⟨e, he⟩ := IndexEntry.unmarshalBinary_ok hl
      obtain ⟨hok, hfail⟩ := hi (b.drop 28)
      rw [length_drop] at hok hfail
      rw [readIndexEntries, he, unmarshalError_ok, ok_bind, indexEntrySize, sliceFrom_of_le hl, ok_bind]
      refine ⟨fun h => ?_, fun h => ?_⟩
      · obtain ⟨es, hes⟩ := hok (by omega)
        exact ⟨e :: es, by rw [hes]; rfl⟩
      · obtain ⟨e, he⟩ := hfail (by omega)
        exact ⟨e, by rw [he]; rfl⟩

namespace IndirectIndex

theorem uint16_take_lt (b : Bytes) : uint16 (b.take 2) < 2 ^ 16 :=
  (uint64_lt _).trans_le <| Nat.pow_le_pow_right (by omega : 0 < 256) (by simp : _ ≤ 2)

theorem blockless_iff {b : Bytes} {i : Nat} : Blockless b i ↔ next b i < 20 := by
  rw [Blockless, next, indexEntrySize]
  omega

section MaxTime

def scanMaxTime (b : Bytes) (s : Scan) (minTime : Int64) (iMax i : Int) : Go Scan := do
  require (int32 (i + 16) < iMax) "indirectIndex: not enough data for max time"
  let maxT := int64 (← sliceAt b (int32 (i + 8)) (int32 (i + 16)))
  return {
    i := int32 (i + indexEntrySize),
    offsets := s.offsets ++ [s.i],
    minTime := minTime,
    maxTime := if s.maxTime < maxT then maxT else s.maxTime }

variable {b : Bytes} {s : Scan} {minTime : Int64} {n iMax : Nat}

theorem scanMaxTime_ok (minTime : Int64) (hn : 20 ≤ n) (hm : n < iMax + 12) (hl : iMax ≤ b.length)
    (hs : iMax < 2 ^ 31) : ∃ maxTime, scanMaxTime b s minTime iMax (int32 (n - 28)) = .ok {
      i := int32 n, offsets := s.offsets ++ [s.i], minTime := minTime, maxTime := maxTime } := by
  have h₈ : int32 ((n : Int) - 28 + 8) = n - 20 := by
    rw [int32_eq (by omega) (by omega)]
    omega
  have h₁₆ : int32 ((n : Int) - 28 + 16) = n - 12 := by
    rw [int32_eq (by omega) (by omega)]
    omega
  have ⟨x, hx⟩ := exists_sliceAt (b := b) (i := (n : Int) - 20) (j := n - 12) (by omega) (by omega)
    (by omega)
  simp only [scanMaxTime, int32_int32_add]
  rw [h₈, h₁₆, require_pos (by omega), ok_bind, hx, ok_bind, indexEntrySize, Nat.cast_ofNat,
    sub_add_cancel]
  exact ⟨_, rfl⟩

theorem scanMaxTime_blockless (hn : n < 20) (hm : 8 ≤ iMax) :
    scanMaxTime b s minTime iMax (int32 (n - 28)) = Go.panic := by
  have h₈ : int32 ((n : Int) - 28 + 8) = n - 20 := by
    rw [int32_eq (by omega) (by omega)]
    omega
  have h₁₆ : int32 ((n : Int) - 28 + 16) = n - 12 := by
    rw [int32_eq (by omega) (by omega)]
    omega
  simp only [scanMaxTime, int32_int32_add]
  rw [h₈, h₁₆, require_pos (by omega), ok_bind, sliceAt_of_neg (by omega)]
  rfl

theorem scanMaxTime_short (hn : iMax + 12 ≤ n) (hs : n < 2 ^ 31 + 12) :
    ∃ e, scanMaxTime b s minTime iMax (int32 (n - 28)) = fail e := by
  have h₁₆ : int32 ((n : Int) - 28 + 16) = n - 12 := by
    rw [int32_eq (by omega) (by omega)]
    omega
  simp only [scanMaxTime, int32_int32_add]
  rw [h₁₆, require, if_neg (by omega)]
  exact ⟨_, rfl⟩

theorem scanMaxTime_overflow (hn : 2 ^ 31 + 12 ≤ n) (hs : n < 2 ^ 32) :
    scanMaxTime b s minTime iMax (int32 (n - 28)) = Go.panic := by
  have h₁₆ : int32 ((n : Int) - 28 + 16) < 0 := by
    rw [int32_neg (by omega) (by omega)]
    omega
  simp only [scanMaxTime, int32_int32_add]
  rw [require_pos (by omega), ok_bind, sliceAt_of_neg_right h₁₆]
  rfl

end MaxTime

section Scan

variable {b : Bytes} {iMax i : Nat} {s : Scan}

structure InFront (b : Bytes) (iMax i : Nat) (s : Scan) : Prop where
  iMax_eq : int32 b.length = iMax
  lt : i < iMax
  i_eq : s.i = i

variable (h : InFront b iMax i s)

include h

theorem InFront.bounds : iMax ≤ b.length ∧ iMax < 2 ^ 31 := by
  have hle := int32_le (n := b.length)
  have hlt := int32_lt b.length
  rw [h.iMax_eq] at hle hlt
  omega

theorem sliceAt_keyLen (h₂ : i + 2 < iMax) :
    int32 (s.i + 2) = (i + 2 : Nat) ∧ sliceAt b s.i (i + 2 : Nat) = .ok ((b.drop i).take 2) := by
  have := h.bounds
  rw [h.i_eq]
  refine ⟨int32_eq (by omega) (by omega), ?_⟩
  rw [sliceAt_of_le (by omega) (by omega), Nat.add_sub_cancel_left]

theorem sliceAt_blockCount (h₂ : i + 5 + keyLen b i < iMax) :
    int32 (s.i + 3 + keyLen b i) = (i + 3 + keyLen b i : Nat)
      ∧ int32 ((i + 3 + keyLen b i : Nat) + 2) = (i + 5 + keyLen b i : Nat)
      ∧ sliceAt b (i + 3 + keyLen b i : Nat) (i + 5 + keyLen b i : Nat)
        = .ok ((b.drop (i + 3 + keyLen b i)).take 2) := by
  have := h.bounds
  rw [h.i_eq]
  refine ⟨int32_eq (by omega) (by omega), ?_, ?_⟩
  · rw [int32_eq (by omega) (by omega)]
    omega
  · rw [sliceAt_of_le (by omega) (by omega)]
    congr 2
    omega

theorem scanKey_eq_maxTime (hr : i + 13 + keyLen b i < iMax) :
    ∃ minTime, scanKey b s = scanMaxTime b s minTime iMax (int32 ((next b i : Int) - 28)) := by
  have hb := h.bounds
  have ⟨hi₁, hs₁⟩ := sliceAt_keyLen h (by omega)
  have ⟨hi₂, hi₂', hs₂⟩ := sliceAt_blockCount h (by omega)
  have hi₃ : int32 ((i + 5 + keyLen b i : Nat) + 8) = (i + 13 + keyLen b i : Nat) := by
    rw [int32_eq (by omega) (by omega)]
    omega
  have hs₃ := sliceAt_of_le (b := b) (i := i + 5 + keyLen b i) (j := i + 13 + keyLen b i)
    (by omega) (by omega)
  have hi₄ : ((i + 5 + keyLen b i : Nat) + (blockCount b i - 1) * indexEntrySize : Int)
      = next b i - 28 := by
    rw [next, indexEntrySize]
    omega
  have hk : uint16 ((b.drop i).take 2) = keyLen b i := rfl
  have hc : uint16 ((b.drop (i + 3 + keyLen b i)).take 2) = blockCount b i := rfl
  rw [scanKey, h.iMax_eq]
  simp (disch := omega) only [hi₁, require_pos, hs₁, ok_bind, hk, hi₂, hi₂', hs₂, hc, hi₃, hs₃, hi₄]
  exact ⟨_, rfl⟩

theorem scanKey_readable (hr : Readable b iMax i) (hn : ¬Blockless b i) : ∃ s',
    scanKey b s = .ok s' ∧ s'.i = int32 (next b i) ∧ s'.offsets = s.offsets ++ [(i : Int)] := by
  have hb := h.bounds
  have ⟨minTime, he⟩ := scanKey_eq_maxTime h hr.left
  have hn := not_lt.mp (blockless_iff.not.mp hn)
  have ⟨maxTime, ht⟩ := scanMaxTime_ok (s := s) minTime hn hr.right hb.left hb.right
  refine ⟨_, he.trans ht, ?_, ?_⟩
  · simp only
  · simp only [h.i_eq]

theorem scanKey_blockless (hr : Readable b iMax i) (hn : Blockless b i) :
    scanKey b s = Go.panic := by
  have ⟨minTime, he⟩ := scanKey_eq_maxTime h hr.left
  have hm : 8 ≤ iMax := by
    have := hr.left
    omega
  exact he.trans <| scanMaxTime_blockless (blockless_iff.mp hn) hm

theorem scanKey_of_le_two (h₂ : iMax ≤ i + 2) :
    (i + 2 < 2 ^ 31 → ∃ e, scanKey b s = fail e) ∧ (2 ^ 31 ≤ i + 2 → scanKey b s = Go.panic) := by
  have hb := h.bounds
  have hl := h.lt
  rw [scanKey, h.iMax_eq, h.i_eq]
  exact require_sliceAt _ _ (n := i + 2) h₂ (by omega)

theorem scanKey_of_le_five (h₂ : i + 2 < iMax) (h₅ : iMax ≤ i + 5 + keyLen b i) :
    (i + 5 + keyLen b i < 2 ^ 31 → ∃ e, scanKey b s = fail e)
      ∧ (2 ^ 31 ≤ i + 5 + keyLen b i → scanKey b s = Go.panic) := by
  have hb := h.bounds
  have hk' := uint16_take_lt (b.drop i)
  have hk : uint16 ((b.drop i).take 2) = keyLen b i := rfl
  rw [hk] at hk'
  have ⟨hi₁, hs₁⟩ := sliceAt_keyLen h h₂
  rw [scanKey, h.iMax_eq, hi₁, require_pos (by omega), ok_bind, hs₁, ok_bind, hk]
  simp only [int32_int32_add]
  rw [h.i_eq, show (i : Int) + 3 + keyLen b i + 2 = (i + 5 + keyLen b i : Nat) by omega]
  exact require_sliceAt _ _ h₅ (by omega)

theorem scanKey_of_le_thirteen (h₅ : i + 5 + keyLen b i < iMax)
    (h₁₃ : iMax ≤ i + 13 + keyLen b i) :
    (i + 13 + keyLen b i < 2 ^ 31 → ∃ e, scanKey b s = fail e)
      ∧ (2 ^ 31 ≤ i + 13 + keyLen b i → scanKey b s = Go.panic) := by
  have hb := h.bounds
  have hk : uint16 ((b.drop i).take 2) = keyLen b i := rfl
  have ⟨hi₁, hs₁⟩ := sliceAt_keyLen h (by omega)
  have ⟨hi₂, hi₂', hs₂⟩ := sliceAt_blockCount h h₅
  rw [scanKey, h.iMax_eq, hi₁, require_pos (by omega), ok_bind, hs₁, ok_bind, hk]
  simp only [hi₂, hi₂']
  rw [require_pos (by omega), ok_bind, hs₂, ok_bind,
    show ((i + 5 + keyLen b i : Nat) : Int) + 8 = (i + 13 + keyLen b i : Nat) by omega]
  exact require_sliceAt _ _ h₁₃ (by omega)

theorem scanKey_not_readable (hr : ¬Readable b iMax i) :
    (behind b iMax i < 2 ^ 31 → ∃ e, scanKey b s = fail e)
      ∧ (2 ^ 31 ≤ behind b iMax i → scanKey b s = Go.panic) := by
  have hb := h.bounds
  rw [behind, if_neg (not_le.mpr h.lt)]
  split
  case isTrue h₂ => exact scanKey_of_le_two h h₂
  split
  case isTrue h₂ h₅ => exact scanKey_of_le_five h (not_le.mp h₂) h₅
  split
  case isTrue h₅ h₁₃ => exact scanKey_of_le_thirteen h (not_le.mp h₅) h₁₃
  case isFalse h₁₃ =>
    have hn : iMax + 12 ≤ next b i := not_lt.mp fun hn => hr ⟨not_le.mp h₁₃, hn⟩
    have ⟨minTime, he⟩ := scanKey_eq_maxTime h (not_le.mp h₁₃)
    have hc : blockCount b i < 2 ^ 16 := uint16_take_lt _
    have hk : keyLen b i < 2 ^ 16 := uint16_take_lt _
    have hlt : next b i < 2 ^ 32 := by
      rw [next, indexEntrySize]
      omega
    rw [he]
    exact ⟨fun hs => scanMaxTime_short hn (by omega), fun hs => scanMaxTime_overflow (by omega) hlt⟩

omit h in
theorem scanKey_negative (hm : int32 b.length = iMax) (hs : s.i < -2) (hl : -2 ^ 31 ≤ s.i) :
    scanKey b s = Go.panic := by
  rw [scanKey, hm, int32_eq (by omega) (by omega), require_pos (by omega), ok_bind,
    sliceAt_of_neg (by omega)]
  rfl

end Scan

section Loop

variable {b : Bytes} {iMax : Nat}

def Keys.Harmful (b : Bytes) (iMax : Nat) (ks : Keys) : Prop :=
  (∃ i ∈ ks.positions, Blockless b i) ∨ 2 ^ 31 ≤ behind b iMax ks.stop

structure Scan.Ends (b : Bytes) (iMax : Nat) (ks : Keys) (s : Scan) (r : Go Scan) : Prop where
  panic : ks.Harmful b iMax → r = Go.panic
  fail : ¬ks.Harmful b iMax → ks.stop < iMax → ∃ e, r = Go.fail e
  ok : ¬ks.Harmful b iMax → iMax ≤ ks.stop → ∃ minTime maxTime, r = .ok {
    i := ks.stop
    offsets := s.offsets ++ ks.positions.map (Nat.cast : Nat → Int)
    minTime := minTime
    maxTime := maxTime }

theorem behind_of_le (h : iMax ≤ i) : behind b iMax i = i :=
  if_pos h

theorem not_readable_of_le (h : iMax ≤ i) : ¬Readable b iMax i := by
  rintro ⟨h', _⟩
  omega

theorem keys_of_not_readable (h : ¬Readable b iMax i) (fuel : Nat) :
    keys b iMax fuel i = { positions := [], stop := i } := by
  cases fuel
  case zero => rfl
  case succ => rw [keys, if_neg h]

theorem Scan.Ends.of_le {s : Scan} {i : Nat} (h : iMax ≤ i) (hi : s.i = i) (hs : i < 2 ^ 31) :
    Scan.Ends b iMax { positions := [], stop := i } s (.ok s) where
  panic hh := by
    rcases hh with ⟨_, hm, _⟩ | hb
    case inl => cases hm
    case inr =>
      rw [behind_of_le h] at hb
      omega
  fail _ hlt := absurd h (not_le.mpr hlt)
  ok _ _ := ⟨s.minTime, s.maxTime, by rw [← hi]; simp⟩

theorem Scan.Ends.of_not_readable {s : Scan} {i : Nat} {f : Scan → Go Scan} (h : InFront b iMax i s)
    (hr : ¬Readable b iMax i) :
    Scan.Ends b iMax { positions := [], stop := i } s (scanKey b s >>= f) := by
  have ⟨hfail, hpanic⟩ := scanKey_not_readable h hr
  refine ⟨fun hh => ?_, fun hh _ => ?_, fun _ hle => absurd h.lt (not_lt.mpr hle)⟩
  · rcases hh with ⟨_, hm, _⟩ | hb
    case inl => cases hm
    case inr => rw [hpanic hb]; rfl
  · have ⟨e, he⟩ := hfail <| not_le.mp fun hb => hh (.inr hb)
    exact ⟨e, by rw [he]; rfl⟩

theorem Scan.Ends.blockless {s : Scan} {ks : Keys} {i : Nat} (hm : i ∈ ks.positions)
    (hb : Blockless b i) :
    Scan.Ends b iMax ks s Go.panic where
  panic _ := rfl
  fail hh _ := absurd (.inl ⟨i, hm, hb⟩) hh
  ok hh _ := absurd (.inl ⟨i, hm, hb⟩) hh

theorem Scan.Ends.cons {s s' : Scan} {ks : Keys} {i : Nat} (h : Scan.Ends b iMax ks s' r)
    (hb : ¬Blockless b i) (ho : s'.offsets = s.offsets ++ [(i : Int)]) :
    Scan.Ends b iMax { ks with positions := i :: ks.positions } s r := by
  have hh : Keys.Harmful b iMax { ks with positions := i :: ks.positions } ↔ ks.Harmful b iMax := by
    simp [Keys.Harmful, hb]
  refine ⟨fun hh' => h.panic (hh.mp hh'), fun hh' hl => h.fail (hh.not.mp hh') hl, fun hh' hl => ?_⟩
  have ⟨minTime, maxTime, he⟩ := h.ok (hh.not.mp hh') hl
  exact ⟨minTime, maxTime, by rw [he, ho]; simp⟩

theorem next_gt (b : Bytes) (i : Nat) : i + 5 ≤ next b i := by
  rw [next]
  omega

theorem scan_ends {fuel i : Nat} {s : Scan} (hm : int32 b.length = iMax) (hf : iMax ≤ i + fuel)
    (hi : s.i = i) (hs : i < 2 ^ 31) : Scan.Ends b iMax (keys b iMax fuel i) s (scan b fuel s) := by
  induction fuel generalizing i s
  case zero => exact .of_le hf hi hs
  case succ fuel hr =>
    rw [scan, hm, hi]
    by_cases hlt : i < iMax
    case neg =>
      have hle := not_lt.mp hlt
      rw [if_neg (by omega), keys_of_not_readable (not_readable_of_le hle)]
      exact .of_le hle hi hs
    case pos =>
      have hw : InFront b iMax i s := ⟨hm, hlt, hi⟩
      rw [if_pos (by omega)]
      by_cases hread : Readable b iMax i
      case neg =>
        rw [keys_of_not_readable hread]
        exact .of_not_readable hw hread
      case pos =>
        rw [keys, if_pos hread]
        by_cases hb : Blockless b i
        case pos =>
          rw [scanKey_blockless hw hread hb]
          exact .blockless mem_cons_self hb
        case neg =>
          obtain ⟨s', he, hi', ho⟩ := scanKey_readable hw hread hb
          have hbounds := hw.bounds
          have hn := next_gt b i
          obtain ⟨h₁₃, h₁₂⟩ := hread
          rw [he, ok_bind]
          refine .cons ?_ hb ho
          by_cases hsmall : next b i < 2 ^ 31
          case pos => exact hr (by omega) (hi'.trans <| int32_eq (by omega) (by omega)) hsmall
          case neg =>
            have hle : iMax ≤ next b i := by omega
            have hneg := int32_neg (n := next b i) (by omega) (by omega)
            rw [keys_of_not_readable (not_readable_of_le hle)]
            cases fuel
            case zero => omega
            case succ fuel =>
              rw [scan, hm, if_pos (by omega), scanKey_negative hm (by omega) (by omega)]
              refine ⟨fun _ => rfl, fun hh _ => absurd (.inr ?_) hh,
                fun hh _ => absurd (.inr ?_) hh⟩
              all_goals
                rw [behind_of_le hle]
                exact not_lt.mp hsmall

end Loop
section Keys

variable {b : Bytes} {iMax : Nat}

theorem readable_of_mem (h : i ∈ (keys b iMax fuel j).positions) : Readable b iMax i := by
  induction fuel generalizing j
  case zero => cases h
  case succ fuel hi =>
    rw [keys] at h
    split at h
    case isTrue hr =>
      rcases mem_cons.mp h with he | h
      case inl => exact he ▸ hr
      case inr => exact hi h
    case isFalse => cases h

theorem positions_ne_nil (h : i ≠ (keys b iMax fuel i).stop) :
    (keys b iMax fuel i).positions ≠ [] := by
  cases fuel
  case zero => exact absurd rfl h
  case succ fuel =>
    rw [keys] at h ⊢
    split
    case isTrue => exact cons_ne_nil _ _
    case isFalse hr =>
      rw [if_neg hr] at h
      exact absurd rfl h

end Keys

section Lookup

variable {b : Bytes} {iMax i : Nat} (hl : iMax ≤ b.length) (hr : Readable b iMax i)

include hl hr

theorem length_keyBytes : (keyBytes b i).length = keyLen b i := by
  have h₁₃ := hr.left
  rw [keyBytes, length_take, length_drop]
  omega

theorem readKey_readable :
    (sliceFrom b i >>= readKey) = .ok (2 + keyLen b i, keyBytes b i) := by
  have h₁₃ := hr.left
  have h₂ : sliceAt (b.drop i) 0 2 = .ok ((b.drop i).take 2) :=
    sliceAt_of_le (i := 0) (j := 2) (by omega) (by rw [length_drop]; omega)
  have hk : sliceAt (b.drop i) 2 (2 + keyLen b i) = .ok (keyBytes b i) := by
    have := sliceAt_of_le (b := b.drop i) (i := 2) (j := 2 + keyLen b i) (by omega)
      (by rw [length_drop]; omega)
    rwa [drop_drop, Nat.add_sub_cancel_left] at this
  rw [sliceFrom_of_le (by omega), ok_bind, readKey, h₂, ok_bind]
  change (sliceAt (b.drop i) 2 (2 + keyLen b i) >>= _) = _
  rw [hk, ok_bind, length_keyBytes hl hr]
  rfl

theorem byteAt_readable : ∃ c, byteAt b (i + (2 + keyLen b i : Nat)) = .ok c := by
  have h₁₃ := hr.left
  exact byteAt_of_lt (i := i + (2 + keyLen b i)) (by omega)

theorem readEntries_readable : ∃ x, sliceFrom b (i + (2 + keyLen b i : Nat)) = .ok x
    ∧ (next b i ≤ b.length → ∃ e, readEntries x = .ok e)
    ∧ (b.length < next b i → ∃ e, readEntries x = fail e) := by
  have h₁₃ := hr.left
  have hx := sliceFrom_of_le (b := b) (i := i + (2 + keyLen b i)) (by omega)
  have hlen : (b.drop (i + (2 + keyLen b i))).length = b.length - (i + (2 + keyLen b i)) :=
    length_drop
  obtain ⟨c, hc⟩ := byteAt_of_lt (b := b.drop (i + (2 + keyLen b i))) (i := 0) (by omega)
  have hn : sliceAt (b.drop (i + (2 + keyLen b i))) 1 3
      = .ok ((b.drop (i + 3 + keyLen b i)).take 2) := by
    have := sliceAt_of_le (b := b.drop (i + (2 + keyLen b i))) (i := 1) (j := 3) (by omega)
      (by omega)
    rw [drop_drop, show i + (2 + keyLen b i) + 1 = i + 3 + keyLen b i by omega] at this
    exact this
  have hd := sliceFrom_of_le (b := b.drop (i + (2 + keyLen b i))) (i := 3) (by omega)
  obtain ⟨hok, hfail⟩ := readIndexEntries_cases (blockCount b i)
    ((b.drop (i + (2 + keyLen b i))).drop 3)
  rw [length_drop, hlen] at hok hfail
  have he : readEntries (b.drop (i + (2 + keyLen b i))) = do
      let entries ← readIndexEntries (blockCount b i) ((b.drop (i + (2 + keyLen b i))).drop 3)
      return { type := c, entries := entries } := by
    rw [readEntries, require_pos (by omega), ok_bind]
    change (byteAt _ (0 : Nat) >>= _) = _
    rw [hc, ok_bind, hn, ok_bind]
    change (sliceFrom _ (3 : Nat) >>= _) = _
    rw [hd, ok_bind]
    rfl
  refine ⟨_, hx, fun h => ?_, fun h => ?_⟩
  all_goals rw [next, indexEntrySize] at h
  · obtain ⟨es, hes⟩ := hok (by omega)
    rw [he, hes]
    exact ⟨_, rfl⟩
  · obtain ⟨e, hes⟩ := hfail (by omega)
    rw [he, hes]
    exact ⟨e, rfl⟩

end Lookup

structure Lists (d : IndirectIndex) (iMax : Nat) (is : List Nat) : Prop where
  offsets : d.offsets = is.flatMap putUint32
  readable : ∀ i ∈ is, Readable d.b iMax i
  le : iMax ≤ d.b.length
  small : iMax < 2 ^ 31

namespace Lists

variable {d : IndirectIndex} {iMax : Nat} {is : List Nat} {fs : FixedSearch} (h : d.Lists iMax is)

include h

theorem length_offsets : d.offsets.length = is.length * 4 := by
  rw [h.offsets, length_flatMap]
  simp

theorem uint32_offset (hi : i ∈ is) : uint32 (putUint32 i) = i := by
  have := (h.readable i hi).left
  have := h.small
  rw [uint32_putUint32, Nat.mod_eq_of_lt (by omega)]

theorem sliceAt_offsets {k : Nat} (hk : is[k]? = some i) :
    sliceAt d.offsets (k * 4) (k * 4 + 4) = .ok (putUint32 i) := by
  have ⟨hlt, ho⟩ := List.getElem?_eq_some_iff.mp hk
  have hs : is = is.take k ++ i :: is.drop (k + 1) := by
    rw [← ho, getElem_cons_drop, take_append_drop]
  have hd := h.offsets
  rw [hs, flatMap_append, flatMap_cons] at hd
  refine sliceAt_eq hd ?_ rfl
  rw [length_flatMap]
  simp
  omega

theorem searchFn_eq (hi : i ∈ is) (key : Bytes) :
    d.searchFn key (putUint32 i) = .ok (decide (key ≤ keyBytes d.b i)) := by
  have ⟨h₁₃, _⟩ := h.readable i hi
  have hl := h.le
  have hs := h.small
  have hk : keyLen d.b i < 2 ^ 16 := uint16_take_lt _
  have ho : int32 (uint32 (putUint32 i)) = i := by
    rw [h.uint32_offset hi, int32_eq (by omega) (by omega)]
  have h₂ : int32 ((i : Int) + 2) = (i + 2 : Nat) := int32_eq (by omega) (by omega)
  have hs₁ := sliceAt_of_le (b := d.b) (i := i) (j := i + 2) (by omega) (by omega)
  have hk' : int32 (keyLen d.b i) = keyLen d.b i := int32_eq (by omega) (by omega)
  have h₃ : int32 ((i : Int) + 2 + keyLen d.b i) = (i + 2 + keyLen d.b i : Nat) :=
    int32_eq (by omega) (by omega)
  have hs₂ := sliceAt_of_le (b := d.b) (i := i + 2) (j := i + 2 + keyLen d.b i) (by omega)
    (by omega)
  rw [Nat.add_sub_cancel_left] at hs₁ hs₂
  rw [searchFn]
  dsimp only
  rw [ho, h₂, hs₁, ok_bind]
  change (sliceAt d.b _ (int32 (i + 2 + int32 (keyLen d.b i))) >>= _) = _
  rw [hk', h₃, hs₂]
  rfl

theorem search_of_eq {key : Bytes} {k i : Nat} (hk : is[k]? = some i)
    (hs : fs.search d.offsets 4 (d.searchFn key) = .ok (k * 4)) :
    d.search fs key = .ok (if key = keyBytes d.b i then i else d.b.length) := by
  have ⟨hlt, _⟩ := List.getElem?_eq_some_iff.mp hk
  have hi := mem_of_getElem? hk
  have hr := readKey_readable h.le (h.readable i hi)
  rw [search, hs, ok_bind, if_pos (by rw [h.length_offsets]; omega)]
  simp only [Nat.cast_mul, Nat.cast_ofNat, h.sliceAt_offsets hk, ok_bind, h.uint32_offset hi]
  rw [← bind_assoc, hr, ok_bind]
  rfl

theorem search_cases (ht : fs.Total) (key : Bytes) : d.search fs key = .ok d.b.length
    ∨ ∃ k i, is[k]? = some i ∧ fs.search d.offsets 4 (d.searchFn key) = .ok (k * 4)
      ∧ key = keyBytes d.b i ∧ d.search fs key = .ok i := by
  have ⟨k, hk, hs⟩ := ht (is.map putUint32) 4 (d.searchFn key) (by decide) <| by
    rw [forall_mem_map]
    exact fun i hi => ⟨rfl, _, h.searchFn_eq hi key⟩
  rw [← flatMap_def, ← h.offsets] at hs
  rw [length_map] at hk
  rcases hk.lt_or_eq with hk | hk
  case inr =>
    refine .inl ?_
    rw [search, hs, ok_bind, if_neg (by rw [h.length_offsets]; omega)]
    rfl
  case inl =>
    have hi : is[k]? = some is[k] := getElem?_eq_getElem hk
    have hd := h.search_of_eq hi hs
    split at hd
    case isTrue he => exact .inr ⟨k, _, hi, hs, he, hd⟩
    case isFalse => exact .inl hd

theorem safe_search (ht : fs.Total) (key : Bytes) : (d.search fs key).Safe := by
  rcases h.search_cases ht key with hs | ⟨_, _, _, _, _, hs⟩ <;> rw [hs] <;> trivial

theorem safe_type (ht : fs.Total) (key : Bytes) : (d.type fs key).Safe := by
  rw [type]
  rcases h.search_cases ht key with hs | ⟨k, i, hk, _, _, hs⟩
  case inl =>
    rw [hs, ok_bind, if_neg (lt_irrefl _)]
    trivial
  case inr =>
    have hr := h.readable i (mem_of_getElem? hk)
    have ⟨c, hc⟩ := byteAt_readable h.le hr
    have hlt := hr.left
    have hl := h.le
    rw [hs, ok_bind, if_pos (by omega), ← bind_assoc, readKey_readable h.le hr, ok_bind]
    dsimp only
    rw [hc]
    trivial

theorem entries_of_search {i : Nat} (hi : i ∈ is) (hs : d.search fs (keyBytes d.b i) = .ok i) :
    (next d.b i ≤ d.b.length → (d.entries fs (keyBytes d.b i)).Safe)
      ∧ (d.b.length < next d.b i → d.entries fs (keyBytes d.b i) = Go.panic) := by
  have hr := h.readable i hi
  have hlt := hr.left
  have hl := h.le
  obtain ⟨x, hx, hok, hfail⟩ := readEntries_readable h.le hr
  rw [entries, hs, ok_bind, if_pos (by omega), ← bind_assoc, readKey_readable h.le hr, ok_bind]
  simp only [if_true, hx, ok_bind]
  refine ⟨fun hn => ?_, fun hn => ?_⟩
  · obtain ⟨e, he⟩ := hok hn
    rw [he]
    trivial
  · obtain ⟨e, he⟩ := hfail hn
    rw [he]
    rfl

theorem safe_entries_iff (ht : fs.Total) :
    (∀ key, (d.entries fs key).Safe) ↔ ∀ k, ¬CutAt fs d.b is k := by
  constructor
  case mp =>
    rintro hs k ⟨i, hk, hn, hf⟩
    have hi := mem_of_getElem? hk
    have hf : fs.search d.offsets 4 (d.searchFn (keyBytes d.b i)) = .ok (k * 4) := by
      rw [h.offsets]
      exact hf
    have hd := h.search_of_eq hk hf
    rw [if_pos rfl] at hd
    have hp := hs (keyBytes d.b i)
    rw [(h.entries_of_search hi hd).right hn] at hp
    exact hp
  case mpr =>
    intro hc key
    rcases h.search_cases ht key with hs | ⟨k, i, hk, hf, he, hs⟩
    case inl =>
      rw [entries, hs, ok_bind, if_neg (lt_irrefl _)]
      trivial
    case inr =>
      subst he
      refine (h.entries_of_search (mem_of_getElem? hk) hs).left <| not_lt.mp fun hn => ?_
      refine hc k ⟨i, hk, hn, ?_⟩
      rw [h.offsets] at hf
      exact hf

theorem safe_key (k : Nat) : (d.key k).Safe := by
  rw [key, h.length_offsets]
  split
  case isTrue => trivial
  case isFalse hlt =>
    have hk : is[k]? = some is[k] := getElem?_eq_getElem (by omega)
    have hi := mem_of_getElem? hk
    have hr := h.readable _ hi
    obtain ⟨c, hc⟩ := byteAt_readable h.le hr
    obtain ⟨x, hx, hok, hfail⟩ := readEntries_readable h.le hr
    have hs : (readEntries x).Safe := by
      by_cases hn : next d.b is[k] ≤ d.b.length
      case pos => obtain ⟨e, he⟩ := hok hn; rw [he]; trivial
      case neg => obtain ⟨e, he⟩ := hfail (not_le.mp hn); rw [he]; trivial
    rw [h.sliceAt_offsets hk, ok_bind, h.uint32_offset hi]
    dsimp only
    rw [← bind_assoc, readKey_readable h.le hr, ok_bind]
    dsimp only
    rw [hc, ok_bind, hx, ok_bind, dropError_of_safe hs]
    trivial

theorem safe_keyAt (k : Nat) : (d.keyAt k).Safe := by
  rw [keyAt, h.length_offsets]
  split
  case isTrue => trivial
  case isFalse hlt =>
    have hk : is[k]? = some is[k] := getElem?_eq_getElem (by omega)
    have hi := mem_of_getElem? hk
    have hr := h.readable _ hi
    have hlt' := hr.left
    have hl := h.le
    have hs := h.small
    obtain ⟨c, hc⟩ := byteAt_readable h.le hr
    rw [h.sliceAt_offsets hk, ok_bind, h.uint32_offset hi, int32_eq (by omega) (by omega)]
    dsimp only
    rw [← bind_assoc, readKey_readable h.le hr, ok_bind]
    dsimp only
    rw [int32_eq (by omega) (by omega), hc]
    trivial

end Lists

section Unmarshal

variable {b : Bytes}

theorem unmarshalBinary_of_ne_nil (hb : b ≠ []) : unmarshalBinary b = do
    let s ← scan b b.length .start
    let (_, minKey) ← readKey (← sliceFrom b (← deref s.offsets.head?))
    let (_, maxKey) ← readKey (← sliceFrom b (← deref s.offsets.getLast?))
    return {
      b := b
      offsets := s.offsets.flatMap fun i => putUint32 (i % 2 ^ 32).toNat
      minKey := minKey
      maxKey := maxKey
      minTime := s.minTime
      maxTime := s.maxTime
      tombstones := ∅ } := by
  rw [unmarshalBinary, if_neg hb]
  rfl

theorem scan_start_of_length (hl : int32 b.length ≤ 0) (fuel : Nat) :
    scan b fuel .start = .ok .start := by
  cases fuel
  case zero => rfl
  case succ => exact if_neg (not_lt.mpr hl)

theorem unmarshalBinary_of_length (hb : b ≠ []) (hl : int32 b.length ≤ 0) :
    unmarshalBinary b = Go.panic := by
  rw [unmarshalBinary_of_ne_nil hb, scan_start_of_length hl]
  rfl

theorem unmarshalBinary_of_scan {iMax : Nat} {is : List Nat} {minTime maxTime : Int64}
    (hb : b ≠ []) (hl : iMax ≤ b.length)
    (hm : iMax < 2 ^ 31) (hr : ∀ i ∈ is, Readable b iMax i) (hne : is ≠ [])
    (hs : scan b b.length .start = .ok { i, offsets := is.map Nat.cast, minTime, maxTime }) :
    ∃ d, unmarshalBinary b = .ok d ∧ d.b = b ∧ d.Lists iMax is ∧
      ∀ i ∈ is.getLast?, d.maxKey = keyBytes b i := by
  have hk (i : Nat) (hi : i ∈ is) := readKey_readable hl (hr i hi)
  have ho : (is.map (Nat.cast : Nat → Int)).flatMap (fun i => putUint32 (i % 2 ^ 32).toNat)
      = is.flatMap putUint32 := by
    rw [flatMap_map]
    refine flatMap_congr fun i hi => ?_
    have := (hr i hi).left
    exact congrArg putUint32 (by omega)
  have hf := head_mem hne
  have hg := getLast_mem hne
  rw [unmarshalBinary_of_ne_nil hb, hs, ok_bind]
  dsimp only
  rw [head?_map, head?_eq_some_head hne, Option.map_some, getLast?_map,
    getLast?_eq_some_getLast hne, Option.map_some]
  simp only [deref, ok_bind]
  rw [← bind_assoc, hk _ hf, ok_bind]
  dsimp only
  rw [← bind_assoc, hk _ hg, ok_bind]
  refine ⟨_, rfl, rfl, ⟨ho, hr, hl, hm⟩, fun i hi => ?_⟩
  cases hi
  rfl

theorem start_ends (hl : 0 < int32 b.length) : Scan.Ends b (int32 b.length).toNat
    (keys b (int32 b.length).toNat b.length 0) .start (scan b b.length .start) := by
  have hle := int32_le (n := b.length)
  exact scan_ends (by omega) (by omega) rfl (by decide)

theorem intact_iff_not_harmful (fs : FixedSearch) (hl : 0 < int32 b.length) :
    Intact fs b ↔ ¬(keys b (int32 b.length).toNat b.length 0).Harmful b (int32 b.length).toNat
      ∧ (int32 b.length ≤ (keys b (int32 b.length).toNat b.length 0).stop →
        ∀ k, ¬CutAt fs b (keys b (int32 b.length).toNat b.length 0).positions k) := by
  rw [Keys.Harmful, not_or, not_le]
  push Not
  exact ⟨fun h => ⟨⟨h.blocks, h.small⟩, h.notCut⟩,
    fun h => ⟨hl, h.left.left, h.left.right, h.right⟩⟩

theorem unmarshalBinary_cases (hb : b ≠ []) (hl : 0 < int32 b.length) :
    let iMax := (int32 b.length).toNat
    let ks := keys b iMax b.length 0
    (ks.Harmful b iMax → unmarshalBinary b = Go.panic)
      ∧ (¬ks.Harmful b iMax → ks.stop < iMax → ∃ e, unmarshalBinary b = fail e)
      ∧ (¬ks.Harmful b iMax → iMax ≤ ks.stop →
        ∃ d, unmarshalBinary b = .ok d ∧ d.b = b ∧ d.Lists iMax ks.positions ∧
          ∀ i ∈ ks.positions.getLast?, d.maxKey = keyBytes b i) := by
  have hle := int32_le (n := b.length)
  have hlt := int32_lt b.length
  have he := start_ends hl
  refine ⟨fun hh => ?_, fun hh hs => ?_, fun hh hs => ?_⟩
  · rw [unmarshalBinary_of_ne_nil hb, he.panic hh]
    rfl
  · have ⟨e, he⟩ := he.fail hh hs
    rw [unmarshalBinary_of_ne_nil hb, he]
    exact ⟨e, rfl⟩
  · have ⟨minTime, maxTime, he⟩ := he.ok hh hs
    exact unmarshalBinary_of_scan hb (by omega) (by omega) (fun _ => readable_of_mem)
      (positions_ne_nil (by omega)) he

end Unmarshal

end IndirectIndex
namespace TSMReader

theorem require_cases (p : Prop) [Decidable p] (e : String) :
    require p e = .ok () ∨ require p e = fail e := by
  rw [require]
  split
  case isTrue => exact .inl rfl
  case isFalse => exact .inr rfl

theorem verifyVersion_cases (f : Bytes) :
    verifyVersion f = .ok () ∨ ∃ e, verifyVersion f = fail e := by
  rw [verifyVersion]
  by_cases h₄ : 4 ≤ f.length
  case neg => exact .inr ⟨_, by rw [require, if_neg h₄]; rfl⟩
  case pos =>
    rw [require_pos h₄, ok_bind, slice, if_pos h₄, ok_bind]
    dsimp only
    by_cases hm : uint32 (f.take 4) = magicNumber
    case neg => exact .inr ⟨_, by rw [require, if_neg hm]; rfl⟩
    case pos =>
      rw [require_pos hm, ok_bind]
      by_cases h₁ : 1 ≤ (f.drop 4).length
      case neg => exact .inr ⟨_, by rw [require, if_neg h₁]; rfl⟩
      case pos =>
        obtain ⟨c, hc⟩ := byteAt_of_lt (b := f.drop 4) (i := 0) h₁
        rw [Nat.cast_zero] at hc
        rw [require_pos h₁, ok_bind, hc, ok_bind]
        exact (require_cases _ _).imp_right fun he => ⟨_, he⟩

theorem openIndex_of_none {f : Bytes} (h : indexBytes f = none) : ∃ e, openIndex f = fail e := by
  rw [indexBytes] at h
  rw [openIndex]
  rcases verifyVersion_cases f with hv | ⟨e, hv⟩
  case inr => exact ⟨e, by rw [hv]; rfl⟩
  case inl =>
    rw [hv, ok_bind]
    by_cases h₈ : 8 ≤ f.length
    case neg => exact ⟨_, by rw [require, if_neg h₈]; rfl⟩
    case pos =>
      have hs := sliceFrom_of_le (b := f) (i := f.length - 8) (by omega)
      by_cases hi : uint64 (f.drop (f.length - 8)) < f.length - 8
      case pos =>
        rw [if_pos ⟨hv, h₈, hi⟩] at h
        cases h
      case neg =>
        rw [require_pos h₈, ok_bind]
        dsimp only
        rw [hs, ok_bind, require, if_neg hi]
        exact ⟨_, rfl⟩

theorem openIndex_of_some {f b : Bytes} (h : indexBytes f = some b) :
    b ≠ [] ∧ openIndex f = unmarshalBinary b := by
  rw [indexBytes] at h
  split at h
  case isFalse => cases h
  case isTrue hf =>
    cases h
    have ⟨hv, h₈, hi⟩ := hf
    have hs := sliceFrom_of_le (b := f) (i := f.length - 8) (by omega)
    refine ⟨ne_nil_of_length_pos (by simp; omega), ?_⟩
    rw [openIndex, hv, ok_bind, require_pos h₈, ok_bind]
    dsimp only
    rw [hs, ok_bind, require_pos (by omega), ok_bind, sliceAt_of_le (by omega) (by omega),
      ok_bind, drop_take]

theorem scan_start_ends {b : Bytes} {s : Scan}
    (h : scan b b.length .start = .ok s) : int32 b.length ≤ s.i := by
  by_cases hl : 0 < int32 b.length
  case neg =>
    rw [scan_start_of_length (not_lt.mp hl)] at h
    cases h
    exact not_lt.mp hl
  case pos =>
    have he := start_ends hl
    rw [h] at he
    have hh : ¬_ := fun hh => nomatch he.panic hh
    have hs : ¬_ := fun hs => nomatch (he.fail hh hs).choose_spec
    have ⟨_, _, hk⟩ := he.ok hh (not_lt.mp hs)
    cases hk
    simp only
    omega

theorem harmless_of_fail {f : Bytes} (h : openIndex f = fail e) : Harmless fs f where
  opens := by rw [h]; trivial
  ends _ _ _ h := scan_start_ends h
  search := by rw [h]; nofun
  entries := by rw [h]; nofun
  type := by rw [h]; nofun
  key := by rw [h]; nofun
  keyAt := by rw [h]; nofun

theorem harmless_of_ok {f : Bytes} {d : IndirectIndex} (ht : fs.Total) (h : openIndex f = .ok d)
    (hk : d.Lists iMax is) (hc : ∀ k, ¬CutAt fs d.b is k) : Harmless fs f where
  opens := by rw [h]; trivial
  ends _ _ _ h := scan_start_ends h
  search := by rw [h]; rintro _ ⟨⟩ key; exact hk.safe_search ht key
  entries := by rw [h]; rintro _ ⟨⟩; exact (hk.safe_entries_iff ht).mpr hc
  type := by rw [h]; rintro _ ⟨⟩ key; exact hk.safe_type ht key
  key := by rw [h]; rintro _ ⟨⟩ k _; exact hk.safe_key k
  keyAt := by rw [h]; rintro _ ⟨⟩ k _; exact hk.safe_keyAt k

-- A damaged file does no harm, except for a key without blocks at the front of the index, a last
-- block that is cut off, and sizes that the offsets can not hold.
theorem harmless_iff (fs : FixedSearch) (ht : fs.Total) (f : Bytes) :
    Harmless fs f ↔ ∀ b ∈ indexBytes f, Intact fs b := by
  cases hf : indexBytes f
  case none =>
    have ⟨e, he⟩ := openIndex_of_none hf
    exact iff_of_true (harmless_of_fail he) nofun
  case some b =>
    have ⟨hb, ho⟩ := openIndex_of_some hf
    rw [show (∀ b' ∈ some b, Intact fs b') ↔ Intact fs b by simp]
    by_cases hl : 0 < int32 b.length
    case neg =>
      refine iff_of_false (fun h => ?_) fun h => hl h.length
      have hs := h.opens
      rw [ho, unmarshalBinary_of_length hb (not_lt.mp hl)] at hs
      exact hs
    case pos =>
      have ⟨hpanic, hfail, hok⟩ := unmarshalBinary_cases hb hl
      rw [intact_iff_not_harmful fs hl]
      constructor
      case mp =>
        intro h
        have hh : ¬_ := fun hh => by
          have hs := h.opens
          rw [ho, hpanic hh] at hs
          exact hs
        refine ⟨hh, fun hs => ?_⟩
        have ⟨d, hd, hdb, hk, _⟩ := hok hh (by omega)
        rw [← hdb] at hk ⊢
        exact (hk.safe_entries_iff ht).mp <| h.entries d (ho.trans hd)
      case mpr =>
        intro ⟨hh, hc⟩
        rcases Nat.lt_or_ge (keys b (int32 b.length).toNat b.length 0).stop
          (int32 b.length).toNat with hs | hs
        case inl =>
          have ⟨e, he⟩ := hfail hh hs
          exact harmless_of_fail (ho.trans he)
        case inr =>
          have ⟨d, hd, hdb, hk, _⟩ := hok hh hs
          exact harmless_of_ok ht (ho.trans hd) hk (hdb ▸ hc (by omega))

section Sample

def blocklessFile : Bytes :=
  putUint32 magicNumber ++ [version] ++ (putUint16 0 ++ [0] ++ putUint16 0 ++ List.replicate 9 0) ++
    putUint64 5

def cutFile : Bytes :=
  putUint32 magicNumber ++ [version] ++ (putUint16 1 ++ [97, 0] ++ putUint16 1 ++
    List.replicate 17 0) ++ putUint64 5

theorem openIndex_panics : ¬(openIndex blocklessFile).Safe
    ∧ ∃ d, openIndex cutFile = .ok d ∧ ¬(d.entries linear [97]).Safe := by
  refine ⟨by decide +kernel, ?_⟩
  have h : (fun d => decide (d.entries linear [97]).Safe) <$> openIndex cutFile = .ok false := by
    decide +kernel
  have ⟨d, hd, he⟩ := map_eq_ok.mp h
  exact ⟨d, hd, of_decide_eq_false he⟩

theorem linear_total : linear.Total := by
  intro xs size fn hs hx
  let p (x : Bytes) : Bool := (fn x).toOption.getD false
  have hp : ∀ x ∈ xs, x.length = size ∧ fn x = .ok (p x) := fun x hm => by
    have ⟨hl, c, hc⟩ := hx x hm
    refine ⟨hl, ?_⟩
    simp only [p, hc]
    rfl
  refine ⟨xs.findIdx p, findIdx_le_length, ?_⟩
  change linearSearch size fn xs.flatten.length 0 xs.flatten = _
  rw [linearSearch_eq hs hp (length_le_flatten hs fun x hm => (hx x hm).left), Nat.zero_add]

theorem intact_of_blocks {b : Bytes} (hl : 0 < int32 b.length)
    (hb : ∀ i ∈ (keys b (int32 b.length).toNat b.length 0).positions,
      ¬Blockless b i ∧ next b i ≤ b.length)
    (hs : behind b (int32 b.length).toNat
      (keys b (int32 b.length).toNat b.length 0).stop < 2 ^ 31) :
    Intact fs b where
  length := hl
  blocks i hi := (hb i hi).left
  small := hs
  notCut _ _ := fun ⟨i, hi, hn, _⟩ =>
    absurd hn (not_lt.mpr (hb i (mem_of_getElem? hi)).right)

theorem harmless_sampleFile : linear.Total ∧ Harmless linear sampleFile := by
  have hi : indexBytes sampleFile = some ((indexBytes sampleFile).getD []) := by decide +kernel
  refine ⟨linear_total, (harmless_iff linear linear_total sampleFile).mpr fun b hb => ?_⟩
  rw [Option.mem_unique hb hi]
  exact intact_of_blocks (by decide +kernel) (by decide +kernel) (by decide +kernel)

end Sample

end TSMReader

end Tsm1
