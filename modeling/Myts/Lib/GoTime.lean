import Myts.Lib.Int64

abbrev GoTime := Int

namespace GoTime

def zero : GoTime := 0

def unixEpoch : GoTime := 62135596800 * 1000000000

def unix (nsec : Int64) : GoTime := unixEpoch + nsec.toInt

def Representable (t : GoTime) : Prop := unix (.ofInt (t - unixEpoch)) = t

instance : DecidablePred Representable := fun _ => inferInstanceAs (Decidable (_ = _))

theorem representable_unix (nsec : Int64) : Representable (unix nsec) := by
  have h : unix nsec - unixEpoch = nsec.toInt := add_sub_cancel_left unixEpoch nsec.toInt
  rw [Representable, h, Int64.ofInt_toInt]

theorem representable_iff :
    Representable t ↔ -2 ^ 63 ≤ t - unixEpoch ∧ t - unixEpoch < 2 ^ 63 where
  mp h := by
    rw [← h, unix, add_sub_cancel_left]
    exact ⟨Int64.le_toInt _, Int64.toInt_lt _⟩
  mpr h := by
    rw [Representable, unix, Int64.toInt_ofInt_of_le h.left h.right]
    ring

theorem unix_ne_zero (nsec : Int64) : unix nsec ≠ zero := by
  intro h
  have hn : 62135596800 * 1000000000 + nsec.toInt = 0 := h
  have hl := nsec.le_toInt
  omega

def truncate (t : GoTime) (d : Int) : GoTime := if d ≤ 0 then t else t - t % d

theorem dvd_truncate (hd : 0 < d) (t : GoTime) : d ∣ t.truncate d := by
  rw [truncate, if_neg hd.not_ge]
  exact Int.dvd_self_sub_emod

theorem truncate_le (t : GoTime) : t.truncate d ≤ t := by
  rw [truncate]
  split
  case isTrue => exact le_rfl
  case isFalse => exact sub_le_self t <| Int.emod_nonneg t (by omega)

theorem lt_truncate_add (hd : 0 < d) (t : GoTime) : t < t.truncate d + d := by
  rw [truncate, if_neg hd.not_ge]
  have := Int.emod_lt_of_pos t hd
  linarith

theorem slots_disjoint {a b : GoTime} (ha : d ∣ a) (hb : d ∣ b) (hd : 0 < d) (hn : a ≠ b) :
    a + d ≤ b ∨ b + d ≤ a := by
  obtain ⟨k, rfl⟩ := ha
  obtain ⟨m, rfl⟩ := hb
  rcases lt_trichotomy k m with h | rfl | h
  case inl => exact .inl <| by nlinarith
  case inr.inl => exact (hn rfl).elim
  case inr.inr => exact .inr <| by nlinarith

theorem slot_unique {a b : GoTime} (ha : d ∣ a) (hb : d ∣ b) (hd : 0 < d) (ha₁ : a ≤ t)
    (ha₂ : t < a + d) (hb₁ : b ≤ t) (hb₂ : t < b + d) : a = b := by
  by_contra hn
  rcases slots_disjoint ha hb hd hn with h | h
  case inl => exact (ha₂.trans_le <| h.trans hb₁).false
  case inr => exact (hb₂.trans_le <| h.trans ha₁).false

end GoTime
