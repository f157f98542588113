import Mathlib

instance Int64.linearOrder : LinearOrder Int64 where
  le_refl := Int64.le_refl
  le_trans _ _ _ := Int64.le_trans
  lt_iff_le_not_ge _ _ := by
    rw [Int64.lt_iff_toInt_lt, Int64.le_iff_toInt_le, Int64.le_iff_toInt_le]
    omega
  le_antisymm _ _ := Int64.le_antisymm
  le_total := Int64.le_total
  toDecidableLE := inferInstance
  toDecidableLT := inferInstance
  toDecidableEq := inferInstance
  min := min
  max := max


namespace Int64

variable {a b : Int64}

theorem le_of_sub_one_lt (h : a - 1 < b) : a ≤ b := by
  have ha := a.toInt_lt
  have ha' := a.le_toInt
  have hb := b.le_toInt
  rw [lt_iff_toInt_lt, toInt_sub] at h
  rw [le_iff_toInt_le]
  by_cases hm : a.toInt = -2 ^ 63
  · omega
  · rw [toInt_one, Int.bmod_eq_of_le (by omega) (by omega)] at h
    omega

end Int64
