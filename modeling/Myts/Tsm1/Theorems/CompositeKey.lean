import Myts.Tsm1.CompositeKey

open List

namespace Tsm1

theorem isPrefix_append_separator_iff (h : d ≠ []) :
    keyFieldSeparator <+: d ++ keyFieldSeparator ↔ keyFieldSeparator <+: d ++ [35] := by
  match d with
  | [] => exact absurd rfl h
  | [a] => simp [keyFieldSeparator]
  | [a, b] => simp [keyFieldSeparator]
  | [a, b, c] => simp [keyFieldSeparator]
  | a :: b :: c :: e :: d => simp [keyFieldSeparator]

theorem clean_iff_cleanKey : Separator.Clean keyFieldSeparator s ↔ CleanKey s := by
  rw [CleanKey, infix_iff_prefix_suffix, Separator.Clean]
  constructor
  case mp =>
    intro h ⟨t, ht, hs⟩
    rcases suffix_concat_iff.mp hs with rfl | ⟨d, rfl, hd⟩
    · cases prefix_nil.mp ht
    · by_cases hn : d = []
      · subst hn
        exact absurd ht (by decide)
      · have hl := length_pos_of_ne_nil hn
        have hle := hd.length_le
        refine h (s.length - d.length) (by omega) ?_
        rw [← suffix_iff_eq_drop.mp hd]
        exact (isPrefix_append_separator_iff hn).mpr ht
  case mpr =>
    intro h i hi hp
    have hn : s.drop i ≠ [] := mt drop_eq_nil_iff.mp (Nat.not_le.mpr hi)
    refine h ⟨s.drop i ++ [35], (isPrefix_append_separator_iff hn).mp hp, ?_⟩
    exact suffix_concat_iff.mpr <| .inr ⟨_, rfl, drop_suffix i s⟩

theorem seriesAndField_iff :
    seriesAndFieldFromCompositeKey (seriesFieldKey s f) = (s, f) ↔ CleanKey s :=
  Separator.split_append_iff.trans clean_iff_cleanKey

theorem seriesFieldKey_inj (h₁ : CleanKey s₁) (h₂ : CleanKey s₂)
    (h : seriesFieldKey s₁ f₁ = seriesFieldKey s₂ f₂) : s₁ = s₂ ∧ f₁ = f₂ :=
  (clean_iff_cleanKey.mpr h₁).append_inj (clean_iff_cleanKey.mpr h₂) h

theorem separate_iff : Separate s₁ f₁ s₂ f₂ ↔ CleanKey s₁ ∧ CleanKey s₂ := by
  constructor
  case mp => exact fun h => ⟨seriesAndField_iff.mp h.first, seriesAndField_iff.mp h.second⟩
  case mpr =>
    intro ⟨h₁, h₂⟩
    refine ⟨fun hn he => hn ?_, seriesAndField_iff.mpr h₁, seriesAndField_iff.mpr h₂⟩
    have ⟨hs, hf⟩ := seriesFieldKey_inj h₁ h₂ he
    rw [hs, hf]

def twins : List Point :=
  [⟨[97], 1, [⟨98 :: keyFieldSeparator ++ [99], .ok (.boolean true)⟩]⟩,
   ⟨97 :: keyFieldSeparator ++ [98], 2, [⟨[99], .ok (.boolean false)⟩]⟩]

theorem twins_share_storage :
    Engine.pointValues twins = .ok (Finmap.singleton
      (seriesFieldKey [97] (98 :: keyFieldSeparator ++ [99]))
      [(1, .boolean true), (2, .boolean false)]) ∧
    seriesAndFieldFromCompositeKey (seriesFieldKey (97 :: keyFieldSeparator ++ [98]) [99]) =
      ([97], 98 :: keyFieldSeparator ++ [99]) ∧
    ¬Separate [97] (98 :: keyFieldSeparator ++ [99]) (97 :: keyFieldSeparator ++ [98]) [99] := by
  refine ⟨by decide +kernel, by decide +kernel, fun h => ?_⟩
  exact h.ne (by decide) (by decide)

end Tsm1
