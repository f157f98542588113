import Mathlib

open List

abbrev FileName := List Char

namespace FileName

instance lawfulBEq : LawfulBEq FileName := inferInstance

def lexLe : FileName → FileName → Bool
  | [], _ => true
  | _ :: _, [] => false
  | c :: s, d :: t => c.toNat < d.toNat || (c.toNat = d.toNat && lexLe s t)

theorem lexLe_append {s t : FileName} (hl : s.length = t.length) (hn : s ≠ t) (h : s.lexLe t)
    (u v : FileName) : lexLe (s ++ u) (t ++ v) := by
  induction s generalizing t <;> cases t <;> simp only [length_nil, length_cons,
    Nat.add_right_cancel_iff, reduceCtorEq] at hl
  case nil.nil => exact absurd rfl hn
  case cons.cons c s hi d t =>
    simp only [cons_append, lexLe, Bool.or_eq_true, Bool.and_eq_true, decide_eq_true_eq]
      at h ⊢
    refine h.imp_right fun ⟨hc, hst⟩ => ⟨hc, hi hl (fun he => hn ?_) hst⟩
    rw [he, Char.toNat_inj.mp hc]

end FileName

-- Unsigned numbers as they are written in file names.
namespace Decimal

def formatUint (n : Nat) : FileName :=
  Nat.toDigits 10 n

def parseUint (s : FileName) : Option Nat :=
  if s ≠ [] ∧ s.all Char.isDigit then some (Nat.ofDigitChars 10 s 0) else none

def IsNumeral (s : FileName) : Prop :=
  ∀ c ∈ s, c.isDigit

theorem formatUint_isNumeral (n : Nat) : IsNumeral (formatUint n) :=
  fun _ => Nat.isDigit_of_mem_toDigits (by decide) (by decide)

@[simp]
theorem parseUint_formatUint (n : Nat) : parseUint (formatUint n) = some n := by
  have hd := all_eq_true.mpr <| formatUint_isNumeral n
  simp [parseUint, hd]
  simp [formatUint]

theorem formatUint_injective : Function.Injective formatUint := by
  intro m n h
  have h := congrArg parseUint h
  simpa using h

theorem IsNumeral.head {c : Char} {s : FileName} (h : IsNumeral (c :: s)) :
    48 ≤ c.toNat ∧ c.toNat < 58 := by
  have h := h c mem_cons_self
  simp only [Char.isDigit, Bool.and_eq_true, decide_eq_true_eq, UInt32.le_iff_toNat_le] at h
  exact ⟨h.left, Nat.lt_succ_of_le h.right⟩

theorem IsNumeral.tail {c : Char} {s : FileName} (h : IsNumeral (c :: s)) : IsNumeral s :=
  fun d hd => h d <| mem_cons_of_mem _ hd

theorem ofDigitChars_cons_zero (c : Char) (s : FileName) :
    Nat.ofDigitChars 10 (c :: s) 0 = 10 ^ s.length * (c.toNat - 48) + Nat.ofDigitChars 10 s 0 := by
  rw [Nat.ofDigitChars_cons, Nat.ofDigitChars_eq_ofDigitChars_zero]
  simp

theorem IsNumeral.ofDigitChars_lt {s : FileName} (h : IsNumeral s) :
    Nat.ofDigitChars 10 s 0 < 10 ^ s.length := by
  induction s
  case nil => simp
  case cons c s hi =>
    have hc : 10 ^ s.length * (c.toNat - 48) ≤ 10 ^ s.length * 9 :=
      Nat.mul_le_mul_left _ <| by have := h.head; omega
    have hs := hi h.tail
    rw [ofDigitChars_cons_zero, length_cons, Nat.pow_succ]
    omega

theorem IsNumeral.lexLe_of_ofDigitChars_lt {s t : FileName} (hs : IsNumeral s) (ht : IsNumeral t)
    (hl : s.length = t.length) (h : Nat.ofDigitChars 10 s 0 < Nat.ofDigitChars 10 t 0) :
    s.lexLe t := by
  induction s generalizing t <;> cases t <;> simp at hl
  case nil.nil => rfl
  case cons.cons c s hi d t =>
    have hc := hs.head
    have hd := ht.head
    rw [ofDigitChars_cons_zero, ofDigitChars_cons_zero, hl] at h
    rcases Nat.lt_trichotomy c.toNat d.toNat with hlt | heq | hgt
    · simp [FileName.lexLe, hlt]
    · rw [heq] at h
      have hst := hi hs.tail ht.tail hl (by omega)
      simp [FileName.lexLe, heq, hst]
    · -- A larger leading digit outweighs all digits behind it.
      have hb := ht.tail.ofDigitChars_lt
      have hm : 10 ^ t.length * (d.toNat - 48 + 1) ≤ 10 ^ t.length * (c.toNat - 48) :=
        Nat.mul_le_mul_left _ (by omega)
      rw [Nat.mul_add, Nat.mul_one] at hm
      omega

def padUint (w n : Nat) : FileName :=
  List.replicate (w - (formatUint n).length) '0' ++ formatUint n

theorem padUint_isNumeral (w n : Nat) : IsNumeral (padUint w n) := by
  intro c hc
  rcases mem_append.mp hc with hc | hc
  case inl =>
    rw [eq_of_mem_replicate hc]
    rfl
  case inr => exact formatUint_isNumeral n c hc

theorem ofDigitChars_padUint (w n : Nat) : Nat.ofDigitChars 10 (padUint w n) 0 = n := by
  have hz (k : Nat) (s : FileName) :
      Nat.ofDigitChars 10 (List.replicate k '0' ++ s) 0 = Nat.ofDigitChars 10 s 0 := by
    induction k
    case zero => rfl
    case succ k hk =>
      rw [replicate_succ, cons_append, ofDigitChars_cons_zero, hk]
      simp
  rw [padUint, hz]
  simp [formatUint]

theorem padUint_ne_nil (w n : Nat) : padUint w n ≠ [] := by
  have h : formatUint n ≠ [] := Nat.toDigits_ne_nil
  simp [padUint, h]

theorem parseUint_padUint (w n : Nat) : parseUint (padUint w n) = some n := by
  have hd := all_eq_true.mpr <| padUint_isNumeral w n
  rw [parseUint, if_pos ⟨padUint_ne_nil w n, hd⟩, ofDigitChars_padUint]

theorem padUint_injective (w : Nat) : Function.Injective (padUint w) := by
  intro m n h
  have h := congrArg parseUint h
  simpa only [parseUint_padUint, Option.some.injEq] using h

theorem padUint_lexLe {m n : Nat} (h : m < n) (hl : (padUint w m).length = (padUint w n).length) :
    (padUint w m).lexLe (padUint w n) :=
  (padUint_isNumeral w m).lexLe_of_ofDigitChars_lt (padUint_isNumeral w n) hl <| by
    simpa only [ofDigitChars_padUint] using h

theorem formatUint_lexLe {m n : Nat} (h : m < n)
    (hl : (formatUint m).length = (formatUint n).length) :
    (formatUint m).lexLe (formatUint n) :=
  (formatUint_isNumeral m).lexLe_of_ofDigitChars_lt (formatUint_isNumeral n) hl <| by
    simpa [formatUint] using h

end Decimal
