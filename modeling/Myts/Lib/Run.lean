import Mathlib

-- The states that a system gets to from `s₀` by steps that all meet the condition `P`, which speaks
-- about the state before the step and the input of the step.
inductive Run {σ : Type u} {ι : Type v} (step : σ → ι → σ) (P : σ → ι → Prop) (s₀ : σ) : σ → Prop
  | refl : Run step P s₀ s₀
  | step : Run step P s₀ s → P s i → Run step P s₀ (step s i)

namespace Run

variable {step : σ → ι → σ} {P Q : σ → ι → Prop} {s₀ s : σ}

theorem invariant {I : σ → Prop} (h : Run step P s₀ s) (h₀ : I s₀)
    (hs : ∀ {s i}, I s → P s i → I (step s i)) : I s := by
  induction h
  case refl => exact h₀
  case step hp hi => exact hs hi hp

theorem mono (h : Run step P s₀ s) (hpq : ∀ {s i}, P s i → Q s i) : Run step Q s₀ s := by
  induction h
  case refl => exact .refl
  case step hp hi => exact .step hi <| hpq hp

theorem simulates {f : σ → τ} {step' : τ → ι → τ} {P' : τ → ι → Prop} (h : Run step P s₀ s)
    (hs : ∀ s i, f (step s i) = step' (f s) i) (hp : ∀ {s i}, P s i → P' (f s) i) :
    Run step' P' (f s₀) (f s) := by
  induction h
  case refl => exact .refl
  case step h hi => exact hs _ _ ▸ .step hi (hp h)

def All (step : σ → ι → σ) (P : σ → ι → Prop) : σ → List ι → Prop
  | _, [] => True
  | s, i :: is => P s i ∧ All step P (step s i) is

instance [∀ s i, Decidable (P s i)] : ∀ s is, Decidable (All step P s is)
  | _, [] => inferInstanceAs (Decidable True)
  | s, i :: is =>
    have := instDecidableAll (step s i) is
    inferInstanceAs (Decidable (P s i ∧ All step P (step s i) is))

theorem trans (h₁ : Run step P s₀ s) (h₂ : Run step P s s') : Run step P s₀ s' := by
  induction h₂
  case refl => exact h₁
  case step hp hi => exact .step hi hp

theorem foldl (h : All step P s is) : Run step P s (is.foldl step s) := by
  induction is generalizing s
  case nil => exact .refl
  case cons i is hi => exact trans (.step .refl h.left) (hi h.right)

theorem of_foldl_eq (is : List ι) (he : is.foldl step s = s') (h : All step P s is) :
    Run step P s s' :=
  he ▸ foldl h

theorem holds_foldl_iff {C Q : σ → Prop} (hc : ∀ {s i}, C s → C (step s i))
    (hq : ∀ {s i}, C s → (Q (step s i) ↔ Q s ∧ P s i)) (h : C s) :
    Q (is.foldl step s) ↔ Q s ∧ All step P s is := by
  induction is generalizing s
  case nil => exact (and_iff_left trivial).symm
  case cons i is hi => rw [List.foldl_cons, hi (hc h), hq h, and_assoc, All]

end Run
