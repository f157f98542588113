import Mathlib

namespace Simulation

def answers (call : σ → ι → α × σ) : σ → List ι → List α × σ
  | s, [] => ([], s)
  | s, i :: is =>
    let (a, s) := call s i
    let (as, s) := answers call s is
    (a :: as, s)

variable {f : σ → ι → α × σ} {g : τ → ι → α × τ} {s : σ} {t : τ}

theorem answers_of_simulates {R : σ → τ → Prop} {P : ι → Prop}
    (hc : ∀ s t i, R s t → P i → (f s i).1 = (g t i).1 ∧ R (f s i).2 (g t i).2)
    (h : R s t) (is : List ι) (hp : ∀ i ∈ is, P i) :
    (answers f s is).1 = (answers g t is).1 ∧
      R (answers f s is).2 (answers g t is).2 := by
  induction is generalizing s t
  case nil => exact ⟨rfl, h⟩
  case cons i is hi =>
    have ⟨hp, hps⟩ := List.forall_mem_cons.mp hp
    have ⟨ha, hr⟩ := hc s t i h hp
    have ⟨has, hr⟩ := hi hr hps
    exact ⟨congrArg₂ _ ha has, hr⟩

end Simulation
