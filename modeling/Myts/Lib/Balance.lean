import Mathlib

-- Loads that are given one by one to a place with the smallest load.
namespace Balance

variable [DecidableEq κ]

def bump (load : κ → Nat) (n : κ) : κ → Nat :=
  Function.update load n (load n + 1)

@[simp]
theorem bump_self (load : κ → Nat) (n : κ) : bump load n n = load n + 1 :=
  Function.update_self ..

theorem bump_of_ne (load : κ → Nat) (h : r ≠ n) : bump load n r = load r :=
  Function.update_of_ne h ..

def Fair (R : Finset κ) : (κ → Nat) → List κ → Prop
  | _, [] => True
  | load, n :: ns => (n ∈ R ∧ ∀ r ∈ R, load n ≤ load r) ∧ Fair R (bump load n) ns

def room (N : Finset κ) (load : κ → Nat) (t : Nat) : Nat :=
  ∑ n ∈ N, (t - load n)

variable {N R : Finset κ} {load : κ → Nat}

theorem room_bump (hn : n ∈ N) (h : load n < t) : room N (bump load n) t + 1 = room N load t := by
  rw [room, room, ← Finset.add_sum_erase N _ hn, ← Finset.add_sum_erase N _ hn, bump_self]
  have hr : ∑ r ∈ N.erase n, (t - bump load n r) = ∑ r ∈ N.erase n, (t - load r) :=
    Finset.sum_congr rfl fun r hr => by rw [bump_of_ne load (Finset.ne_of_mem_erase hr)]
  rw [hr]
  omega

omit [DecidableEq κ] in
theorem exists_lt_of_room (h : 0 < room N load t) : ∃ n ∈ N, load n < t := by
  by_contra hn
  push Not at hn
  have : room N load t = 0 := Finset.sum_eq_zero fun n hm => Nat.sub_eq_zero_of_le (hn n hm)
  omega

theorem Fair.congr {load' : κ → Nat} (h : ∀ r ∈ R, load r = load' r) (hf : Fair R load ns) :
    Fair R load' ns := by
  induction ns generalizing load load'
  case nil => trivial
  case cons n ns hi =>
    obtain ⟨⟨hn, hl⟩, hf⟩ := hf
    refine ⟨⟨hn, fun r hr => h n hn ▸ h r hr ▸ hl r hr⟩, hi (fun r hr => ?_) hf⟩
    by_cases he : r = n
    case pos => rw [he, bump_self, bump_self, h n hn]
    case neg => rw [bump_of_ne load he, bump_of_ne load' he, h r hr]

theorem fair_congr {load' : κ → Nat} (h : ∀ r ∈ R, load r = load' r) :
    Fair R load ns ↔ Fair R load' ns :=
  ⟨Fair.congr h, Fair.congr fun r hr => (h r hr).symm⟩

end Balance
