import Mathlib

open List

namespace Pipe

def reads (n : Nat) (b : List α) : List (List α) :=
  go b.length b
where
  go : Nat → List α → List (List α)
    | 0, b => [b]
    | fuel + 1, b => if b.length ≤ n then [b] else b.take n :: go fuel (b.drop n)

theorem flatten_go {b : List α} : (reads.go n fuel b).flatten = b := by
  induction fuel generalizing b
  case zero => simp [reads.go]
  case succ hi =>
    rw [reads.go]
    split
    case isTrue => simp
    case isFalse => rw [flatten_cons, hi, take_append_drop]

theorem flatten_reads {b : List α} : (reads n b).flatten = b :=
  flatten_go

theorem ne_nil_of_mem_reads {b : List α} (hn : 0 < n) (hb : b ≠ []) (h : r ∈ reads n b) : r ≠ [] := by
  suffices ∀ fuel, ∀ b : List α, b ≠ [] → r ∈ reads.go n fuel b → r ≠ [] from this _ b hb h
  intro fuel
  induction fuel
  case zero =>
    intro b hb h
    exact mem_singleton.mp h ▸ hb
  case succ hi =>
    intro b hb h
    rw [reads.go] at h
    split at h
    case isTrue => exact mem_singleton.mp h ▸ hb
    case isFalse hl =>
      obtain rfl | h := mem_cons.mp h
      · exact ne_nil_of_length_pos <| by rw [length_take]; omega
      · exact hi _ (ne_nil_of_length_pos <| by rw [length_drop]; omega) h

theorem eq_of_length_flatten_le {l₁ l₂ : List (List α)} (h : l₁.Sublist l₂)
    (hn : ∀ x ∈ l₂, x ≠ []) (hl : l₂.flatten.length ≤ l₁.flatten.length) : l₁ = l₂ := by
  induction h
  case slnil => rfl
  case cons l₁ l₂ x h hi =>
    have hx : 0 < x.length := length_pos_iff.mpr <| hn x mem_cons_self
    have hle : l₁.flatten.length ≤ l₂.flatten.length := h.flatten.length_le
    rw [flatten_cons, length_append] at hl
    omega
  case cons_cons l₁ l₂ x h hi =>
    simp only [flatten_cons, length_append, Nat.add_le_add_iff_left] at hl
    rw [hi (fun y hy => hn y <| mem_cons_of_mem x hy) hl]

end Pipe
