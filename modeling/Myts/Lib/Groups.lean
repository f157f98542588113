import Mathlib

open List

-- A slice that is cut into a number of groups of the same length, where the last one has the rest.
namespace Groups

def cut (p : Nat) (l : List α) : List (List α) :=
  let n := l.length / p
  (List.range p).map fun i =>
    if i < p - 1 then (l.drop (i * n)).take n else l.drop (i * n)

theorem flatten_take (l : List α) (n k : Nat) :
    ((List.range k).map fun i => (l.drop (i * n)).take n).flatten = l.take (k * n) := by
  induction k
  case zero => simp
  case succ k hi =>
    rw [range_succ, map_append, flatten_append, hi, Nat.succ_mul, take_add]
    simp

theorem cut_succ (p : Nat) (l : List α) : cut (p + 1) l =
    ((List.range p).map fun i => (l.drop (i * (l.length / (p + 1)))).take (l.length / (p + 1))) ++
      [l.drop (p * (l.length / (p + 1)))] := by
  rw [cut, Nat.add_sub_cancel, range_succ, map_append]
  refine congrArg₂ (· ++ ·) (map_congr_left fun i hi => if_pos (List.mem_range.mp hi)) ?_
  rw [map_singleton, if_neg (lt_irrefl p)]

theorem flatten_cut (hp : 0 < p) (l : List α) : (cut p l).flatten = l := by
  obtain ⟨p, rfl⟩ := Nat.exists_eq_add_one.mpr hp
  rw [cut_succ, flatten_append, flatten_take, flatten_singleton, take_append_drop]

theorem zip_cut {l₁ : List α} {l₂ : List β} (h : l₁.length = l₂.length) :
    List.zipWith List.zip (cut p l₁) (cut p l₂) = cut p (l₁.zip l₂) := by
  rw [cut, cut, cut, zipWith_map, zipWith_self, length_zip, ← h, min_self]
  refine map_congr_left fun i _ => ?_
  split
  case isTrue => simp only [List.zip, take_zipWith, drop_zipWith]
  case isFalse => simp only [List.zip, drop_zipWith]

end Groups
