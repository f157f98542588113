import Mathlib

-- A queue that remembers what has been put into it and what has been taken out of it.
structure Fifo (α : Type u) where
  accepted : List α
  gone : List α
  pending : List α
  conserved : accepted = gone ++ pending

namespace Fifo

variable {f : Fifo α}

@[simps]
def empty : Fifo α where
  accepted := []
  gone := []
  pending := []
  conserved := rfl

@[simps]
def push (f : Fifo α) (a : α) : Fifo α where
  accepted := f.accepted ++ [a]
  gone := f.gone
  pending := f.pending ++ [a]
  conserved := by rw [f.conserved, List.append_assoc]

@[simps]
def drop (f : Fifo α) (n : Nat) : Fifo α where
  accepted := f.accepted
  gone := f.gone ++ f.pending.take n
  pending := f.pending.drop n
  conserved := by rw [List.append_assoc, List.take_append_drop, f.conserved]

end Fifo
