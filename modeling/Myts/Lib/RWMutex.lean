import Mathlib

-- A lock that is held by one writer or by readers. A writer that waits for the readers to leave
-- keeps new readers out.
structure RWMutex (κ : Type) where
  writer : Option κ
  pending : Option κ
  readers : Finset κ

namespace RWMutex

variable [DecidableEq κ]

def free : RWMutex κ := ⟨none, none, ∅⟩

def announce (m : RWMutex κ) (p : κ) : Option (RWMutex κ) :=
  if m.writer = none ∧ m.pending = none then some { m with pending := some p } else none

def lock (m : RWMutex κ) (p : κ) : Option (RWMutex κ) :=
  if m.pending = some p ∧ m.readers = ∅ then
    some { m with writer := some p, pending := none }
  else
    none

def unlock (m : RWMutex κ) : RWMutex κ :=
  { m with writer := none }

def rlock (m : RWMutex κ) (p : κ) : Option (RWMutex κ) :=
  if m.writer = none ∧ m.pending = none then
    some { m with readers := insert p m.readers }
  else
    none

def runlock (m : RWMutex κ) (p : κ) : RWMutex κ :=
  { m with readers := m.readers.erase p }

structure Exclusive (m : RWMutex κ) : Prop where
  pending : m.writer.isSome → m.pending = none
  readers : m.writer.isSome → m.readers = ∅

variable {m m' : RWMutex κ}

omit [DecidableEq κ] in
theorem announce_eq_some : m.announce p = some m' ↔
    m.writer = none ∧ m.pending = none ∧ m' = { m with pending := some p } := by
  rw [announce, Option.ite_none_right_eq_some, Option.some.injEq, and_assoc, @eq_comm _ m']

theorem lock_eq_some : m.lock p = some m' ↔
    m.pending = some p ∧ m.readers = ∅ ∧ m' = { m with writer := some p, pending := none } := by
  rw [lock, Option.ite_none_right_eq_some, Option.some.injEq, and_assoc, @eq_comm _ m']

theorem rlock_eq_some : m.rlock p = some m' ↔
    m.writer = none ∧ m.pending = none ∧ m' = { m with readers := insert p m.readers } := by
  rw [rlock, Option.ite_none_right_eq_some, Option.some.injEq, and_assoc, @eq_comm _ m']

namespace Exclusive

omit [DecidableEq κ] in
theorem free : (free : RWMutex κ).Exclusive where
  pending := nofun
  readers := nofun

omit [DecidableEq κ] in
theorem announce (h : m.announce p = some m') : m'.Exclusive := by
  obtain ⟨hw, -, rfl⟩ := announce_eq_some.mp h
  exact ⟨by simp [hw], by simp [hw]⟩

theorem lock (h : m.lock p = some m') : m'.Exclusive := by
  obtain ⟨-, hr, rfl⟩ := lock_eq_some.mp h
  exact ⟨fun _ => rfl, fun _ => hr⟩

theorem rlock (h : m.rlock p = some m') : m'.Exclusive := by
  obtain ⟨hw, -, rfl⟩ := rlock_eq_some.mp h
  exact ⟨by simp [hw], by simp [hw]⟩

omit [DecidableEq κ] in
theorem unlock : m.unlock.Exclusive where
  pending := nofun
  readers := nofun

theorem runlock (h : m.Exclusive) : (m.runlock p).Exclusive where
  pending := h.pending
  readers hw := by simp [RWMutex.runlock, h.readers hw]

omit [DecidableEq κ] in
theorem writer_of_pending (h : m.Exclusive) (hp : m.pending = some p) : m.writer = none := by
  by_contra hw
  have := h.pending <| Option.isSome_iff_ne_none.mpr hw
  simp [hp] at this

end Exclusive
end RWMutex
