import Myts.Hh.Cursor
import Myts.Hh.Theorems.Segment

namespace Hh

open Bytes

theorem length_records (bs : List Bytes) : (records bs).length = (bs.map (·.length + 8)).sum := by
  induction bs
  case nil => rfl
  case cons b bs hi => simp [hi]

namespace Cursor

variable {l : Segment} {f : Fifo Bytes}

theorem used_eq (f : Fifo Bytes) : used f = (layout f.gone f.pending).length := by
  rw [used, f.conserved, length_layout, length_records, length_records, List.map_append,
    List.sum_append]

structure Shows (maxSize : Int64) (l : Segment) (f : Fifo Bytes) : Prop where
  holds : l.Holds f.gone f.pending
  maxSize : l.maxSize = maxSize

namespace Shows

variable {m : Int64} (h : Shows m l f)

include h

theorem append (hb : b ≠ []) : (l.call (.append b)).1 = (call m f (.append b)).1 ∧
    Shows m (l.call (.append b)).2 (call m f (.append b)).2 := by
  have hs := h.holds.size
  rw [← used_eq] at hs
  rw [Segment.call, call, ← h.maxSize, ← hs]
  split
  case isTrue hf =>
    rw [h.holds.append_full hf]
    exact ⟨rfl, h.holds, rfl⟩
  case isFalse hf =>
    obtain ⟨l', hr, hl', _, hm⟩ := h.holds.append_fits hb hf
    rw [hr]
    exact ⟨rfl, hl', hm⟩

theorem current : (l.call .current).1 = (call m f .current).1 ∧
    Shows m (l.call .current).2 (call m f .current).2 := by
  have hh := h.holds
  rw [Segment.call, call]
  cases hp : f.pending
  case nil =>
    rw [hp] at hh
    rw [hh.current_eof]
    exact ⟨rfl, h⟩
  case cons b rest =>
    rw [hp] at hh
    obtain ⟨l', hr, hl', _, hm⟩ := hh.current_ok
    rw [hr]
    rw [← hp] at hl'
    exact ⟨rfl, hl', hm.trans h.maxSize⟩

theorem advance : (l.call .advance).1 = (call m f .advance).1 ∧
    Shows m (l.call .advance).2 (call m f .advance).2 := by
  have ⟨l', hr, hl', _, hm⟩ := h.holds.advance
  have hs : Shows m l' (f.drop 1) := ⟨hl', hm.trans h.maxSize⟩
  rw [Segment.call, call, hr]
  split
  case isTrue => exact ⟨rfl, hs⟩
  case isFalse => exact ⟨rfl, hs⟩

theorem reopen : (l.call .reopen).1 = (call m f .reopen).1 ∧
    Shows m (l.call .reopen).2 (call m f .reopen).2 := by
  have ⟨file, hf, hc⟩ := h.holds.file
  have ⟨l', hr, hl', _, hm⟩ := h.holds.newSegment l.path
  have he : l.reopen = .ok () l' := by
    rw [← hr, ← hc]
    obtain ⟨sz, _, pa, ps, cs, mx⟩ := l
    cases hf
    rfl
  rw [Segment.call, call, he]
  exact ⟨rfl, hl', hm.trans h.maxSize⟩

theorem call (c : Segment.Call) (hc : ∀ b, c = .append b → b ≠ []) :
    (l.call c).1 = (Cursor.call m f c).1 ∧ Shows m (l.call c).2 (Cursor.call m f c).2 := by
  cases c
  case append b => exact h.append (hc b rfl)
  case current => exact h.current
  case advance => exact h.advance
  case reopen => exact h.reopen

end Shows

end Cursor

-- A segment answers as the queue does, whatever its callers do, and its file and its fields say
-- what the queue has.
theorem Segment.refines_cursor (path : FileName) (maxSize : Int64) (calls : List Call)
    (hc : ∀ b, .append b ∈ calls → b ≠ []) :
    ∃ l₀, newSegment path [] maxSize = .ok () l₀ ∧
      let (as, l) := Simulation.answers call l₀ calls
      let (as', f) := Simulation.answers (Cursor.call maxSize) .empty calls
      as = as' ∧
      (∃ file, l.file = some file ∧ l.size = file.content.length ∧
        file.content = records f.gone ++ records f.pending ++ putUint64 (records f.gone).length) ∧
      l.pos = (records f.gone).length ∧
      l.currentSize = (f.pending.head?.elim 0 List.length : Nat) := by
  have ⟨l₀, hl₀, hh, _, hm⟩ := Holds.newSegment_empty path maxSize
  have hs : Cursor.Shows maxSize l₀ .empty := ⟨hh, hm⟩
  have ⟨ha, hl⟩ := Simulation.answers_of_simulates (f := call) (g := Cursor.call maxSize)
    (P := fun c => ∀ b, c = .append b → b ≠ []) (fun s t c h => h.call c) hs calls
    fun c hmem b hb => hc b (hb ▸ hmem)
  have ⟨file, hf, hcont⟩ := hl.holds.file
  exact ⟨l₀, hl₀, ha, ⟨file, hf, hcont ▸ hl.holds.size, hcont⟩, hl.holds.pos, hl.holds.currentSize⟩

theorem Segment.refines_cursor_reopened :
    let calls := [.append [1], .append [2, 3], .current, .advance, .reopen, .advance, .current]
    (∀ b, Call.append b ∈ calls → b ≠ []) ∧
      ∃ l₀, newSegment (Decimal.formatUint 1) [] 100 = .ok () l₀ ∧
        let (as, l) := Simulation.answers call l₀ calls
        let (as', f) := Simulation.answers (Cursor.call 100) .empty calls
        as = as' ∧
        (∃ file, l.file = some file ∧ l.size = file.content.length ∧
          file.content = records f.gone ++ records f.pending ++ putUint64 (records f.gone).length) ∧
        l.pos = (records f.gone).length ∧
        l.currentSize = (f.pending.head?.elim 0 List.length : Nat) := by
  have hc : ∀ b, Call.append b ∈
      [.append [1], .append [2, 3], .current, .advance, .reopen, .advance, .current] → b ≠ [] := by
    simp
  exact ⟨hc, refines_cursor _ _ _ hc⟩

end Hh
