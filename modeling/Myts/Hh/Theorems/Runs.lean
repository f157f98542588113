import Myts.Hh.Theorems.History

open List

namespace Hh

open View

theorem Queue.Repr.headSegment?_open {q : Queue} (h : Repr q m vs) :
    ∃ l ∈ q.headSegment?, l.file.isSome := by
  obtain _ | ⟨v, vs⟩ := vs
  case nil => exact absurd rfl h.nonempty
  have ⟨l, hl, hs⟩ := h.shown v mem_cons_self
  have ⟨f, hf, _⟩ := hs.holds.file
  exact ⟨l, by simp [headSegment?, h.head_eq, hl], by simp [hf]⟩

theorem Queue.Repr.tailSegment?_open {q : Queue} (h : Repr q m vs) :
    ∃ l ∈ q.tailSegment?, l.file.isSome := by
  obtain ⟨us, v, rfl⟩ := (eq_nil_or_concat' vs).resolve_left h.nonempty
  have ⟨l, hl, hs⟩ := h.shown v (by simp)
  have ⟨f, hf, _⟩ := hs.holds.file
  exact ⟨l, by simp [tailSegment?, h.tail_eq _, hl], by simp [hf]⟩

namespace View

variable {v w : View} {vs : List View}

def Undrained (vs : List View) : Prop :=
  ∀ v ∈ vs.dropLast, v.todo ≠ []

theorem Undrained.eq_singleton (h : Undrained (v :: vs)) (hv : v.todo = []) : vs = [] := by
  cases vs
  case nil => rfl
  case cons => exact absurd hv <| h v mem_cons_self

theorem Undrained.concat (h : Undrained (vs ++ [v])) (hv : v.todo ≠ []) :
    Undrained (vs ++ [v] ++ [w]) := by
  intro u hu
  rw [dropLast_concat, mem_append, mem_singleton] at hu
  cases hu
  case inl hu => exact h u <| by rwa [dropLast_concat]
  case inr hu => exact hu ▸ hv

theorem Undrained.advance (h : Undrained vs) : Undrained (advance vs) := by
  match vs with
  | [] => exact h
  | [v] => simp [Undrained, View.advance, View.trim]
  | v :: w :: vs =>
    by_cases hv : v.pop.todo = []
    case pos =>
      rw [View.advance, trim_of_drained hv]
      exact fun u hu => h u <| mem_cons_of_mem v hu
    case neg =>
      rw [View.advance, trim_of_unread hv]
      intro u hu
      cases hu
      case head => exact hv
      case tail hu => exact h u <| mem_cons_of_mem v hu

end View

theorem Queue.Repr.tailUnread_iff {q : Queue} (h : Repr q m (vs ++ [v])) :
    q.TailUnread ↔ v.todo ≠ [] := by
  have ⟨l, hl, hs⟩ := h.shown v (by simp)
  simp [TailUnread, tailSegment?, h.tail_eq _, hl, hs.holds.drained_iff]

namespace Effect

variable {q : Queue} {m : Int64} {vs vs' : List View} {f f' : Fifo Bytes}

theorem undrained (he : Effect q m op vs vs' f f') (hq : q.Repr m vs) (ho : op.KeepsUnread q)
    (hu : Undrained vs) : Undrained vs' := by
  cases he
  case rejected => exact hu
  case fits => exact fun v hv => hu v <| by rwa [dropLast_concat] at hv ⊢
  case current => exact hu
  case advance => exact hu.advance
  case purged => exact ho.elim
  all_goals
    obtain ⟨us, v, rfl⟩ := (eq_nil_or_concat' vs).resolve_left hq.nonempty
    exact hu.concat <| hq.tailUnread_iff.mp <| ho.right ‹_›

theorem pending_eq_nil (he : Effect q m op vs vs' f f') (hm : m.toInt ≤ 8)
    (hp : pending vs = []) : pending vs' = [] := by
  cases he
  case rejected => exact hp
  case fits => exact absurd ‹8 < m.toInt› <| Int.not_lt.mpr hm
  case rolled => exact absurd ‹8 < m.toInt› <| Int.not_lt.mpr hm
  case oversize hw => rw [pending_append, hp, pending_cons, hw]; rfl
  case current => exact hp
  case advance v vs =>
    rw [pending_advance] at hp
    exact (append_eq_nil_iff.mp hp).right
  case purged k =>
    rw [← take_append_drop k vs, pending_append] at hp
    exact (append_eq_nil_iff.mp hp).right

end Effect

namespace History

variable {h : History} {maxSize segmentSize : Int64}

theorem accepted_eq_gone_append_readable
    (hr : Run step (fun h op => op.Safe h.queue) (init maxSize segmentSize) h) :
    h.accepted = h.gone ++ h.queue.readable ∧
    h.queue.head = h.queue.segments.head? ∧
    h.queue.tail = h.queue.segments.getLast? ∧
    (∃ l ∈ h.queue.headSegment?, l.file.isSome) ∧
    (∃ l ∈ h.queue.tailSegment?, l.file.isSome) := by
  have ⟨vs, f, hi⟩ := Refines.run hr
  exact ⟨hi.conserved, hi.repr.head, hi.repr.tail, hi.repr.headSegment?_open, hi.repr.tailSegment?_open⟩

-- A purge of the only segment leaves the tail behind, and the next entry is written to nowhere.
theorem append_lost_after_purge :
    let h := [.append [1], .purgeOlderThan [0, 10000000000] 5000000000, .append [2]].foldl step
      (init 1000 100)
    h.accepted = [[1], [2]] ∧ h.gone = [[1]] ∧ h.queue.readable = [] ∧
    h.queue.tail ≠ h.queue.segments.getLast? := by
  decide +kernel

theorem accepted_eq_gone_append_readable_purge :
    let h := [.append [1], .append [2], .purgeOlderThan [0, 10000000000] 5000000000, .append [3],
      .current, .advance].foldl step (init 1000 17)
    h.gone = [[1], [2]] ∧ h.accepted = h.gone ++ h.queue.readable :=
  ⟨by decide +kernel, (accepted_eq_gone_append_readable <| .foldl <| by decide +kernel).left⟩

theorem Refines.run_undrained
    (hr : Run History.step (fun h op => op.KeepsUnread h.queue) (History.init maxSize segmentSize) h) :
    ∃ vs f, Refines h segmentSize vs f ∧
      (8 < segmentSize.toInt → Undrained vs) ∧ (segmentSize.toInt ≤ 8 → View.pending vs = []) := by
  refine hr.invariant (I := fun h => ∃ vs f, Refines h segmentSize vs f ∧
    (8 < segmentSize.toInt → Undrained vs) ∧
    (segmentSize.toInt ≤ 8 → View.pending vs = [])) ?_ ?_
  · have ⟨vs, hi, hv, _, hl⟩ := Refines.init maxSize segmentSize
    refine ⟨vs, _, hi, fun hm => ?_, fun _ => by simpa [View.pending] using fun v h => (hv v h).2⟩
    obtain ⟨v, hv⟩ := length_eq_one_iff.mp <| hl hm
    simp [Undrained, hv]
  · rintro h op ⟨vs, f, hi, hu, hp⟩ ho
    obtain ⟨vs', f', he, hi'⟩ := hi.step ho.safe
    exact ⟨vs', f', hi', he.undrained hi.repr ho ∘ hu, fun hm => he.pending_eq_nil hm (hp hm)⟩

theorem current_eof_of_all_gone
    (hr : Run step (fun h op => op.KeepsUnread h.queue) (init maxSize segmentSize) h)
    (hc : Queue.current.run h.queue = .error .eof q) : h.accepted = h.gone := by
  have ⟨vs, f, hi, hu, hp⟩ := Refines.run_undrained hr
  have hn : View.pending vs = [] := by
    obtain _ | ⟨v, vs⟩ := vs
    case nil => rfl
    cases hv : v.todo
    case cons =>
      have ⟨_, hc', _⟩ := hi.repr.current_ok hv
      simp [hc'] at hc
    case nil =>
      by_cases hm : segmentSize.toInt ≤ 8
      case pos => exact hp hm
      case neg =>
        rw [(hu <| Int.not_le.mp hm).eq_singleton hv, pending_cons, hv]
        rfl
  rw [hi.accepted, hi.gone, f.conserved, hi.pending, hn, append_nil]

theorem current_eof_of_all_gone_advanced :
    let h := [.append [1], .append [2], .advance, .current, .advance].foldl step (init 1000 17)
    h.accepted = [[1], [2]] ∧ h.accepted = h.gone :=
  ⟨by decide +kernel, current_eof_of_all_gone (.foldl <| by decide +kernel) rfl⟩

-- The head has been drained before the tail behind it was started.
theorem current_eof_stuck :
    let h := [.append [1], .advance, .append [2]].foldl step (init 1000 17)
    h.accepted = [[1], [2]] ∧ h.gone = [[1]] ∧ ∃ q, Queue.current.run h.queue = .error .eof q := by
  refine ⟨by decide +kernel, by decide +kernel, _, rfl⟩

end History
end Hh
