import Myts.Hh.Theorems.Runs

open List

namespace Hh

open View Decimal

namespace View

def renumber (k : Nat) : List View → List View
  | [] => []
  | v :: vs => { v with ref := k } :: renumber (k + 1) vs

variable {v : View} {vs : List View}

@[simp]
theorem renumber_map_entry : (renumber k vs).map entry = vs.map entry := by
  induction vs generalizing k
  case nil => rfl
  case cons v _ h => exact congrArg (v.entry :: ·) h

@[simp]
theorem renumber_map_id : (renumber k vs).map (·.id) = vs.map (·.id) := by
  induction vs generalizing k
  case nil => rfl
  case cons v _ h => exact congrArg (v.id :: ·) h

@[simp]
theorem renumber_map_todo : (renumber k vs).map (·.todo) = vs.map (·.todo) := by
  induction vs generalizing k
  case nil => rfl
  case cons v _ h => exact congrArg (v.todo :: ·) h

theorem renumber_tail : (renumber k vs).tail = renumber (k + 1) vs.tail := by
  cases vs <;> rfl

theorem Undrained.congr {ws : List View} (h : Undrained vs)
    (he : ws.map (·.todo) = vs.map (·.todo)) : Undrained ws := by
  intro w hw
  have ht := mem_map_of_mem (f := (·.todo)) hw
  rw [map_dropLast, he, ← map_dropLast] at ht
  have ⟨v, hv, hvw⟩ := mem_map.mp ht
  exact hvw ▸ h v hv

theorem Undrained.trim (h : Undrained vs.tail) : Undrained (trim vs) := by
  match vs with
  | [] => exact h
  | [v] => simp [Undrained, View.trim]
  | v :: w :: vs =>
    by_cases hv : v.todo = []
    case pos => rwa [trim_of_drained hv]
    case neg =>
      rw [trim_of_unread hv]
      intro u hu
      cases hu
      case head => exact hv
      case tail hu => exact h u hu

theorem renumber_ne_nil (h : vs ≠ []) : renumber k vs ≠ [] := by
  cases vs
  case nil => contradiction
  case cons => exact cons_ne_nil _ _

theorem pending_renumber : pending (renumber k vs) = pending vs := by
  rw [pending, flatMap_def, renumber_map_todo, ← flatMap_def, pending]

theorem renumber_map_ref : (renumber k vs).map (·.ref) = List.range' k vs.length := by
  induction vs generalizing k
  case nil => rfl
  case cons v _ h => exact congrArg (k :: ·) h

end View

namespace Queue

variable {q : Queue} {m : Int64} {vs : List View}

theorem forSegments_close {rs : List Ref} (hr : rs.Nodup)
    (hl : ∀ r ∈ rs, ∃ l, q.heap[r]? = some l ∧ l.file ≠ none) :
    ∃ heap, (forSegments Segment.close rs).run q = .ok () { q with heap } := by
  induction rs generalizing q
  case nil => exact ⟨q.heap, rfl⟩
  case cons r rs hi =>
    obtain ⟨hr, hrs⟩ := nodup_cons.mp hr
    obtain ⟨l, hl', hf⟩ := hl r mem_cons_self
    obtain ⟨f, hf⟩ := Option.ne_none_iff_exists'.mp hf
    have hc : Segment.close.run l = .ok () { l with file := none } := by
      simp [Segment.close, hf]
    obtain ⟨heap, hh⟩ := @hi (q.store r { l with file := none }) hrs <| by
      intro r' hr'
      have hn : r ≠ r' := fun he => hr <| he ▸ hr'
      simpa [store, getElem?_set_ne hn] using hl r' (mem_cons_of_mem _ hr')
    refine ⟨heap, ?_⟩
    rw [forSegments, EStateM.run_bind, onSegment_run hl', hc]
    exact hh

theorem Repr.close (h : Repr q m vs) :
    ∃ heap, close.run q = .ok () { q with heap, head := none, tail := none, segments := [] } := by
  have ⟨heap, hc⟩ := forSegments_close (q := q) h.distinct <| by
    intro r hr
    have ⟨v, hv, hr⟩ := mem_map.mp hr
    have ⟨l, hl, hs⟩ := h.shown v hv
    have ⟨f, hf, _⟩ := hs.holds.file
    exact ⟨l, hr ▸ hl, by simp [hf]⟩
  refine ⟨heap, ?_⟩
  simp only [Queue.close, EStateM.run_bind, EStateM.run_get, h.segments, hc, EStateM.run_modify]

theorem Stored.dir_sorted (h : Stored q m vs) (hw : q.SameWidth) :
    q.dir.Pairwise (·.name.lexLe ·.name) := by
  have ho := pairwise_map.mp h.ordered
  unfold SameWidth at hw
  rw [h.dir] at hw ⊢
  rw [pairwise_map]
  refine ho.imp_of_mem fun hv hv' hlt => formatUint_lexLe hlt ?_
  exact hw _ (mem_map_of_mem hv) _ (mem_map_of_mem hv')

theorem loadSegments_go (hd : (q.dir.map (·.name)).Nodup) (he : ∀ v ∈ vs, v.entry ∈ q.dir)
    (hv : ∀ v ∈ vs, ∃ l : Segment, l.Holds v.done v.todo ∧ l.maxSize = q.maxSegmentSize) :
    ∃ ls, (loadSegments.go (vs.map entry)).run q =
        .ok ((renumber q.heap.length vs).map (·.ref)) { q with heap := q.heap ++ ls } ∧
      ∀ v ∈ renumber q.heap.length vs,
        ∃ l, (q.heap ++ ls)[v.ref]? = some l ∧ l.Shows v q.maxSegmentSize := by
  induction vs generalizing q
  case nil => exact ⟨[], by simp [loadSegments.go, renumber], by simp [renumber]⟩
  case cons v vs hi =>
    have ⟨l₀, hl₀, hm₀⟩ := hv v mem_cons_self
    have ⟨l, hl, hs, hp, hm⟩ := hl₀.newSegment (formatUint v.id)
    have hf := Directory.openFile_of_mem (he v mem_cons_self) hd
    have hw := Directory.write_of_mem (he v mem_cons_self) hd
    have hs : l.Shows { v with ref := q.heap.length } q.maxSegmentSize := ⟨hs, hp, hm.trans hm₀⟩
    have hr := newSegment_run hf (hm₀ ▸ hl)
    rw [(hs.flush q.dir).trans hw] at hr
    have ⟨ls, hg, hls⟩ := @hi { q with heap := q.heap ++ [l] } hd
      (fun v hv => he v <| mem_cons_of_mem _ hv) (fun w hw => hv w <| mem_cons_of_mem _ hw)
    have hn : ¬(v.entry.isDir = true ∨ parseUint v.entry.name = none) := by simp [entry]
    simp only [length_append, length_singleton, append_assoc] at hg hls
    refine ⟨[l] ++ ls, ?_, ?_⟩
    · simp only [map_cons, loadSegments.go, hn, if_false, EStateM.run_bind, hr, hg,
        EStateM.run_pure, renumber]
    · intro w hw
      cases hw
      case head => exact ⟨l, by simp, hs⟩
      case tail hw => exact hls w hw

theorem Repr.open (h : Repr q m vs) (hw : q.SameWidth) (heap : List Segment) :
    ∃ q', «open».run { q with heap, head := none, tail := none, segments := [] } = .ok () q' ∧
      Repr q' m (trim (renumber heap.length vs)) := by
  have hs := h.dir_sorted hw
  have hd : (q.dir.map (·.name)).Nodup := by
    have ho := (pairwise_map.mp h.ordered).imp Nat.ne_of_lt
    rw [h.dir, map_map, List.Nodup, pairwise_map]
    exact ho.imp <| mt fun he => formatUint_injective he
  have ⟨ls, hg, hls⟩ :=
    @loadSegments_go { q with heap, head := none, tail := none, segments := [] } vs hd
      (fun v hv => h.dir ▸ mem_map_of_mem hv)
      (fun v hv => have ⟨l, _, hl⟩ := h.shown v hv; ⟨l, hl.holds, hl.maxSize.trans h.limit.symm⟩)
  let q' : Queue := { q with
    heap := heap ++ ls
    segments := (renumber heap.length vs).map (·.ref)
    head := ((renumber heap.length vs).map (·.ref)).head?
    tail := ((renumber heap.length vs).map (·.ref)).getLast?
  }
  have hr : Repr q' m (renumber heap.length vs) := {
    segments := rfl
    head := rfl
    tail := rfl
    limit := h.limit
    dir := by rw [renumber_map_entry]; exact h.dir
    ordered := by rw [renumber_map_id]; exact h.ordered
    distinct := by rw [renumber_map_ref]; exact nodup_range'
    nonempty := renumber_ne_nil h.nonempty
    shown v hv := by rw [← h.limit]; exact hls v hv
  }
  have ⟨q'', hk, hr'⟩ := hr.skipDrained
  refine ⟨q'', ?_, hr'⟩
  have hn : (renumber heap.length vs).map (·.ref) ≠ [] := by simpa using hr.nonempty
  have hl : loadSegments.run { q with heap, head := none, tail := none, segments := [] } =
      (loadSegments.go q.dir.readDir).run
        { q with heap, head := none, tail := none, segments := [] } := rfl
  rw [Directory.readDir_of_sorted hs, congrArg loadSegments.go h.dir, hg] at hl
  simp only [Queue.open, EStateM.run_bind, hl, EStateM.run_modify, hn, if_false]
  exact hk

theorem Repr.reopen (h : Repr q m vs) (hw : q.SameWidth) :
    ∃ k q', reopen.run q = .ok () q' ∧ Repr q' m (trim (renumber k vs)) := by
  have ⟨heap, hc⟩ := h.close
  have ⟨q', ho, h'⟩ := h.open hw heap
  exact ⟨heap.length, q', by simp only [Queue.reopen, EStateM.run_bind, hc, ho], h'⟩

theorem Repr.readableUntilEOF_go (h : Repr q m vs) (hu : Undrained vs)
    (hn : (pending vs).length < n) : readableUntilEOF.go n q = pending vs := by
  induction n generalizing q vs
  case zero => contradiction
  case succ n hi =>
    obtain _ | ⟨v, vs⟩ := vs
    case nil => exact absurd rfl h.nonempty
    rw [readableUntilEOF.go, h.current?_eq]
    cases hv : v.todo
    case nil =>
      rw [hu.eq_singleton hv, pending_cons, hv]
      rfl
    case cons b bs =>
      have hp := pending_advance v vs
      rw [hv, take_one, head?_cons, Option.toList_some, singleton_append] at hp
      rw [hp] at hn ⊢
      rw [head?_cons, hi h.after_current.after_advance hu.advance (Nat.lt_of_succ_lt_succ hn)]

theorem Repr.readableUntilEOF_eq (h : Repr q m vs) (hu : Undrained vs) :
    q.readableUntilEOF = pending vs := by
  have hl := length_pos_of_ne_nil h.nonempty
  have hr := h.rounds_le
  exact h.readableUntilEOF_go hu (by omega)

theorem Repr.undrained_tail (h : Repr q m vs) (hm : q.MiddleUnread) : Undrained vs.tail := by
  intro v hv
  have hr : v.ref ∈ q.segments.tail.dropLast := by
    rw [h.segments, ← map_tail, ← map_dropLast]
    exact mem_map_of_mem hv
  have ⟨l, hl, hd⟩ := hm _ hr
  have ⟨l', hl', hs⟩ := h.shown v <| mem_of_mem_tail <| dropLast_subset _ hv
  cases Option.some.inj <| hl'.symm.trans hl
  exact mt hs.holds.drained_iff.mpr hd

end Queue

namespace History

variable {h : History} {maxSize segmentSize : Int64}

theorem reopen_reads_what_is_not_gone
    (hr : Run step (fun h op => op.Safe h.queue) (init maxSize segmentSize) h)
    (hw : h.queue.SameWidth) :
    ∃ q, Queue.reopen.run h.queue = .ok () q ∧ h.accepted = h.gone ++ q.readable ∧
      (h.queue.MiddleUnread → h.accepted = h.gone ++ q.readableUntilEOF) := by
  have ⟨vs, f, hi⟩ := Refines.run hr
  have ⟨k, q, ho, hq⟩ := hi.repr.reopen hw
  have hp : View.pending (View.trim (View.renumber k vs)) = f.pending := by
    rw [pending_trim, pending_renumber, hi.pending]
  refine ⟨q, ho, ?_, fun hm => ?_⟩
  · rw [hi.accepted, hi.gone, hq.readable_eq, hp, f.conserved]
  · have hu : Undrained (View.trim (View.renumber k vs)) :=
      Undrained.trim <| renumber_tail ▸ (hi.repr.undrained_tail hm).congr renumber_map_todo
    rw [hi.accepted, hi.gone, hq.readableUntilEOF_eq hu, hp, f.conserved]

theorem reopen_reads_what_is_not_gone_two :
    let h := [.append [1], .append [2], .advance, .append [3]].foldl step (init 1000 17)
    h.gone = [[1]] ∧ ∃ q, Queue.reopen.run h.queue = .ok () q ∧ h.accepted = h.gone ++ q.readable ∧
      (h.queue.MiddleUnread → h.accepted = h.gone ++ q.readableUntilEOF) :=
  ⟨by decide +kernel, reopen_reads_what_is_not_gone (.foldl <| by decide +kernel) (by decide +kernel)⟩

-- The tenth segment is named `10`, which sorts before `2`.
theorem reopen_misorders :
    let h := [.append [1], .append [2], .append [3], .append [4], .append [5], .append [6],
      .append [7], .append [8], .append [9], .append [10]].foldl step (init 1000 17)
    h.accepted = [[1], [2], [3], [4], [5], [6], [7], [8], [9], [10]] ∧ h.gone = [] ∧
    (after Queue.reopen h.queue).readable =
      [[1], [10], [2], [3], [4], [5], [6], [7], [8], [9]] := by
  decide +kernel

end History
end Hh
