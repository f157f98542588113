import Myts.Lib.Fifo
import Myts.Hh.Theorems.Queue

open List

namespace Hh

open View

theorem after_ok {m : EStateM ε σ α} (h : m.run s = .ok a s') : after m s = s' := by
  simp only [after, h]

theorem after_error {m : EStateM ε σ α} (h : m.run s = .error e s') : after m s = s' := by
  simp only [after, h]

theorem length_le_length_records (bs : List Bytes) : bs.length ≤ (records bs).length := by
  induction bs
  case nil => exact Nat.le_refl 0
  case cons b bs hi =>
    simp only [records_cons, length_append, length_record, length_cons]
    omega

theorem length_add_le_length_layout (done todo : List Bytes) :
    todo.length + 1 ≤ (layout done todo).length := by
  have hl := length_le_length_records todo
  rw [length_layout]
  omega

theorem filter_notMem_append [DecidableEq α] {as bs : List α} (h : (as ++ bs).Nodup) :
    (as ++ bs).filter (· ∉ bs) = as := by
  have hd := disjoint_of_nodup_append h
  have ha : as.filter (· ∉ bs) = as := filter_eq_self.mpr fun a ha => by simpa using hd ha
  have hb : bs.filter (· ∉ bs) = [] := by simp
  rw [filter_append, ha, hb, append_nil]

namespace Segment.Holds

variable {l : Segment} {done todo : List Bytes}

theorem unread_go (h : l.Holds done todo) (hn : todo.length < n) : unread.go n l = todo := by
  induction n generalizing l done todo
  case zero => contradiction
  case succ n hi =>
    cases todo
    case nil => simp only [unread.go, h.current_eof]
    case cons b todo =>
      have ⟨l₁, hc, h₁, _⟩ := h.current_ok
      have ⟨l₂, ha, h₂, _⟩ := h₁.advance_cons
      have hl : after Segment.advance l₁ = l₂ := by
        split at ha
        · exact after_error ha
        · exact after_ok ha
      simp only [unread.go, hc, hl, hi h₂ (Nat.lt_of_succ_lt_succ hn)]

theorem unread_eq (h : l.Holds done todo) : l.unread = todo := by
  refine h.unread_go ?_
  rw [h.size, Int.toNat_natCast]
  exact length_add_le_length_layout done todo

end Segment.Holds

theorem View.rounds_advance {v : View} {vs : List View}
    (h : (pending (v :: vs)).length + (v :: vs).length ≤ n + 2) :
    (pending (advance (v :: vs))).length + (advance (v :: vs)).length ≤ n + 1 := by
  have hp := congrArg List.length <| pending_advance v vs
  rw [length_append] at hp
  cases hv : v.todo
  case nil =>
    have hd : v.pop.todo = [] := by simp [pop, hv]
    cases vs
    case nil => simp [advance, trim, hd]
    case cons w vs => simp_all [advance, trim_of_drained hd]; omega
  case cons b bs =>
    have hl : (advance (v :: vs)).length ≤ (v :: vs).length := length_trim_le
    rw [hv, take_one, head?_cons, Option.toList_some, length_singleton] at hp
    omega

namespace Queue.Repr

variable {q : Queue} {m : Int64} {v : View} {vs : List View}

theorem rounds_le (h : Repr q m vs) : (pending vs).length + vs.length ≤ q.diskUsage.toNat := by
  have hs : ∀ ws ⊆ vs, ∀ size : Int, size + ((pending ws).length + ws.length) ≤
      (ws.map (·.ref)).foldl (fun size s => size + q.heap[s]?.elim 0 Segment.diskUsage) size := by
    intro ws hw
    induction ws
    case nil => exact fun size => Int.le_of_eq <| Int.add_zero size
    case cons w ws hi =>
      intro size
      have ⟨hw, hws⟩ := cons_subset.mp hw
      have ⟨l, hl, hs⟩ := h.shown w hw
      have hb := length_add_le_length_layout w.done w.todo
      refine Int.le_trans ?_ (hi hws _)
      simp only [pending_cons, length_append, length_cons, hl, Option.elim_some,
        Segment.diskUsage, hs.holds.size]
      omega
  have hq := hs vs (List.Subset.refl vs) 0
  rw [← h.segments] at hq
  change _ ≤ q.diskUsage at hq
  omega

theorem current?_eq (h : Repr q m (v :: vs)) : q.current? = v.todo.head? := by
  cases hv : v.todo
  case nil =>
    have ⟨_, hc, _⟩ := h.current_eof hv
    simp [current?, hc]
  case cons =>
    have ⟨_, hc, _⟩ := h.current_ok hv
    simp [current?, hc]

theorem current?_toList (h : Repr q m (v :: vs)) : q.current?.toList = v.todo.take 1 := by
  rw [h.current?_eq, take_one]

theorem after_current (h : Repr q m vs) : Repr (after current q) m vs := by
  obtain _ | ⟨v, vs⟩ := vs
  case nil => exact absurd rfl h.nonempty
  cases hv : v.todo
  case nil =>
    have ⟨_, hc, hr⟩ := h.current_eof hv
    exact after_error hc ▸ hr
  case cons =>
    have ⟨_, hc, hr⟩ := h.current_ok hv
    exact after_ok hc ▸ hr

theorem after_advance (h : Repr q m vs) : Repr (after Queue.advance q) m (View.advance vs) := by
  have ⟨_, ha, hr⟩ := h.advance
  exact after_ok ha ▸ hr

theorem readable_go (h : Repr q m vs) (hn : (pending vs).length + vs.length ≤ n + 1) :
    readable.go n q = pending vs := by
  have hl := length_pos_of_ne_nil h.nonempty
  induction n generalizing q vs
  case zero =>
    have hp : (pending vs).length = 0 := by omega
    rw [readable.go, length_eq_zero_iff.mp hp]
  case succ n hi =>
    obtain _ | ⟨v, vs⟩ := vs
    case nil => exact absurd rfl h.nonempty
    have ha := h.after_current.after_advance
    have hr := hi ha (rounds_advance hn) (length_pos_of_ne_nil ha.nonempty)
    rw [readable.go, h.current?_toList, hr, pending_advance]

theorem readable_eq (h : Repr q m vs) : q.readable = pending vs :=
  h.readable_go <| Nat.le_succ_of_le h.rounds_le

theorem flatMap_unread (h : Repr q m vs) (hs : ws ⊆ vs) :
    ((ws.map (·.ref)).filterMap (q.heap[·]?)).flatMap Segment.unread = pending ws := by
  induction ws
  case nil => rfl
  case cons w ws hi =>
    have ⟨hw, hws⟩ := cons_subset.mp hs
    have ⟨l, hl, hs⟩ := h.shown w hw
    rw [map_cons, filterMap_cons_some hl, flatMap_cons, hs.holds.unread_eq, hi hws,
      pending_cons]

theorem flatMap_purged {q' : Queue} (h : Repr q m vs) (h' : Repr q' m (vs.drop k)) :
    (History.step.purged q q').flatMap Segment.unread = pending (vs.take k) := by
  have hs : q.segments = (vs.take k).map (·.ref) ++ q'.segments := by
    rw [h.segments, h'.segments, ← map_append, take_append_drop]
  have hd := h.distinct
  rw [← h.segments, hs] at hd
  rw [History.step.purged, hs, filter_notMem_append hd, h.flatMap_unread <| take_subset k vs]

end Queue.Repr

inductive Effect (q : Queue) (m : Int64) :
    Op → List View → List View → Fifo Bytes → Fifo Bytes → Prop
  | rejected : Effect q m (.append b) vs vs f f
  | fits : 8 < m.toInt → Effect q m (.append b) (vs ++ [v]) (vs ++ [v.push b]) f (f.push b)
  | rolled : 8 < m.toInt → q.RollsOver b → View.todo w = [] →
               Effect q m (.append b) vs (vs ++ [w.push b]) f (f.push b)
  | oversize : q.RollsOver b → View.todo w = [] → Effect q m (.append b) vs (vs ++ [w]) f f
  | current : Effect q m .current vs vs f f
  | advance : Effect q m .advance (v :: vs) (View.advance (v :: vs)) f (f.drop (v.todo.take 1).length)
  | purged : Effect q m (.purgeOlderThan mods when) vs (vs.drop k) f
                 (f.drop (pending (vs.take k)).length)

structure History.Refines (h : History) (m : Int64) (vs : List View) (f : Fifo Bytes) : Prop where
  repr : h.queue.Repr m vs
  pending : f.pending = pending vs
  accepted : h.accepted = f.accepted
  gone : h.gone = f.gone

namespace History.Refines

variable {h : History} {m : Int64} {vs : List View} {f : Fifo Bytes}

theorem append (hr : Refines h m vs f) (hb : b ≠ []) :
    ∃ vs' f', Effect h.queue m (.append b) vs vs' f f' ∧ Refines (h.step (.append b)) m vs' f' := by
  obtain ⟨us, v, rfl⟩ := (eq_nil_or_concat' vs).resolve_left hr.repr.nonempty
  have hl := length_pos_of_ne_nil hb
  by_cases hf : h.queue.diskUsage + b.length > h.queue.maxSize.toInt
  case pos =>
    have ha := hr.repr.append_queueFull hf
    exact ⟨_, _, .rejected, by simpa only [History.step, ha] using hr⟩
  case neg =>
    by_cases ht : h.queue.TailFull b
    case neg =>
      have ⟨q, ha, hr'⟩ := hr.repr.append_fits hb hf ht
      have hm := mt hr.repr.tailFull_iff.mpr ht
      rw [length_layout] at hm
      refine ⟨_, _, .fits (by omega), ?_⟩
      simp only [History.step, ha]
      exact ⟨hr', by simp [hr.pending, push], by simp [hr.accepted], hr.gone⟩
    case pos =>
      have ⟨w, q, hd, hw, ha⟩ := hr.repr.append_rollsOver hb hf ht
      split at ha
      case isTrue =>
        refine ⟨_, _, .oversize ⟨hf, ht⟩ hw, ?_⟩
        simp only [History.step, ha.left]
        exact ⟨ha.right, by simp [hr.pending, hw], hr.accepted, hr.gone⟩
      case isFalse hm =>
        refine ⟨_, _, .rolled (by omega) ⟨hf, ht⟩ hw, ?_⟩
        simp only [History.step, ha.left]
        exact ⟨ha.right, by simp [hr.pending, push, hw], by simp [hr.accepted], hr.gone⟩

theorem current (hr : Refines h m vs f) : Refines (h.step .current) m vs f :=
  ⟨hr.repr.after_current, hr.pending, hr.accepted, hr.gone⟩

theorem advance (hr : Refines h m vs f) :
    ∃ vs' f', Effect h.queue m .advance vs vs' f f' ∧ Refines (h.step .advance) m vs' f' := by
  obtain _ | ⟨v, vs⟩ := vs
  case nil => exact absurd rfl hr.repr.nonempty
  have hp := hr.pending.trans <| pending_advance v vs
  refine ⟨_, _, .advance, hr.repr.after_advance, ?_, hr.accepted, ?_⟩
  · simp [hp]
  · simp [step, hr.repr.current?_toList, hr.gone, hp]

theorem purgeOlderThan (hr : Refines h m vs f)
    (ho : (Op.purgeOlderThan mods when).Safe h.queue) :
    ∃ vs' f', Effect h.queue m (.purgeOlderThan mods when) vs vs' f f' ∧
      Refines (h.step (.purgeOlderThan mods when)) m vs' f' := by
  rw [Op.Safe, hr.repr.segments, length_map] at ho
  have ⟨q, hq, h'⟩ := hr.repr.purgeOlderThan ho
  generalize (mods.takeWhile _).length = k at h'
  have hp : f.pending = View.pending (vs.take k) ++ View.pending (vs.drop k) :=
    hr.pending.trans <| by rw [← pending_append, take_append_drop]
  refine ⟨vs.drop k, _, .purged, ?_⟩
  simp only [History.step, after_ok hq, hr.repr.flatMap_purged h']
  exact ⟨h', by simp [hp], hr.accepted, by simp [hr.gone, hp]⟩

theorem step (hr : Refines h m vs f) (ho : op.Safe h.queue) :
    ∃ vs' f', Effect h.queue m op vs vs' f f' ∧ Refines (h.step op) m vs' f' := by
  cases op
  case append => exact hr.append ho
  case current => exact ⟨_, _, .current, hr.current⟩
  case advance => exact hr.advance
  case purgeOlderThan => exact hr.purgeOlderThan ho

theorem init (maxSize segmentSize : Int64) :
    ∃ vs, Refines (init maxSize segmentSize) segmentSize vs .empty ∧
      (∀ v ∈ vs, v.done = [] ∧ v.todo = []) ∧ vs.length ≤ 2 ∧
      (8 < segmentSize.toInt → vs.length = 1) := by
  have ⟨v, q, ho, h, hd, ht⟩ := Queue.open_newQueue maxSize
  have ⟨vs, q', hm, h', hv, hle, hl⟩ := h.setMaxSegmentSize hd ht segmentSize
  have hf : (do Queue.open; Queue.setMaxSegmentSize segmentSize).run (.newQueue [] maxSize) =
      .ok () q' := by
    simp only [EStateM.run_bind, ho, hm]
  have hq : (Queue.fresh maxSize segmentSize).Repr segmentSize vs := by
    rwa [Queue.fresh, after_ok hf]
  have hp : View.pending vs = [] := by simpa [View.pending] using fun v h => (hv v h).2
  exact ⟨vs, ⟨hq, hp.symm, rfl, rfl⟩, hv, hle, fun hn => by rw [hl hn, length_singleton]⟩

theorem run (hr : Run History.step (fun h op => op.Safe h.queue) (History.init maxSize segmentSize) h) :
    ∃ vs f, Refines h segmentSize vs f := by
  refine hr.invariant (I := fun h => ∃ vs f, Refines h segmentSize vs f) ?_ ?_
  · have ⟨vs, hi, _⟩ := init maxSize segmentSize
    exact ⟨vs, _, hi⟩
  · intro h op ⟨vs, f, hi⟩ ho
    have ⟨vs', f', _, hi'⟩ := hi.step ho
    exact ⟨vs', f', hi'⟩

theorem conserved (hr : Refines h m vs f) : h.accepted = h.gone ++ h.queue.readable := by
  rw [hr.accepted, hr.gone, hr.repr.readable_eq, ← hr.pending, f.conserved]

end History.Refines
end Hh
