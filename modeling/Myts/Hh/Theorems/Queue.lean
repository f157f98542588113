import Myts.Hh.History
import Myts.Hh.Theorems.Segment

open List

namespace Hh

open Decimal EStateM Directory

structure View where
  ref : Ref
  id : Nat
  done : List Bytes
  todo : List Bytes

namespace View

def entry (v : View) : DirEntry :=
  ⟨formatUint v.id, false, layout v.done v.todo⟩

def pending (vs : List View) : List Bytes :=
  vs.flatMap (·.todo)

def push (v : View) (b : Bytes) : View :=
  { v with todo := v.todo ++ [b] }

def pop (v : View) : View :=
  { v with done := v.done ++ v.todo.take 1, todo := v.todo.drop 1 }

def trim : List View → List View
  | v :: w :: vs => if v.todo = [] then w :: vs else v :: w :: vs
  | vs => vs

def advance : List View → List View
  | [] => []
  | v :: vs => trim (v.pop :: vs)

variable {v w : View} {vs ws : List View}

@[simp]
theorem pending_nil : pending [] = [] :=
  rfl

@[simp]
theorem pending_cons : pending (v :: vs) = v.todo ++ pending vs :=
  rfl

@[simp]
theorem pending_append : pending (vs ++ ws) = pending vs ++ pending ws :=
  flatMap_append

theorem trim_of_unread (h : v.todo ≠ []) : trim (v :: vs) = v :: vs := by
  cases vs
  case nil => rfl
  case cons => exact if_neg h

theorem trim_of_drained (h : v.todo = []) : trim (v :: w :: vs) = w :: vs :=
  if_pos h

@[simp]
theorem pending_trim : pending (trim vs) = pending vs := by
  match vs with
  | [] => rfl
  | [_] => rfl
  | v :: w :: vs =>
    by_cases h : v.todo = []
    case pos => simp [trim_of_drained h, h]
    case neg => rw [trim_of_unread h]

theorem length_trim_le : (trim vs).length ≤ vs.length := by
  match vs with
  | [] => exact Nat.le_refl _
  | [_] => exact Nat.le_refl _
  | v :: w :: vs =>
    by_cases h : v.todo = []
    case pos => simp [trim_of_drained h]
    case neg => simp [trim_of_unread h]

theorem pending_advance (v : View) (vs : List View) :
    pending (v :: vs) = v.todo.take 1 ++ pending (advance (v :: vs)) := by
  simp only [advance, pending_trim, pending_cons, pop, ← append_assoc, take_append_drop]

theorem name_notMem (h : ∀ w ∈ vs, w.id ≠ v.id) : ∀ e ∈ vs.map entry, e.name ≠ formatUint v.id := by
  intro e he hn
  obtain ⟨w, hw, rfl⟩ := mem_map.mp he
  exact h w hw <| formatUint_injective hn

end View

structure Segment.Shows (l : Segment) (v : View) (maxSize : Int64) : Prop where
  holds : l.Holds v.done v.todo
  path : l.path = formatUint v.id
  maxSize : l.maxSize = maxSize

theorem Segment.Shows.flush {l : Segment} {v : View} (h : l.Shows v m) (dir : Directory) :
    Queue.flush dir l = dir.write (formatUint v.id) (layout v.done v.todo) := by
  have ⟨f, hf, hc⟩ := h.holds.file
  simp [Queue.flush, hf, hc, h.path]

namespace Queue

open View

variable {q : Queue} {m : Int64} {v v' w : View} {vs vs₁ vs₂ : List View} {l l' : Segment}
         {b : Bytes}

structure Stored (q : Queue) (m : Int64) (vs : List View) : Prop where
  segments : q.segments = vs.map (·.ref)
  dir : q.dir = vs.map entry
  shown : ∀ v ∈ vs, ∃ l, q.heap[v.ref]? = some l ∧ l.Shows v m
  distinct : (vs.map (·.ref)).Nodup
  ordered : (vs.map (·.id)).Pairwise (· < ·)
  limit : q.maxSegmentSize = m

structure Repr (q : Queue) (m : Int64) (vs : List View) : Prop extends Stored q m vs where
  nonempty : vs ≠ []
  head : q.head = q.segments.head?
  tail : q.tail = q.segments.getLast?

theorem load_run (h : q.heap[r]? = some l) : (load r).run q = .ok l q := by
  simp [load, run, h]

theorem deref_run (h : o = some r) : (deref o).run q = .ok r q := by
  simp [deref, h]

theorem onSegment_run {f : SegmentM α} (h : q.heap[r]? = some l) :
    (onSegment r f).run q = match f.run l with
      | .ok a l => .ok a (q.store r l)
      | .error e l => .error e (q.store r l) := by
  cases hf : f.run l
  all_goals
    rw [run] at hf
    simp only [onSegment, run, h, hf]

theorem attempt_run {f : QueueM α} :
    (attempt f).run q = match f.run q with
      | .ok a q => .ok (.ok a) q
      | .error .panic q => .error .panic q
      | .error e q => .ok (.error e) q :=
  rfl

theorem newSegment_run {d : Directory} (hf : q.dir.openFile path = (content, d))
    (hl : Segment.newSegment path content q.maxSegmentSize = .ok () l) :
    (newSegment path).run q =
      .ok q.heap.length { q with heap := q.heap ++ [l], dir := flush d l } := by
  simp only [newSegment, run, hf, hl]

theorem le_maxID (k : Nat) (e : DirEntry) : k ≤ nextSegmentID.maxID k e := by
  unfold nextSegmentID.maxID
  split
  case isTrue => exact Nat.le_refl k
  case isFalse => split <;> grind

theorem le_maxID_of_parseUint {e : DirEntry} (hd : e.isDir = false)
    (hn : parseUint e.name = some n) (k : Nat) : n ≤ nextSegmentID.maxID k e := by
  simp only [nextSegmentID.maxID, hd, hn, Bool.false_eq_true, if_false]
  split <;> omega

theorem le_foldl_maxID_init {files : List DirEntry} (h : n ≤ k) :
    n ≤ files.foldl nextSegmentID.maxID k := by
  induction files generalizing k
  case nil => exact h
  case cons e _ hi => exact hi <| Nat.le_trans h <| le_maxID k e

theorem le_foldl_maxID {files : List DirEntry} (h : e ∈ files) (hd : e.isDir = false)
    (hn : parseUint e.name = some n) : n ≤ files.foldl nextSegmentID.maxID k := by
  induction files generalizing k <;> cases h <;> rw [foldl_cons]
  case cons.head => exact le_foldl_maxID_init <| le_maxID_of_parseUint hd hn k
  case cons.tail hi h => exact hi h

namespace Stored

theorem ref_ne (vs₁ : List View) (h : Stored q m (vs₁ ++ v :: vs₂)) (hw : w ∈ vs₁ ++ vs₂) :
    w.ref ≠ v.ref := by
  have hd := h.distinct
  simp only [map_append, map_cons, nodup_middle, nodup_cons] at hd
  exact fun hr => hd.left <| hr ▸ map_append ▸ mem_map_of_mem hw

theorem id_ne (vs₁ : List View) (h : Stored q m (vs₁ ++ v :: vs₂)) (hw : w ∈ vs₁ ++ vs₂) :
    w.id ≠ v.id := by
  have ho := h.ordered.imp Nat.ne_of_lt
  rw [map_append, map_cons, ← List.Nodup, nodup_middle, nodup_cons] at ho
  exact fun hi => ho.left <| hi ▸ map_append ▸ mem_map_of_mem hw

theorem store (h : Stored q m (vs₁ ++ v :: vs₂)) (hl : l.Shows v' m) (hr : v'.ref = v.ref)
    (hi : v'.id = v.id) : Stored (q.store v.ref l) m (vs₁ ++ v' :: vs₂) where
  segments := by simp [Queue.store, h.segments, hr]
  distinct := by simpa [hr] using h.distinct
  ordered := by simpa [hi] using h.ordered
  limit := h.limit
  dir := by
    have h₁ := name_notMem fun w hw => h.id_ne vs₁ (mem_append_left vs₂ hw)
    have h₂ := name_notMem fun w hw => h.id_ne vs₁ (mem_append_right vs₁ hw)
    simp only [Queue.store, hl.flush, hi, h.dir, map_append, map_cons,
      write_append, write_cons, write_of_notMem h₁,
      write_of_notMem h₂]
    simp [entry, hi]
  shown w hw := by
    have ⟨_, hl', _⟩ := h.shown v (by simp)
    have ⟨hv, _⟩ := List.getElem?_eq_some_iff.mp hl'
    by_cases he : w = v'
    case pos => exact ⟨l, by simp [Queue.store, he, hr, hv], he ▸ hl⟩
    case neg =>
      have hw : w ∈ vs₁ ++ vs₂ := by simpa [he] using hw
      have ⟨l', hl', hs⟩ := h.shown w (by simp at hw ⊢; tauto)
      exact ⟨l', by simpa [Queue.store, getElem?_set_ne (h.ref_ne vs₁ hw).symm] using hl', hs⟩

theorem nextSegmentID (h : Stored q m vs) :
    ∃ n, nextSegmentID.run q = .ok n q ∧ ∀ v ∈ vs, v.id < n := by
  refine ⟨_, rfl, fun v hv => Nat.lt_succ_of_le ?_⟩
  have he : v.entry ∈ q.dir.readDir := by
    rw [mem_readDir, h.dir]
    exact mem_map_of_mem hv
  exact le_foldl_maxID he rfl (parseUint_formatUint v.id)

theorem ref_lt (h : Stored q m vs) (hv : v ∈ vs) : v.ref < q.heap.length := by
  have ⟨_, hl, _⟩ := h.shown v hv
  exact List.getElem?_eq_some_iff.mp hl |>.choose

theorem snoc (h : Stored q m vs) (hl : l.Shows v m) (hr : v.ref = q.heap.length)
    (hi : ∀ w ∈ vs, w.id < v.id) :
    Stored { q with
      heap := q.heap ++ [l]
      dir := q.dir ++ [v.entry]
      segments := q.segments ++ [v.ref]
    } m (vs ++ [v]) where
  segments := by simp [h.segments]
  dir := by simp [h.dir]
  limit := h.limit
  ordered := by simpa [pairwise_append, h.ordered] using hi
  distinct := by
    have hn : v.ref ∉ vs.map (·.ref) := by
      simpa using fun w hw he => Nat.ne_of_lt (h.ref_lt hw) (he.trans hr)
    simpa [nodup_append] using ⟨h.distinct, by simpa using hn⟩
  shown w hw := by
    simp only [mem_append, mem_singleton] at hw
    cases hw
    case inl hw =>
      have ⟨l', hl', hs⟩ := h.shown w hw
      exact ⟨l', by simpa [getElem?_append_left (h.ref_lt hw)] using hl', hs⟩
    case inr hw => exact ⟨l, by simp [hw, hr], hw ▸ hl⟩

theorem addSegment (h : Stored q m vs) :
    ∃ v q', addSegment.run q = .ok v.ref q' ∧ Stored q' m (vs ++ [v]) ∧ v.done = [] ∧ v.todo = [] ∧
      q'.head = q.head ∧ q'.tail = q.tail := by
  have ⟨n, hn, hlt⟩ := h.nextSegmentID
  have ⟨l, hl, hs, hp, hm⟩ := Segment.Holds.newSegment_empty (formatUint n) q.maxSegmentSize
  have hv : l.Shows ⟨q.heap.length, n, [], []⟩ m := ⟨hs, hp, hm.trans h.limit⟩
  have hf : ∀ e ∈ q.dir, e.name ≠ formatUint n :=
    h.dir ▸ name_notMem (v := ⟨0, n, [], []⟩) fun w hw => Nat.ne_of_lt <| hlt w hw
  have hd : flush (q.dir ++ [⟨formatUint n, false, []⟩]) l =
      q.dir ++ [⟨formatUint n, false, layout [] []⟩] := by
    simp [hv.flush, write_of_notMem hf, write_singleton]
  have hr := newSegment_run (openFile_of_notMem hf) hl
  rw [hd] at hr
  simp only [Queue.addSegment, run_bind, hn, hr, run_modify, run_pure]
  exact ⟨_, _, rfl, h.snoc hv rfl hlt, rfl, rfl, rfl, rfl⟩

theorem remove_name (h : Stored q m (v :: vs)) :
    remove q.dir (formatUint v.id) = vs.map entry := by
  rw [h.dir, map_cons]
  refine remove_cons rfl <| name_notMem fun w hw => ?_
  exact h.id_ne [] hw

theorem uncons (h : Stored q m (v :: vs)) (l : Segment) (r : Option Ref) :
    Stored { q with
      segments := vs.map (·.ref)
      dir := vs.map entry
      heap := q.heap.set v.ref l
      head := r
    } m vs where
  segments := rfl
  dir := rfl
  limit := h.limit
  ordered := List.Pairwise.tail h.ordered
  distinct := List.Nodup.of_cons h.distinct
  shown w hw := by
    have hr : w.ref ≠ v.ref := h.ref_ne [] hw
    simpa [getElem?_set_ne hr.symm] using h.shown w (mem_cons_of_mem _ hw)

theorem trimHead (h : Stored q m (v :: w :: vs)) (hh : q.head = some v.ref) :
    ∃ q', trimHead.run q = .ok () q' ∧ Stored q' m (w :: vs) ∧ q'.head = some w.ref ∧
      q'.tail = q.tail := by
  have ⟨l, hl, hs⟩ := h.shown v mem_cons_self
  have ⟨f, hf, _⟩ := hs.holds.file
  have hc' : Segment.close.run l = .ok () { l with file := none } := by
    simp [Segment.close, hf]
  have he : ∃ e ∈ q.dir, e.name = l.path := ⟨v.entry, by simp [h.dir], hs.path.symm⟩
  have hr := hs.path ▸ h.remove_name
  have hv := h.ref_lt mem_cons_self
  have hc := onSegment_run (q := { q with segments := w.ref :: vs.map (·.ref) }) (f := Segment.close) hl
  simp only [hc'] at hc
  simp only [Queue.trimHead, run_bind, run_get, h.segments, map_cons,
    run_set, deref_run hh, hc, Queue.store, flush]
  rw [load_run (l := { l with file := none }) (by simp [hv])]
  simp only [removeFile, run_bind, run_get, he, if_true, run_set, hr, run_modify]
  exact ⟨_, rfl, h.uncons _ _, rfl, rfl⟩

end Stored

namespace Repr

theorem head_eq (h : Repr q m (v :: vs)) : q.head = some v.ref := by
  simp [h.head, h.segments]

theorem tail_eq (vs : List View) (h : Repr q m (vs ++ [v])) : q.tail = some v.ref := by
  simp [h.tail, h.segments]

theorem store (vs₁ : List View) (h : Repr q m (vs₁ ++ v :: vs₂)) (hl : l.Shows v' m) (hr : v'.ref = v.ref)
    (hi : v'.id = v.id) : Repr (q.store v.ref l) m (vs₁ ++ v' :: vs₂) where
  toStored := h.toStored.store hl hr hi
  nonempty := by simp
  head := h.head
  tail := h.tail

theorem trimHead_cons (h : Repr q m (v :: w :: vs)) :
    ∃ q', trimHead.run q = .ok () q' ∧ Repr q' m (w :: vs) := by
  have ⟨q', hr, hs, hh, ht⟩ := h.toStored.trimHead h.head_eq
  refine ⟨q', hr, hs, cons_ne_nil _ _, ?_, ?_⟩
  · simp [hh, hs.segments]
  · simp [ht, h.tail, h.segments, hs.segments]

theorem trimHead (h : Repr q m vs) (hv : ∀ v ∈ vs.head?, v.todo = []) :
    ∃ q', trimHead.run q = .ok () q' ∧ Repr q' m (trim vs) := by
  match vs with
  | [] => exact absurd rfl h.nonempty
  | [v] => exact ⟨q, by simp [Queue.trimHead, h.segments], h⟩
  | v :: w :: vs =>
    rw [trim, if_pos (hv v rfl)]
    exact h.trimHead_cons

theorem current_eof (h : Repr q m (v :: vs)) (hv : v.todo = []) :
    ∃ q', current.run q = .error .eof q' ∧ Repr q' m (v :: vs) := by
  have ⟨l, hl, hs⟩ := h.shown v mem_cons_self
  have hc := Segment.Holds.current_eof <| hv ▸ hs.holds
  refine ⟨_, ?_, h.store [] hs rfl rfl⟩
  simp [current, h.head_eq, onSegment_run hl, hc]

theorem current_ok (h : Repr q m (v :: vs)) (hv : v.todo = b :: bs) :
    ∃ q', current.run q = .ok b q' ∧ Repr q' m (v :: vs) := by
  have ⟨l, hl, hs⟩ := h.shown v mem_cons_self
  have ⟨l', hc, hs', hp, hm⟩ := Segment.Holds.current_ok <| hv ▸ hs.holds
  refine ⟨_, ?_, h.store [] ⟨hv ▸ hs', hp ▸ hs.path, hm ▸ hs.maxSize⟩ rfl rfl⟩
  simp [current, h.head_eq, onSegment_run hl, hc]

theorem advance (h : Repr q m vs) :
    ∃ q', advance.run q = .ok () q' ∧ Repr q' m (View.advance vs) := by
  obtain _ | ⟨v, vs⟩ := vs
  case nil => exact absurd rfl h.nonempty
  have ⟨l, hl, hs⟩ := h.shown v mem_cons_self
  have ⟨l', ha, hs', hp, hm⟩ := hs.holds.advance
  have hr : Repr (q.store v.ref l') m (v.pop :: vs) :=
    h.store [] ⟨hs', hp ▸ hs.path, hm ▸ hs.maxSize⟩ rfl rfl
  simp only [Queue.advance, run_bind, run_get, h.head_eq, attempt_run,
    onSegment_run hl, ha]
  by_cases hd : v.todo.drop 1 = []
  case pos =>
    simp only [if_pos hd]
    exact hr.trimHead fun _ hw => Option.some.inj hw ▸ hd
  case neg =>
    simp only [if_neg hd]
    exact ⟨_, rfl, by rwa [View.advance, trim_of_unread hd]⟩

theorem tailFull_iff (h : Repr q m (vs ++ [v])) :
    q.TailFull b ↔ (layout v.done v.todo).length + b.length > m.toInt := by
  have ⟨l, hl, hs⟩ := h.shown v (by simp)
  simp [TailFull, tailSegment?, (h.tail_eq vs), hl, hs.holds.size, hs.maxSize]

theorem append_queueFull (h : Repr q m (vs ++ [v]))
    (hf : q.diskUsage + b.length > q.maxSize.toInt) : (append b).run q = .error .queueFull q := by
  rw [append, run_bind, run_get]
  simp only [(h.tail_eq vs), if_pos hf]
  rfl

theorem append_fits (h : Repr q m (vs ++ [v])) (hb : b ≠ [])
    (hf : ¬(q.diskUsage + b.length > q.maxSize.toInt)) (ht : ¬q.TailFull b) :
    ∃ q', (append b).run q = .ok () q' ∧ Repr q' m (vs ++ [v.push b]) := by
  have ⟨l, hl, hs⟩ := h.shown v (by simp)
  have hn : ¬(l.size + b.length > l.maxSize.toInt) := by
    rw [hs.holds.size, hs.maxSize]
    exact mt h.tailFull_iff.mpr ht
  have ⟨l', ha, hs', hp, hm⟩ := hs.holds.append_fits hb hn
  refine ⟨_, ?_, h.store vs ⟨hs', hp ▸ hs.path, hm ▸ hs.maxSize⟩ rfl rfl⟩
  rw [append, run_bind, run_get]
  simp only [(h.tail_eq vs), if_neg hf]
  rw [run_bind, attempt_run, onSegment_run hl, ha]
  rfl

theorem addSegment (h : Repr q m vs) :
    ∃ v q', addSegment.run q = .ok v.ref q' ∧ Repr { q' with tail := some v.ref } m (vs ++ [v]) ∧
      v.done = [] ∧ v.todo = [] := by
  have ⟨v, q', hr, hs, hd, ht, hh, _⟩ := h.toStored.addSegment
  refine ⟨v, q', hr, { hs with nonempty := by simp, head := ?_, tail := ?_ }, hd, ht⟩
  · have hn : vs.map (·.ref) ≠ [] := by simpa using h.nonempty
    dsimp only
    rw [hh, h.head, h.segments, hs.segments, map_append, head?_append_of_ne_nil _ hn]
  · simp [hs.segments]

theorem append_rollsOver (h : Repr q m (vs ++ [v])) (hb : b ≠ [])
    (hf : ¬(q.diskUsage + b.length > q.maxSize.toInt)) (ht : q.TailFull b) :
    ∃ w q', w.done = [] ∧ w.todo = [] ∧
      (if 8 + b.length > m.toInt
        then (append b).run q = .error .segmentFull q' ∧ Repr q' m (vs ++ [v] ++ [w])
        else (append b).run q = .ok () q' ∧ Repr q' m (vs ++ [v] ++ [w.push b])) := by
  have ⟨l, hl, hs⟩ := h.shown v (by simp)
  have hn : l.size + b.length > l.maxSize.toInt := by
    rw [hs.holds.size, hs.maxSize]
    exact h.tailFull_iff.mp ht
  have ⟨w, q₁, ha, h₁, hd, ht⟩ := (h.store vs hs rfl rfl).addSegment
  have ⟨l₁, hl₁, hs₁⟩ := h₁.shown w (by simp)
  have hr : (append b).run q =
      (onSegment w.ref (Segment.append b)).run { q₁ with tail := some w.ref } := by
    rw [append, run_bind, run_get]
    simp only [(h.tail_eq vs), if_neg hf]
    rw [run_bind, attempt_run, onSegment_run hl, hs.holds.append_full hn]
    simp only [run_bind, ha, run_modify]
  have hs' : l₁.size = 8 := by simp [hs₁.holds.size, hd, ht, length_layout]
  refine ⟨w, ?_⟩
  rw [hr, onSegment_run hl₁]
  split
  case isTrue hg => 
    rw [hs₁.holds.append_full (by rw [hs', hs₁.maxSize]; exact hg)]
    exact ⟨_, hd, ht, rfl, h₁.store _ hs₁ rfl rfl⟩
  case isFalse hg =>
    have ⟨l', ha, hs', hp, hm⟩ := hs₁.holds.append_fits hb (by rw [hs', hs₁.maxSize]; exact hg)
    rw [ha]
    exact ⟨_, hd, ht, rfl, h₁.store _ ⟨hs', hp ▸ hs₁.path, hm ▸ hs₁.maxSize⟩ rfl rfl⟩

theorem dropHead (h : Repr q m (v :: w :: vs)) :
    ∃ q', purgeOlderThan.dropHead.run q = .ok () q' ∧ Repr q' m (w :: vs) := by
  have hl : q.segments.length ≠ 1 := by simp [h.segments]
  simpa [purgeOlderThan.dropHead, hl] using h.trimHead_cons

theorem purge_go {mods : List Time} (h : Repr q m vs)
    (hl : (mods.takeWhile (· < cutoff)).length < vs.length) :
    ∃ q', (purgeOlderThan.go cutoff mods).run q = .ok () q' ∧
      Repr q' m (vs.drop (mods.takeWhile (· < cutoff)).length) := by
  induction mods generalizing q vs
  case nil => exact ⟨q, rfl, h⟩
  case cons mod mods hi =>
    obtain _ | ⟨v, vs⟩ := vs
    case nil => exact absurd rfl h.nonempty
    have ⟨l, hv, hs⟩ := h.shown v mem_cons_self
    have ⟨f, hf, _⟩ := hs.holds.file
    simp only [purgeOlderThan.go, run_bind, run_get, deref_run h.head_eq,
      load_run hv, hf, Option.isNone_some, Bool.false_eq_true, if_false]
    by_cases hm : mod < cutoff
    case neg =>
      simp only [takeWhile_cons, hm, decide_false, Bool.false_eq_true, if_false, ge_iff_le,
        Int.not_lt.mp hm, if_true]
      exact ⟨q, rfl, h⟩
    case pos =>
      simp only [takeWhile_cons, hm, decide_true, if_true, length_cons,
        Nat.add_lt_add_iff_right] at hl
      obtain _ | ⟨w, vs⟩ := vs
      case nil => simp at hl
      have ⟨q₁, hd, h₁⟩ := h.dropHead
      have ⟨q₂, hg, h₂⟩ := hi h₁ hl
      simp only [takeWhile_cons, hm, decide_true, if_true, ge_iff_le, Int.not_le.mpr hm,
        if_false, run_bind, hd, hg]
      exact ⟨q₂, rfl, h₂⟩

theorem purgeOlderThan (h : Repr q m vs)
    (hl : (mods.takeWhile (· < truncateToSecond when)).length < vs.length) :
    ∃ q', (purgeOlderThan mods when).run q = .ok () q' ∧
      Repr q' m (vs.drop (mods.takeWhile (· < truncateToSecond when)).length) := by
  have hs : q.segments ≠ [] := by simpa [h.segments] using h.nonempty
  simpa [Queue.purgeOlderThan, hs] using h.purge_go hl

theorem skipDrained (h : Repr q m vs) :
    ∃ q', «open».skipDrained.run q = .ok () q' ∧ Repr q' m (trim vs) := by
  obtain _ | ⟨v, vs⟩ := vs
  case nil => exact absurd rfl h.nonempty
  have ⟨l, hl, hs⟩ := h.shown v mem_cons_self
  simp only [open.skipDrained, run_bind, run_get, deref_run h.head_eq, attempt_run,
    onSegment_run hl]
  cases hv : v.todo
  case nil =>
    have hr : Repr (q.store v.ref l) m (v :: vs) := h.store [] hs rfl rfl
    rw [Segment.Holds.current_eof <| hv ▸ hs.holds]
    exact hr.trimHead fun _ hw => Option.some.inj hw ▸ hv
  case cons =>
    have ⟨l', hc, hs', hp, hm⟩ := Segment.Holds.current_ok <| hv ▸ hs.holds
    have hr : Repr (q.store v.ref l') m (v :: vs) :=
      h.store [] ⟨hv ▸ hs', hp ▸ hs.path, hm ▸ hs.maxSize⟩ rfl rfl
    rw [hc, trim_of_unread (by simp [hv])]
    exact ⟨_, rfl, hr⟩

theorem relimit (h : Repr q m [v]) (ht : v.todo = []) (n : Int64) :
    ∃ q', (forSegments (Segment.setMaxSegmentSize n) q.segments).run { q with maxSegmentSize := n } =
      .ok () q' ∧ Repr q' n [v] := by
  have ⟨l, hl, hs⟩ := h.shown v mem_cons_self
  have hr := onSegment_run (q := { q with maxSegmentSize := n }) (f := Segment.setMaxSegmentSize n) hl
  rw [congrArg (forSegments _) h.segments, map_cons, forSegments, run_bind, hr]
  refine ⟨_, rfl, { h with limit := rfl, dir := ?_, shown := ?_ }⟩
  · have ⟨f, hf, hc⟩ := hs.holds.file
    simp [Queue.store, flush, hf, hc, hs.path, h.dir, write_singleton, entry]
  · intro w hw
    obtain rfl := mem_singleton.mp hw
    refine ⟨_, getElem?_set_self <| h.ref_lt mem_cons_self, ?_, hs.path, rfl⟩
    exact { hs.holds with fits := by simp [ht] }

theorem setMaxSegmentSize (h : Repr q m [v]) (hd : v.done = []) (ht : v.todo = []) (n : Int64) :
    ∃ vs q', (setMaxSegmentSize n).run q = .ok () q' ∧ Repr q' n vs ∧
      (∀ v ∈ vs, v.done = [] ∧ v.todo = []) ∧ vs.length ≤ 2 ∧ (8 < n.toInt → vs = [v]) := by
  have ⟨q₁, hf, h₁⟩ := h.relimit ht n
  have ⟨l, hl, hs⟩ := h₁.shown v mem_cons_self
  have hz : l.diskUsage = 8 := by simp [Segment.diskUsage, hs.holds.size, hd, ht, length_layout]
  simp only [Queue.setMaxSegmentSize, run_bind, run_modify, run_get, hf,
    deref_run (h₁.tail_eq []), load_run hl, hz]
  by_cases hn : 8 ≥ n.toInt
  case pos =>
    have ⟨w, q₂, ha, h₂, hw'⟩ := h₁.addSegment
    simp only [hn, if_true, run_bind, ha, run_modify]
    exact ⟨_, _, rfl, h₂, by simp [hd, ht, hw'], by simp, fun hl => absurd hl (Int.not_lt.mpr hn)⟩
  case neg =>
    simp only [hn, if_false]
    exact ⟨_, _, rfl, h₁, by simp [hd, ht], by simp, fun _ => rfl⟩

end Repr

theorem Stored.newQueue (maxSize : Int64) : Stored (newQueue [] maxSize) defaultSegmentSize [] where
  segments := rfl
  dir := rfl
  shown := by simp
  distinct := nodup_nil
  ordered := List.Pairwise.nil
  limit := rfl

theorem open_newQueue (maxSize : Int64) :
    ∃ v q, «open».run (newQueue [] maxSize) = .ok () q ∧ Repr q defaultSegmentSize [v] ∧
      v.done = [] ∧ v.todo = [] := by
  have ⟨v, q, ha, hs, hd, ht, _⟩ := (Stored.newQueue maxSize).addSegment
  have hr : Repr { q with head := q.segments.head?, tail := q.segments.getLast? } _ [v] :=
    { hs with nonempty := cons_ne_nil _ _, head := rfl, tail := rfl }
  have ⟨q', hk, hr'⟩ := hr.skipDrained
  refine ⟨v, q', ?_, hr', hd, ht⟩
  have hl : loadSegments.run (newQueue [] maxSize) = .ok [] (newQueue [] maxSize) := rfl
  have hn : { newQueue [] maxSize with segments := [] } = newQueue [] maxSize := rfl
  simp only [«open», run_bind, hl, run_modify, hn, if_true, ha, hk]

end Queue
end Hh
