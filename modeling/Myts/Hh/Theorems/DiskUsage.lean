import Myts.Lib.Frame
import Myts.Hh.Theorems.History

open List

namespace Hh

open Bytes
open Frame (Within final final_bind)

namespace Segment

variable {l l' : Segment}

structure Sized (l : Segment) : Prop where
  footer : footerSize ≤ l.size
  file : ∀ f ∈ l.file, f.content.length = l.size

structure SameSize (l l' : Segment) : Prop where
  size : l'.size = l.size
  maxSize : l'.maxSize = l.maxSize
  sized : l.Sized → l'.Sized

instance : Std.Refl SameSize :=
  ⟨fun _ => ⟨rfl, rfl, id⟩⟩

instance : IsTrans Segment SameSize :=
  ⟨fun _ _ _ h₁ h₂ => ⟨h₂.size.trans h₁.size, h₂.maxSize.trans h₁.maxSize, h₂.sized ∘ h₁.sized⟩⟩

theorem SameSize.of_content (hs : l'.size = l.size) (hm : l'.maxSize = l.maxSize)
    (hf : ∀ f' ∈ l'.file, ∃ f ∈ l.file, f'.content.length = f.content.length) :
    SameSize l l' where
  size := hs
  maxSize := hm
  sized h := {
    footer := hs ▸ h.footer
    file f' h' := by
      have ⟨f, hfl, hc⟩ := hf f' h'
      rw [hc, h.file f hfl, hs] }

theorem sameSize_withFile {f : File → Except Error (α × File)}
    (hf : ∀ file a file', f file = .ok (a, file') →
      file'.content.length = file.content.length) : Within SameSize (withFile f) := by
  intro l
  obtain ⟨sz, _ | file, pa, ps, cs, mx⟩ := l
  case none => exact refl_of SameSize _
  case some =>
    change SameSize _ (final ((withFile f).run _))
    rw [withFile_run]
    cases hr : f file
    case error => exact refl_of SameSize _
    case ok p => exact .of_content rfl rfl <| by simpa using hf file p.1 p.2 hr

theorem sameSize_seek (pos : Int) : Within SameSize (seek pos) := by
  refine sameSize_withFile fun file a file' h => ?_
  split at h
  case h_1 => cases h
  case h_2 f hf =>
    cases h
    rw [File.seekStart] at hf
    split at hf <;> cases hf
    rfl

theorem sameSize_readBytes (n : Nat) : Within SameSize (readBytes n) := by
  refine sameSize_withFile fun file a file' h => ?_
  dsimp only at h
  split at h
  case isTrue => cases h
  case isFalse =>
    split at h <;> cases h
    rfl

theorem sameSize_readUint64 : Within SameSize readUint64 := by
  rw [readUint64, ← bind_pure_comp]
  exact .bind (sameSize_readBytes 8) fun _ => .pure _

theorem seekEnd_eq_ok (h : seekEnd (-footerSize) l = .ok () l') :
    ∃ f, l.file = some f ∧ footerSize ≤ f.content.length ∧
      l' = { l with file := some ⟨f.content, f.content.length - 8⟩ } := by
  obtain ⟨sz, _ | file, pa, ps, cs, mx⟩ := l
  case none => cases h
  case some =>
    change (seekEnd _).run _ = _ at h
    rw [seekEnd, withFile_run] at h
    simp only [File.seekEnd, File.seekStart] at h
    by_cases hn : (file.content.length : Int) + -footerSize < 0
    · simp only [if_pos hn] at h
      cases h
    · simp only [if_neg hn] at h
      cases h
      simp only [footerSize] at hn ⊢
      exact ⟨file, rfl, by omega, by congr; omega⟩

theorem sameSize_footer (h : seekEnd (-footerSize) l = .ok () l') (n : Nat) :
    SameSize l (final (writeUint64 n l')) := by
  have ⟨f, hf, hl, he⟩ := seekEnd_eq_ok h
  subst he
  obtain ⟨sz, file, pa, ps, cs, mx⟩ := l
  subst hf
  change SameSize _ (final ((withFile _).run _))
  rw [withFile_run]
  refine .of_content rfl rfl fun f' hf' => ⟨f, rfl, ?_⟩
  cases hf'
  simp only [footerSize] at hl
  simp [File.write]
  omega

theorem sameSize_seekEnd : Within SameSize (seekEnd (-footerSize)) := by
  refine sameSize_withFile fun file a file' h => ?_
  split at h
  case h_1 => cases h
  case h_2 f hf =>
    cases h
    rw [File.seekEnd, File.seekStart] at hf
    split at hf <;> cases hf
    rfl

theorem sameSize_seekToCurrent : Within SameSize seekToCurrent :=
  .bind .get fun l => sameSize_seek l.pos

theorem sameSize_pos (pos : Int) : Within SameSize (modify ({ · with pos }) : SegmentM Unit) :=
  .modify fun _ => .of_content rfl rfl fun f h => ⟨f, h, rfl⟩

theorem sameSize_currentSize (currentSize : Int) :
    Within SameSize (modify ({ · with currentSize }) : SegmentM Unit) :=
  .modify fun _ => .of_content rfl rfl fun f h => ⟨f, h, rfl⟩

theorem sameSize_current : Within SameSize current := by
  refine .bind .get fun l => ?_
  split
  case isTrue => exact .throw _
  case isFalse =>
    refine .bind sameSize_seekToCurrent fun _ => .bind sameSize_readUint64 fun sz =>
      .bind (sameSize_currentSize _) fun _ => ?_
    split
    case isTrue => exact .throw _
    case isFalse =>
      split
      case isTrue => exact .throw _
      case isFalse => exact sameSize_readBytes sz

theorem sameSize_close : Within SameSize close := by
  intro l
  obtain ⟨sz, _ | file, pa, ps, cs, mx⟩ := l
  case none => exact refl_of SameSize _
  case some => exact .of_content rfl rfl nofun

theorem sameSize_advance : Within SameSize advance := by
  intro l
  have hg : (get : SegmentM Segment) l = .ok l l := rfl
  rw [advance, Frame.bind_ok hg]
  split
  case isTrue => exact refl_of SameSize _
  case isFalse =>
    split
    case isTrue => exact .of_content rfl rfl fun f hf => ⟨f, hf, rfl⟩
    case isFalse =>
      refine final_bind (P := SameSize l) (sameSize_seekEnd l) fun _ l₁ h₁ _ =>
        final_bind (P := SameSize l) (sameSize_footer h₁ _) fun _ l₂ _ h₂ => trans_of SameSize h₂ ?_
      refine (?_ : Within SameSize _) l₂
      refine .bind (sameSize_pos _) fun _ => .bind sameSize_seekToCurrent fun _ =>
        .bind sameSize_readUint64 fun sz => .bind (sameSize_currentSize _) fun _ => ?_
      split
      case isTrue => exact .bind (sameSize_currentSize _) fun _ => .throw _
      case isFalse => exact .pure _

theorem append_cases (h : l.Sized) (b : Bytes) :
    ((append b).run l = .error .notOpen l ∧ l.file = none) ∨
    ((append b).run l = .error .segmentFull l ∧ l.size + b.length > l.maxSize.toInt) ∨
    ¬(l.size + b.length > l.maxSize.toInt) ∧ ∃ l', (append b).run l = .ok () l' ∧
      l'.size = l.size + (8 + b.length) ∧ l'.maxSize = l.maxSize ∧ l'.Sized := by
  obtain ⟨sz, _ | ⟨c, o⟩, pa, ps, cs, mx⟩ := l
  case none => exact .inl ⟨rfl, rfl⟩
  case some =>
    by_cases hf : sz + b.length > mx.toInt
    case pos => exact .inr <| .inl ⟨by simp [append, hf], hf⟩
    case neg =>
      refine .inr <| .inr ⟨hf, ?_⟩
      have hc := h.file _ rfl
      have hl := h.footer
      dsimp only [footerSize] at hc hl
      obtain ⟨pre, post, he, hp⟩ : ∃ pre post, c = pre ++ post ∧ post.length = 8 :=
        ⟨c.take (c.length - 8), c.drop (c.length - 8), by simp, by simp; omega⟩
      subst he
      have hs : (File.mk (pre ++ post) o).seekEnd (-footerSize) = some ⟨pre ++ post, pre.length⟩ :=
        File.seekEnd_append hp
      simp only [append, EStateM.run_bind, EStateM.run_get, hf, Option.isNone_some,
        Bool.false_eq_true, if_false, seekEnd, withFile_run, hs, writeUint64, writeBytes_run,
        EStateM.run_modify]
      refine ⟨_, rfl, by simp; omega, rfl, ⟨?_, fun f' hf' => ?_⟩⟩
      · simp [footerSize]
        omega
      · cases hf'
        simp [hp] at hc ⊢
        omega

end Segment

namespace Queue

open Segment (SameSize)

variable {q q' : Queue} {l l' : Segment}

structure Sized (q : Queue) : Prop where
  shown : ∀ r ∈ q.segments, ∃ l, q.heap[r]? = some l ∧ l.Sized
  distinct : q.segments.Nodup
  tail : q.tail = q.segments.getLast?
  files : ∀ e ∈ q.dir, e.isDir = false

def Fits (q : Queue) : Prop :=
  ∀ r ∈ q.segments, ∀ l ∈ q.heap[r]?, l.size ≤ l.maxSize.toInt

theorem diskUsage_eq (q : Queue) :
    q.diskUsage = (q.segments.map fun r => q.heap[r]?.elim 0 Segment.diskUsage).sum := by
  rw [diskUsage, sum_eq_foldl, foldl_map]

structure Shrinks (q q' : Queue) : Prop where
  maxSize : q'.maxSize = q.maxSize
  limit : q'.maxSegmentSize = q.maxSegmentSize
  sized : q.Sized → q'.Sized
  usage : q.Sized → q'.diskUsage ≤ q.diskUsage
  fits : q.Sized → q.Fits → q'.Fits

instance : Std.Refl Shrinks :=
  ⟨fun _ => ⟨rfl, rfl, id, fun _ => le_rfl, fun _ => id⟩⟩

instance : IsTrans Queue Shrinks :=
  ⟨fun _ _ _ h₁ h₂ => {
    maxSize := h₂.maxSize.trans h₁.maxSize
    limit := h₂.limit.trans h₁.limit
    sized := h₂.sized ∘ h₁.sized
    usage hs := (h₂.usage (h₁.sized hs)).trans (h₁.usage hs)
    fits hs := h₂.fits (h₁.sized hs) ∘ h₁.fits hs }⟩

theorem files_flush {d : Directory} (h : ∀ e ∈ d, e.isDir = false) (l : Segment) :
    ∀ e ∈ flush d l, e.isDir = false := by
  rw [flush]
  split
  case h_1 => exact h
  case h_2 file hf =>
    refine forall_mem_map.mpr fun e he => ?_
    split
    case isTrue => exact h e he
    case isFalse => exact h e he

theorem getElem?_store (hl : q.heap[r]? = some l) (l' : Segment) (i : Ref) :
    (q.store r l').heap[i]? = if i = r then some l' else q.heap[i]? := by
  have ⟨hr, _⟩ := List.getElem?_eq_some_iff.mp hl
  simp only [store, getElem?_set, eq_comm (a := r), hr, if_true]

theorem Sized.store (h : q.Sized) (hl : q.heap[r]? = some l) (hs : r ∈ q.segments → l'.Sized) :
    (q.store r l').Sized where
  shown i hi := by
    rw [getElem?_store hl]
    split
    case isTrue he => exact ⟨l', rfl, hs (he ▸ hi)⟩
    case isFalse => exact h.shown i hi
  distinct := h.distinct
  tail := h.tail
  files := files_flush h.files l'

theorem Fits.store (h : q.Fits) (hl : q.heap[r]? = some l)
    (hs : r ∈ q.segments → l'.size ≤ l'.maxSize.toInt) : (q.store r l').Fits := by
  intro i hi
  rw [getElem?_store hl]
  split
  case isTrue he => simpa using hs (he ▸ hi)
  case isFalse => exact h i hi

theorem Sized.diskUsage_store (h : q.Sized) (hl : q.heap[r]? = some l) (hn : l.size ≤ l'.size) :
    (q.store r l').diskUsage ≤ q.diskUsage + (l'.size - l.size) := by
  rw [diskUsage_eq, diskUsage_eq]
  change (q.segments.map _).sum ≤ _
  have hd := h.distinct
  generalize q.segments = rs at hd
  induction rs
  case nil => simpa using hn
  case cons i rs hi =>
    have ⟨hni, hd⟩ := nodup_cons.mp hd
    rw [map_cons, sum_cons, map_cons, sum_cons, getElem?_store hl]
    split
    case isTrue he =>
      subst he
      have hr : rs.map (fun j => (q.store i l').heap[j]?.elim 0 Segment.diskUsage) =
          rs.map fun j => q.heap[j]?.elim 0 Segment.diskUsage :=
        map_congr_left fun j hj => by
          have hne : j ≠ i := fun he => hni (he ▸ hj)
          rw [getElem?_store hl, if_neg hne]
      rw [hr, hl]
      simp [Segment.diskUsage]
      omega
    case isFalse =>
      have := hi hd
      omega

theorem shrinks_store (hl : q.heap[r]? = some l) (hs : SameSize l l') :
    Shrinks q (q.store r l') where
  maxSize := rfl
  limit := rfl
  sized h := h.store hl fun hr => by
    have ⟨l₁, hl₁, hs₁⟩ := h.shown r hr
    cases hl.symm.trans hl₁
    exact hs.sized hs₁
  usage h := by
    have := h.diskUsage_store hl hs.size.ge
    have := hs.size
    omega
  fits h hf := hf.store hl fun hr => by
    rw [hs.size, hs.maxSize]
    exact hf r hr l hl

theorem shrinks_onSegment {m : SegmentM α} (hm : Within SameSize m) (r : Ref) :
    Within Shrinks (onSegment r m) := by
  intro q
  change Shrinks q (final ((onSegment r m).run q))
  cases hl : q.heap[r]?
  case none =>
    simp only [onSegment, EStateM.run, hl]
    exact refl_of Shrinks q
  case some l =>
    have hs := hm l
    change SameSize l (final (m.run l)) at hs
    rw [onSegment_run hl]
    cases hr : m.run l <;> rw [hr] at hs <;> exact shrinks_store hl hs

theorem shrinks_attempt {m : QueueM α} (hm : Within Shrinks m) : Within Shrinks (attempt m) := by
  intro q
  have h := hm q
  rw [attempt]
  split
  all_goals
    rename_i hr
    rw [hr] at h
    exact h

theorem shrinks_load (r : Ref) : Within Shrinks (load r) := by
  intro q
  rw [load]
  split <;> exact refl_of Shrinks q

theorem shrinks_deref (r : Option Ref) : Within Shrinks (deref r) := by
  unfold deref
  split
  case h_1 => exact .throw _
  case h_2 => exact .pure _

theorem shrinks_removeFile (path : FileName) : Within Shrinks (removeFile path) := by
  intro q
  have hg : (get : QueueM Queue) q = .ok q q := rfl
  rw [removeFile, Frame.bind_ok hg]
  split
  case isFalse => exact refl_of Shrinks q
  case isTrue => exact {
    maxSize := rfl
    limit := rfl
    sized h := ⟨h.shown, h.distinct, h.tail, fun e he => h.files e <| mem_of_mem_filter he⟩
    usage _ := le_rfl
    fits _ := id }

theorem shrinks_head (head : Option Ref) :
    Within Shrinks (modify ({ · with head }) : QueueM Unit) :=
  .modify fun _ => ⟨rfl, rfl, fun h => ⟨h.shown, h.distinct, h.tail, h.files⟩, fun _ => le_rfl,
    fun _ => id⟩

theorem shrinks_tail (hq : q.segments = r :: s :: rs) :
    Shrinks q { q with segments := s :: rs } where
  maxSize := rfl
  limit := rfl
  sized h := {
    shown i hi := h.shown i (hq ▸ mem_cons_of_mem r hi)
    distinct := (nodup_cons.mp (hq ▸ h.distinct)).2
    tail := h.tail.trans (by rw [hq, getLast?_cons_cons])
    files := h.files }
  usage h := by
    have ⟨l, hl, hs⟩ := h.shown r (hq ▸ mem_cons_self)
    have hf := hs.footer
    rw [diskUsage_eq, diskUsage_eq, hq]
    change ((s :: rs).map fun i => q.heap[i]?.elim 0 Segment.diskUsage).sum ≤ _
    rw [map_cons (l := s :: rs), sum_cons (a := Option.elim _ _ _), hl]
    simp only [footerSize, Option.elim_some, Segment.diskUsage] at hf ⊢
    omega
  fits _ hf := fun i hi => hf i (hq ▸ mem_cons_of_mem r hi)

theorem shrinks_trimHead : Within Shrinks trimHead := by
  intro q
  have hg : (get : QueueM Queue) q = .ok q q := rfl
  rw [trimHead, Frame.bind_ok hg]
  rcases hq : q.segments with _ | ⟨r, _ | ⟨s, rs⟩⟩
  case nil => exact refl_of Shrinks q
  case cons.nil => exact refl_of Shrinks q
  case cons.cons =>
    have ht : (set { q with segments := s :: rs } : QueueM Unit) q =
        .ok ⟨⟩ { q with segments := s :: rs } := rfl
    dsimp only
    rw [Frame.bind_ok ht]
    refine trans_of Shrinks (shrinks_tail hq) ((?_ : Within Shrinks _) _)
    exact .bind (shrinks_deref _) fun head =>
      .bind (shrinks_onSegment Segment.sameSize_close head) fun _ =>
        .bind (shrinks_load head) fun l =>
          .bind (shrinks_removeFile l.path) fun _ => shrinks_head _

theorem shrinks_current : Within Shrinks current := by
  refine .bind .get fun q => ?_
  split
  case h_1 => exact .throw _
  case h_2 head _ => exact shrinks_onSegment Segment.sameSize_current head

theorem shrinks_advance : Within Shrinks advance := by
  refine .bind .get fun q => ?_
  split
  case h_1 => exact .throw _
  case h_2 head _ =>
    refine .bind (shrinks_attempt <| shrinks_onSegment Segment.sameSize_advance head) fun x => ?_
    split
    case h_1 => exact shrinks_trimHead
    case h_2 => exact .pure _

theorem name_ne_formatUint (h : ∀ e ∈ q.dir, e.isDir = false) :
    ∀ e ∈ q.dir, e.name ≠ Decimal.formatUint (q.dir.readDir.foldl nextSegmentID.maxID 0 + 1) := by
  intro e he hn
  have hp : Decimal.parseUint e.name = some (q.dir.readDir.foldl nextSegmentID.maxID 0 + 1) := by
    rw [hn, Decimal.parseUint_formatUint]
  exact absurd (le_foldl_maxID (Directory.mem_readDir.mpr he) (h e he) hp) (Nat.not_succ_le_self _)

structure Added (q q' : Queue) (l : Segment) : Prop where
  heap : q'.heap = q.heap ++ [l]
  segments : q'.segments = q.segments ++ [q.heap.length]
  files : ∀ e ∈ q'.dir, e.isDir = false
  maxSize : q'.maxSize = q.maxSize
  limit : q'.maxSegmentSize = q.maxSegmentSize
  sized : l.Sized
  footer : l.size = footerSize
  max : l.maxSize = q.maxSegmentSize

theorem Sized.addSegment (h : q.Sized) :
    ∃ q' l, addSegment.run q = .ok q.heap.length q' ∧ Added q q' l := by
  have hf := name_ne_formatUint h.files
  have hn : nextSegmentID.run q = .ok (q.dir.readDir.foldl nextSegmentID.maxID 0 + 1) q := rfl
  generalize q.dir.readDir.foldl nextSegmentID.maxID 0 + 1 = n at hf hn
  obtain ⟨l, hl, hs, _, hm⟩ := Segment.Holds.newSegment_empty (Decimal.formatUint n) q.maxSegmentSize
  have hr := newSegment_run (Directory.openFile_of_notMem hf) hl
  have hz : l.size = footerSize := by simp [hs.size, length_layout, footerSize]
  simp only [Queue.addSegment, EStateM.run_bind, hn, hr, EStateM.run_modify, EStateM.run_pure]
  refine ⟨_, l, rfl, rfl, rfl, files_flush ?_ l, rfl, rfl, ⟨hz.ge, fun f hf => ?_⟩, hz, hm⟩
  · simpa [or_imp, forall_and] using h.files
  · obtain ⟨f', hf', hc⟩ := hs.file
    cases hf'.symm.trans hf
    rw [hc, hs.size]

namespace Added

variable (ha : Added q q' l)

include ha

theorem getElem?_self : q'.heap[q.heap.length]? = some l := by
  rw [ha.heap]
  simp

theorem getElem?_of_mem (h : q.Sized) (hr : r ∈ q.segments) : q'.heap[r]? = q.heap[r]? := by
  have ⟨l, hl, _⟩ := h.shown r hr
  have ⟨hlt, _⟩ := List.getElem?_eq_some_iff.mp hl
  rw [ha.heap, getElem?_append_left hlt]

theorem tail (h : q.Sized) : Sized { q' with tail := some q.heap.length } where
  shown r hr := by
    have hr : r ∈ q.segments ++ [q.heap.length] := ha.segments ▸ hr
    rcases mem_append.mp hr with hr | hr
    · have ⟨l, hl, hs⟩ := h.shown r hr
      exact ⟨l, (ha.getElem?_of_mem h hr).trans hl, hs⟩
    · rw [mem_singleton.mp hr]
      exact ⟨l, ha.getElem?_self, ha.sized⟩
  distinct := by
    have hn : q.heap.length ∉ q.segments := fun hr => by
      have ⟨l, hl, _⟩ := h.shown _ hr
      simp at hl
    have hd := h.distinct
    dsimp only
    rw [ha.segments, nodup_append]
    exact ⟨hd, nodup_singleton _, fun r hr r' hr' he =>
      hn (mem_singleton.mp hr' ▸ he ▸ hr)⟩
  tail := by
    dsimp only
    rw [ha.segments, getLast?_concat]
  files := ha.files

theorem diskUsage (h : q.Sized) : q'.diskUsage = q.diskUsage + footerSize := by
  rw [diskUsage_eq, diskUsage_eq, ha.segments, map_append, sum_append]
  have hr : q.segments.map (fun r => q'.heap[r]?.elim 0 Segment.diskUsage) =
      q.segments.map fun r => q.heap[r]?.elim 0 Segment.diskUsage :=
    map_congr_left fun r hr => by rw [ha.getElem?_of_mem h hr]
  rw [hr, map_singleton, sum_singleton, ha.getElem?_self, Option.elim_some,
    Segment.diskUsage, ha.footer]

theorem fits (h : q.Sized) (hf : q.Fits) (hm : footerSize ≤ q.maxSegmentSize.toInt) :
    Fits { q' with tail := some q.heap.length } := by
  intro r hr
  have hr : r ∈ q.segments ++ [q.heap.length] := ha.segments ▸ hr
  rcases mem_append.mp hr with hr | hr
  · dsimp only
    rw [ha.getElem?_of_mem h hr]
    exact hf r hr
  · rw [mem_singleton.mp hr]
    dsimp only
    rw [ha.getElem?_self]
    intro l' hl'
    cases hl'
    rwa [ha.footer, ha.max]

end Added

structure Limited (maxSize segmentSize : Int64) (q : Queue) : Prop where
  sized : q.Sized
  fits : q.Fits
  total : q.diskUsage ≤ max q.maxSize.toInt footerSize
  maxSize : q.maxSize = maxSize
  limit : q.maxSegmentSize = segmentSize
  footer : footerSize ≤ segmentSize.toInt

namespace Limited

variable {maxSize segmentSize : Int64} (h : q.Limited maxSize segmentSize)

include h

theorem shrinks (hs : Shrinks q q') : q'.Limited maxSize segmentSize where
  sized := hs.sized h.sized
  fits := hs.fits h.sized h.fits
  total := hs.maxSize ▸ (hs.usage h.sized).trans h.total
  maxSize := hs.maxSize.trans h.maxSize
  limit := hs.limit.trans h.limit
  footer := h.footer

theorem store {b : Bytes} (hl : q.heap[r]? = some l) (hs : l'.Sized)
    (hz : l'.size = l.size + (8 + b.length)) (hm : l'.maxSize = l.maxSize)
    (hf : l.size + (8 + b.length) ≤ l.maxSize.toInt)
    (ht : q.diskUsage + (8 + b.length) ≤ max q.maxSize.toInt footerSize) :
    (q.store r l').Limited maxSize segmentSize where
  sized := h.sized.store hl fun _ => hs
  fits := h.fits.store hl fun _ => by rw [hz, hm]; exact hf
  total := by
    have hle : l.size ≤ l'.size := by omega
    have := h.sized.diskUsage_store hl hle
    change _ ≤ max q.maxSize.toInt footerSize
    omega
  maxSize := h.maxSize
  limit := h.limit
  footer := h.footer

theorem tail (ha : Added q q' l) (ht : q.diskUsage + footerSize ≤ max q.maxSize.toInt footerSize) :
    Limited maxSize segmentSize { q' with tail := some q.heap.length } where
  sized := ha.tail h.sized
  fits := ha.fits h.sized h.fits (h.limit ▸ h.footer)
  total := by
    change q'.diskUsage ≤ max q'.maxSize.toInt footerSize
    rw [ha.diskUsage h.sized, ha.maxSize]
    exact ht
  maxSize := ha.maxSize.trans h.maxSize
  limit := ha.limit.trans h.limit
  footer := h.footer

theorem append_tail {b : Bytes} (ha : Added q q' l)
    (ht : q.diskUsage + footerSize ≤ max q.maxSize.toInt footerSize)
    (hr : footerSize + b.length ≤ q.maxSegmentSize.toInt →
      footerSize + (8 + b.length) ≤ q.maxSegmentSize.toInt ∧
        q.diskUsage + footerSize + (8 + b.length) ≤ max q.maxSize.toInt footerSize) :
    (final ((onSegment q.heap.length (Segment.append b)).run
      { q' with tail := some q.heap.length })).Limited maxSize segmentSize := by
  have h' := h.tail ha ht
  have hl : (Queue.heap { q' with tail := some q.heap.length })[q.heap.length]? = some l :=
    ha.getElem?_self
  have hu : Queue.diskUsage { q' with tail := some q.heap.length } = q.diskUsage + footerSize :=
    ha.diskUsage h.sized
  have hsame := h'.shrinks <| shrinks_store hl (refl_of SameSize l)
  rw [onSegment_run hl]
  rcases Segment.append_cases ha.sized b with ⟨hn, _⟩ | ⟨hn, _⟩ | ⟨hn, l', happ, hz, hmax, hs'⟩
  · rw [hn]
    exact hsame
  · rw [hn]
    exact hsame
  · rw [happ]
    rw [ha.footer, ha.max, gt_iff_lt, not_lt] at hn
    have ⟨h₁, h₂⟩ := hr hn
    refine h'.store hl hs' hz hmax ?_ ?_
    · rwa [ha.footer, ha.max]
    · rw [hu]
      change _ ≤ max q'.maxSize.toInt footerSize
      rwa [ha.maxSize]

theorem append (hr : q.HasRoom b) :
    (final ((Queue.append b).run q)).Limited maxSize segmentSize := by
  rw [Queue.append, EStateM.run_bind, EStateM.run_get]
  cases ht : q.tail
  case none =>
    simp only [ht]
    exact h
  case some tail =>
    simp only [ht]
    have hm : tail ∈ q.segments := mem_of_getLast? (h.sized.tail ▸ ht)
    obtain ⟨l, hl, hs⟩ := h.sized.shown tail hm
    have htf : q.TailFull b ↔ l.size + b.length > l.maxSize.toInt := by
      simp [TailFull, tailSegment?, ht, hl]
    rw [HasRoom] at hr
    split at hr
    case isTrue hq =>
      rw [if_pos hq]
      exact h
    case isFalse hq =>
      rw [if_neg hq, EStateM.run_bind, attempt_run, onSegment_run hl]
      have hsame : Shrinks q (q.store tail l) := shrinks_store hl (refl_of SameSize l)
      have h₁ := h.shrinks hsame
      have hu := hsame.usage h.sized
      rcases Segment.append_cases hs b with ⟨ha, hn⟩ | ⟨ha, hfull⟩ | ⟨hfull, l', ha, hz, hmax, hs'⟩
      · rw [ha]
        exact h₁
      · rw [if_pos (htf.mpr hfull)] at hr
        obtain ⟨q', l₀, hadd, hq'⟩ := h₁.sized.addSegment
        rw [ha]
        simp only [EStateM.run_bind, hadd, EStateM.run_modify]
        refine h₁.append_tail hq' ?_ fun hfit => ⟨(hr.2 hfit).1, ?_⟩
        · exact (Int.add_le_add_right hu _).trans hr.1
        · exact (Int.add_le_add_right (Int.add_le_add_right hu _) _).trans (hr.2 hfit).2
      · rw [ha]
        rw [if_neg (htf.not.mpr hfull)] at hr
        exact h.store hl hs' hz hmax (hr.1 l (by simp [tailSegment?, ht, hl])) hr.2

end Limited

section MaxSize

open Frame (Keeps)

theorem keeps_onSegment (r : Ref) (m : SegmentM α) :
    Within (Keeps (·.maxSize)) (onSegment r m) := by
  intro q
  simp only [onSegment]
  split
  case h_1 => rfl
  case h_2 => split <;> rfl

theorem keeps_of_shrinks {m : QueueM α} (h : Within Shrinks m) :
    Within (Keeps fun q : Queue => q.maxSize) m :=
  fun q => (h q).maxSize

theorem keeps_newSegment (path : FileName) :
    Within (Keeps fun q : Queue => q.maxSize) (newSegment path) := by
  intro q
  simp only [newSegment]
  split <;> rfl

theorem keeps_addSegment : Within (Keeps fun q : Queue => q.maxSize) addSegment :=
  .bind (.bind .get fun _ => .pure _) fun _ => .bind (keeps_newSegment _) fun _ =>
    .bind (.modify fun _ => rfl) fun _ => .pure _

theorem keeps_forSegments (f : SegmentM Unit) (rs : List Ref) :
    Within (Keeps fun q : Queue => q.maxSize) (forSegments f rs) := by
  induction rs
  case nil => exact .pure _
  case cons r rs hi => exact .bind (keeps_onSegment r f) fun _ => hi

theorem keeps_setMaxSegmentSize (size : Int64) :
    Within (Keeps fun q : Queue => q.maxSize) (setMaxSegmentSize size) := by
  refine .bind (.modify fun _ => rfl) fun _ => .bind .get fun q =>
    .bind (keeps_forSegments _ _) fun _ => .bind .get fun q =>
     .bind (keeps_of_shrinks <| shrinks_deref _) fun r =>
      .bind (keeps_of_shrinks <| shrinks_load r) fun l => ?_
  split
  case isTrue => exact .bind keeps_addSegment fun _ => .modify fun _ => rfl
  case isFalse => exact .pure _

theorem keeps_loadSegments : Within (Keeps fun q : Queue => q.maxSize) loadSegments := by
  refine .bind .get fun q => ?_
  induction q.dir.readDir
  case nil => exact .pure _
  case cons file files hi =>
    rw [loadSegments.go]
    split
    case isTrue => exact hi
    case isFalse => exact .bind (keeps_newSegment _) fun _ => .bind hi fun _ => .pure _

theorem shrinks_skipDrained : Within Shrinks «open».skipDrained := by
  refine .bind .get fun q => .bind (shrinks_deref _) fun head =>
    .bind (shrinks_attempt <| shrinks_onSegment Segment.sameSize_current head) fun x => ?_
  split
  case h_1 => exact shrinks_trimHead
  case h_2 => exact .pure _

theorem keeps_open : Within (Keeps fun q : Queue => q.maxSize) «open» := by
  refine .bind keeps_loadSegments fun rs => .bind (.modify fun _ => rfl) fun _ => ?_
  split
  case isTrue =>
    exact .bind keeps_addSegment fun _ => .bind (.modify fun _ => rfl) fun _ =>
      keeps_of_shrinks shrinks_skipDrained
  case isFalse => exact .bind (.modify fun _ => rfl) fun _ => keeps_of_shrinks shrinks_skipDrained

theorem after_eq_final (m : EStateM ε σ α) (s : σ) : after m s = final (m.run s) := by
  rw [after]
  cases m.run s <;> rfl

theorem maxSize_fresh (maxSize segmentSize : Int64) :
    (fresh maxSize segmentSize).maxSize = maxSize := by
  rw [fresh, after_eq_final]
  exact Within.bind keeps_open (fun _ => keeps_setMaxSegmentSize segmentSize) (newQueue [] maxSize)

end MaxSize

theorem limited_fresh {maxSize segmentSize : Int64}
    (hc : 8 < segmentSize.toInt ∨ segmentSize.toInt = 8 ∧ 16 ≤ maxSize.toInt) :
    (fresh maxSize segmentSize).Limited maxSize segmentSize := by
  obtain ⟨vs, hr, hv, hle, hl⟩ := History.Refines.init maxSize segmentSize
  have hr : (fresh maxSize segmentSize).Repr segmentSize vs := hr.repr
  have hs v (h : v ∈ vs) : ∃ l, (fresh maxSize segmentSize).heap[v.ref]? = some l ∧ l.Sized ∧
      l.size = footerSize ∧ l.maxSize = segmentSize := by
    obtain ⟨l, hl, hsh⟩ := hr.shown v h
    have hz : l.size = footerSize := by
      simp [hsh.holds.size, hv v h, length_layout, footerSize]
    refine ⟨l, hl, ⟨hz.ge, fun f hf => ?_⟩, hz, hsh.maxSize⟩
    obtain ⟨f', hf', hc⟩ := hsh.holds.file
    cases hf'.symm.trans hf
    rw [hc, hsh.holds.size]
  have hf : footerSize ≤ segmentSize.toInt := by
    rw [footerSize]
    omega
  have hu : (fresh maxSize segmentSize).diskUsage = vs.length * footerSize := by
    rw [diskUsage_eq, hr.segments, map_map]
    have he : vs.map ((fun r => (fresh maxSize segmentSize).heap[r]?.elim 0 Segment.diskUsage) ∘
        (·.ref)) = vs.map fun _ => footerSize :=
      map_congr_left fun v h => by
        obtain ⟨l, hl, _, hz, _⟩ := hs v h
        simp [hl, Segment.diskUsage, hz]
    rw [he]
    simp
  exact {
    sized := {
      shown r h := by
        obtain ⟨v, hv, he⟩ := mem_map.mp (hr.segments ▸ h)
        obtain ⟨l, hl, hs, _⟩ := hs v hv
        exact ⟨l, he ▸ hl, hs⟩
      distinct := hr.segments ▸ hr.distinct
      tail := hr.tail
      files e he := by
        obtain ⟨v, _, he⟩ := mem_map.mp (hr.dir ▸ he)
        exact he ▸ rfl }
    fits := fun r h l hl => by
      obtain ⟨v, hv, he⟩ := mem_map.mp (hr.segments ▸ h)
      obtain ⟨l', hl', _, hz, hm⟩ := hs v hv
      subst he
      cases hl.symm.trans hl'
      rwa [hz, hm]
    total := by
      rw [hu, maxSize_fresh, footerSize]
      omega
    maxSize := maxSize_fresh maxSize segmentSize
    limit := hr.limit
    footer := hf }

theorem bounded_of_limited {maxSize segmentSize : Int64} (h : q.Limited maxSize segmentSize) :
    q.Bounded where
  total := h.total
  files := fun r hr l hl => by
    have ⟨l', hl', hs⟩ := h.sized.shown r hr
    cases hl'.symm.trans hl
    exact ⟨h.fits r hr l hl, fun f hf => hs.file f hf ▸ h.fits r hr l hl⟩

end Queue

namespace History

open Queue (Limited)

variable {h : History} {maxSize segmentSize : Int64}

theorem limited_step (hl : h.queue.Limited maxSize segmentSize) (ho : op.KeepsBound h.queue) :
    (h.step op).queue.Limited maxSize segmentSize := by
  cases op
  case append b =>
    have hq : (h.step (.append b)).queue = final ((Queue.append b).run h.queue) := by
      rw [step]
      cases (Queue.append b).run h.queue <;> rfl
    rw [hq]
    exact hl.append ho
  case current =>
    rw [step, Queue.after_eq_final]
    exact hl.shrinks <| Queue.shrinks_current _
  case advance =>
    rw [step, Queue.after_eq_final]
    exact hl.shrinks <| Queue.shrinks_advance _
  case purgeOlderThan => exact ho.elim

theorem bounded_of_hasRoom
    (hc : 8 < segmentSize.toInt ∨ segmentSize.toInt = 8 ∧ 16 ≤ maxSize.toInt)
    (hr : Run step (fun h op => op.KeepsBound h.queue) (init maxSize segmentSize) h) :
    h.queue.Bounded ∧ h.queue.maxSize = maxSize ∧ h.queue.maxSegmentSize = segmentSize := by
  have hl : h.queue.Limited maxSize segmentSize :=
    hr.invariant (I := fun h => h.queue.Limited maxSize segmentSize) (Queue.limited_fresh hc)
      limited_step
  exact ⟨Queue.bounded_of_limited hl, hl.maxSize, hl.limit⟩

theorem append_exceeds_limits :
    let h := [.append [1, 2, 3, 4, 5, 6, 7, 8, 9, 10, 11, 12]].foldl step (init 20 20)
    h.accepted.length = 1 ∧ h.queue.diskUsage = 28 ∧ ¬h.queue.Bounded := by
  intro h
  have hu : h.queue.diskUsage = 28 := by decide +kernel
  have hm : h.queue.maxSize = 20 := by decide +kernel
  refine ⟨by decide +kernel, hu, fun hb => ?_⟩
  have ht := hb.total
  rw [hu, hm] at ht
  exact absurd ht (by decide)

theorem bounded_of_hasRoom_rolled :
    let h := [.append [1, 2, 3, 4], .append [5, 6, 7, 8, 9, 10], .current, .advance].foldl step
      (init 50 25)
    h.accepted.length = 2 ∧ h.queue.Bounded ∧ h.queue.maxSize = 50 ∧
      h.queue.maxSegmentSize = 25 :=
  ⟨by decide +kernel, bounded_of_hasRoom (by decide) (.foldl (by decide +kernel))⟩

end History

end Hh
