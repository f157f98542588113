import Myts.Tsm1.Merge
import Myts.Tsm1.Theorems.Values

open List

open Series

namespace Tsm1.Merging

variable {V : Type}

namespace Block

variable {b : Block V} {w : Int64 × Int64} {p : Int64 × V}

theorem Valid.mem_range (h : b.Valid) (hp : p ∈ b.values) : b.minTime ≤ p.1 ∧ p.1 ≤ b.maxTime := by
  have ⟨f, hf, hmin⟩ := Option.map_eq_some_iff.mp h.first
  have ⟨l, hl, hmax⟩ := Option.map_eq_some_iff.mp h.last
  exact ⟨hmin ▸ Values.head_le h.ascending hf hp, hmax ▸ Values.le_getLast h.ascending hl hp⟩

variable {lo hi : Int64}

end Block

namespace KeyIterator

variable {k : KeyIterator V} {blocks : List (Block V)} {w : Int64 × Int64}

def Pending (k : KeyIterator V) (t : Int64) : Prop :=
  (∃ p ∈ k.mergedValues, p.1 = t) ∨ ∃ b ∈ k.blocks, ∃ p ∈ b.unread, p.1 = t

structure Valid (k : KeyIterator V) : Prop where
  blocks : ∀ b ∈ k.blocks, b.Valid
  encoded : ∀ b ∈ k.blocks, b.encoded = false
  merged : k.mergedValues.Ascending

structure Ordered (k : KeyIterator V) : Prop where
  following : Following k.blocks
  ahead : ∀ p ∈ k.mergedValues, ∀ b ∈ k.blocks, ∀ q ∈ b.unread, p.1 < q.1

def Ahead (k : KeyIterator V) (out : List (Block V)) : Prop :=
  ∀ b ∈ out, ∀ t, k.Pending t → b.maxTime < t

def EndsWith (blocks : List (Block V)) (w : Int64 × Int64) : Prop :=
  ∃ b ∈ blocks, ¬b.read ∧ w.1 ≤ b.minTime ∧ w.2 = b.maxTime

theorem EndsWith.adjust (h : EndsWith blocks w) (hc : c ∈ blocks) :
    EndsWith blocks (c.adjust w) := by
  have ⟨b, hb, hbr, hmin, hmax⟩ := h
  unfold Block.adjust
  split
  case isFalse => exact h
  case isTrue h =>
    have hl : (if c.minTime < w.1 then c.minTime else w.1) ≤ w.1 ∧
        (if c.minTime < w.1 then c.minTime else w.1) ≤ c.minTime := by
      split
      case isTrue h => exact ⟨h.le, le_rfl⟩
      case isFalse h => exact ⟨le_rfl, not_lt.mp h⟩
    generalize (if c.minTime < w.1 then c.minTime else w.1) = lo at hl ⊢
    dsimp only
    split
    case isTrue => exact ⟨c, hc, by simpa using (Bool.and_eq_true_iff.mp h).2, hl.2, rfl⟩
    case isFalse => exact ⟨b, hb, hbr, hl.1.trans hmin, hmax⟩

theorem EndsWith.foldl {l : List (Block V)} (h : EndsWith blocks w) (hl : ∀ b ∈ l, b ∈ blocks) :
    EndsWith blocks (l.foldl (fun w b => b.adjust w) w) := by
  induction l generalizing w
  case nil => exact h
  case cons b l hi =>
    rw [forall_mem_cons] at hl
    exact hi (h.adjust hl.1) hl.2

section Fill

def left (blocks : List (Block V)) : Nat :=
  (blocks.map (·.unread.length)).sum

structure Narrows (k k' : KeyIterator V) : Prop where
  size : k'.size = k.size
  valid : k'.Valid
  pending : ∀ t, k'.Pending t → k.Pending t
  ordered : k.Ordered → k'.Ordered

theorem Narrows.trans (h₁ : Narrows k k₁) (h₂ : Narrows k₁ k₂) : Narrows k k₂ :=
  ⟨h₂.size.trans h₁.size, h₂.valid, fun t h => h₁.pending t (h₂.pending t h),
    fun h => h₂.ordered (h₁.ordered h)⟩

end Fill

section Chunk

structure Emits (k : KeyIterator V) (out : List (Block V)) : Prop where
  ordered : out.Pairwise (·.maxTime < ·.minTime)
  valid : ∀ b ∈ out, b.Valid
  bounded : ∀ b ∈ out, b.encoded → b.values.length ≤ k.size
  pending : ∀ b ∈ out, ∀ p ∈ b.values, k.Pending p.1

variable {v : Series Int64 V} {dst : List (Block V)}

theorem Emits.nil : Emits k [] :=
  ⟨.nil, nofun, nofun, nofun⟩

end Chunk

section Append

structure Splits (blocks merged rest : List (Block V)) : Prop where
  sublist : (merged ++ rest).Sublist blocks
  unread : ∀ b ∈ merged, ¬b.read

theorem Splits.all {merged rest : List (Block V)} (h : Splits blocks merged rest) :
    Splits blocks (merged ++ rest.filter (!·.read)) [] := by
  refine ⟨?_, ?_⟩
  · rw [append_nil]
    exact (filter_sublist.append_left _).trans h.sublist
  · rw [forall_mem_append]
    exact ⟨h.unread, fun b hb => by simpa using (mem_filter.mp hb).2⟩

end Append

end KeyIterator

namespace Compaction

variable {s : Compaction V} {out : List (Block V)}

structure Inv (size : Nat) (s : Compaction V) : Prop where
  valid : s.iterator.Valid
  size_eq : s.iterator.size = size
  emitted : ∀ b ∈ s.emitted, b.Valid ∧ (b.encoded → b.values.length ≤ size)

def single (t : Int64) (v : V) : Block V where
  minTime := t
  maxTime := t
  values := [(t, v)]

end Compaction

end Tsm1.Merging
