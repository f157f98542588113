import Myts.Tsm1.Theorems.Damage

open List

-- What an index says of itself: its size, and the first and last of its keys and times.
namespace Tsm1

open Bytes Go

namespace DirectIndex

variable {d f : DirectIndex} {calls : List (Bytes × UInt8 × IndexEntry)} {n : UInt32} {k : Bytes}

def written (d : DirectIndex) : Nat :=
  d.buf.length + if d.key = [] then 0 else 5 + d.key.length + d.indexEntries.entries.length * 28

structure Sized (calls : List (Bytes × UInt8 × IndexEntry)) (d : DirectIndex) (n : UInt32) :
    Prop where
  size : n + .ofNat d.keyCount = .ofNat d.written
  le : d.keyCount ≤ d.written
  entries : d.indexEntries.entries.length = calls.countP (·.1 = d.key)
  last : ∀ c ∈ calls, c.1 ≤ d.key
  mem : d.key = [] ∨ ∃ c ∈ calls, c.1 = d.key
  count : d.keyCount = 0 ↔ calls = []

theorem sized_nil : Sized [] new 0 where
  size := rfl
  le := le_rfl
  entries := rfl
  last := nofun
  mem := .inl rfl
  count := iff_of_true rfl rfl

theorem length_buf_flush (hk : d.key ≠ []) (h : d.indexEntries.entries.length ≤ maxIndexEntries) :
    ∃ f : DirectIndex, d.flush = (f, none) ∧ f.buf.length = d.written ∧
      f.keyCount = d.keyCount ∧ f.indexEntries.entries = [] := by
  rw [flush, if_neg hk, if_neg h.not_gt]
  refine ⟨_, rfl, ?_, rfl, rfl⟩
  rw [length_append, IndexBlock.length_encode, length_insertionSort, written, if_neg hk]

namespace Sized

theorem start (h : d.Sized calls n) (hb : f.buf.length = d.written)
    (hf : f.keyCount = d.keyCount) (he : f.indexEntries.entries = []) (hk : k ≠ [])
    (hn : ∀ c ∈ calls, c.1 < k) : (f.start k type e).Sized (calls ++ [(k, type, e)])
      (n + (.ofNat (2 + k.length) + .ofNat indexCountSize + .ofNat indexEntrySize)) := by
  have hw : (f.start k type e).written = d.written + (33 + k.length) := by
    simp only [written, DirectIndex.start, if_neg hk, hb, he, length_append, length_nil,
      length_singleton]
    omega
  have hc : (f.start k type e).keyCount = d.keyCount + 1 := congrArg (· + 1) hf
  have hl : (f.start k type e).indexEntries.entries.length = 1 :=
    congrArg (fun l => (l ++ [e]).length) he
  have := h.le
  refine ⟨?_, by omega, ?_, fun c hm => ?_, .inr ⟨_, mem_concat_self, rfl⟩, by simp [hc]⟩
  · have := h.size
    rw [hw, hc, indexCountSize, indexEntrySize]
    simp only [UInt32.ofNat_add]
    grind
  · have hz : calls.countP (·.1 = k) = 0 :=
      countP_eq_zero.mpr fun c hm => by simpa using (hn c hm).ne
    rw [hl, DirectIndex.start, countP_append, hz, countP_singleton, if_pos (by simp)]
  · obtain hm | rfl := mem_append.mp hm |>.imp_right mem_singleton.mp
    exacts [(hn c hm).le, le_rfl]

theorem same (h : d.Sized calls n) (hk : d.key ≠ []) : Sized (calls ++ [(d.key, type, e)])
    { d with indexEntries.entries := d.indexEntries.entries ++ [e] }
      (n + .ofNat indexEntrySize) := by
  have hw : written { d with indexEntries.entries := d.indexEntries.entries ++ [e] } =
      d.written + 28 := by
    simp only [written, if_neg hk, length_append, length_singleton]
    omega
  have hc : d.keyCount ≠ 0 := by
    obtain hd | ⟨c, hm, _⟩ := h.mem
    exacts [absurd hd hk, fun h0 => ne_nil_of_mem hm <| h.count.mp h0]
  refine ⟨?_, hw ▸ h.le.trans (Nat.le_add_right ..), ?_, fun c hm => ?_,
    .inr ⟨_, mem_concat_self, rfl⟩, by simp [hc]⟩
  · have := h.size
    rw [hw, indexEntrySize, UInt32.ofNat_add]
    grind
  · rw [length_append, h.entries, countP_append, countP_singleton, if_pos (by simp)]
    rfl
  · obtain hm | rfl := mem_append.mp hm |>.imp_right mem_singleton.mp
    exacts [h.last c hm, le_rfl]

theorem key_ne_nil (h : d.Sized calls n) (hk : ∀ c ∈ calls, c.1 ≠ []) (hn : calls ≠ []) :
    d.key ≠ [] := fun hd => by
  have ⟨c, hm⟩ := exists_mem_of_ne_nil _ hn
  exact hk c hm <| (hd ▸ h.last c hm : c.1 ≤ []).eq_of_not_lt (not_lt_nil _)

theorem add (h : d.Sized calls n) (hk : k ≠ []) (hs : ∀ c ∈ calls, c.1 ≠ [] ∧ c.1 ≤ k)
    (hc : ∀ k, calls.countP (·.1 = k) ≤ maxIndexEntries) :
    ∃ d', d.add k type e = .ok d' ∧ d'.Sized (calls ++ [(k, type, e)]) (n + d.added k) := by
  by_cases hd : d.key = []
  · have hn : calls = [] := by_contra fun hn => h.key_ne_nil (hs · · |>.left) hn hd
    subst hn
    rw [DirectIndex.add, added, if_pos hd, if_pos hd]
    have he := length_eq_zero_iff.mp h.entries
    have hb : d.buf.length = d.written := by rw [written, if_pos hd, Nat.add_zero]
    exact ⟨_, rfl, h.start hb rfl he hk (by simp)⟩
  · obtain hd' | ⟨c, hm, hck⟩ := h.mem
    · exact absurd hd' hd
    rw [DirectIndex.add, added, if_neg hd, if_neg hd]
    by_cases hkd : d.key = k
    · subst hkd
      rw [if_pos rfl, if_pos rfl]
      exact ⟨_, rfl, h.same hd⟩
    · have hlt : d.key < k := lt_of_le_of_ne (hck ▸ (hs c hm).right) hkd
      obtain ⟨f, hf, hb, hn, he⟩ := length_buf_flush hd (h.entries ▸ hc d.key)
      rw [if_neg hkd, if_neg hkd, if_pos hlt, hf]
      exact ⟨_, rfl, h.start hb hn he hk fun c hm => (h.last c hm).trans_lt hlt⟩

end Sized

theorem sized_addAll (hs : calls.Pairwise (·.1 ≤ ·.1)) (hk : ∀ c ∈ calls, c.1 ≠ [])
    (hc : ∀ k, calls.countP (·.1 = k) ≤ maxIndexEntries) :
    ∃ d n, addAll calls = .ok (d, n) ∧ d.Sized calls n := by
  induction calls using reverseRecOn
  case nil => exact ⟨_, _, rfl, sized_nil⟩
  case append_singleton calls c hi =>
    have hs := pairwise_append.mp hs
    have hc' : ∀ k, calls.countP (·.1 = k) ≤ maxIndexEntries := fun k =>
      (countP_append ▸ hc k).trans' <| Nat.le_add_right ..
    have ⟨d, n, ha, h⟩ := hi hs.left (fun c hm => hk c <| mem_append_left _ hm) hc'
    have ⟨d', hd, (h' : d'.Sized (calls ++ [c]) _)⟩ := h.add (hk c mem_concat_self)
      (fun x hm => ⟨hk x <| mem_append_left _ hm, hs.right.right x hm c <| mem_singleton_self c⟩)
      hc'
    refine ⟨d', _, ?_, h'⟩
    rw [addAll, foldlM_append, ← addAll, ha, ok_bind, foldlM_cons]
    dsimp only
    rw [hd]
    rfl

theorem size_eq_length_iff (hs : calls.Pairwise (·.1 ≤ ·.1)) (hk : ∀ c ∈ calls, c.1 ≠ [])
    (hc : ∀ k, calls.countP (·.1 = k) ≤ maxIndexEntries) :
    ∃ d n b, addAll calls = .ok (d, n) ∧ d.bytes = .ok b ∧ (n.toNat = b.length ↔ calls = []) := by
  by_cases hn : calls = []
  · subst hn
    exact ⟨_, _, _, rfl, rfl, iff_of_true rfl rfl⟩
  · have ⟨d, n, ha, h⟩ := sized_addAll hs hk hc
    have ⟨f, hf, hb, _⟩ := length_buf_flush (h.key_ne_nil hk hn) (h.entries ▸ hc d.key)
    refine ⟨d, n, f.buf, ha, by rw [bytes, hf], iff_of_false (fun he => hn ?_) hn⟩
    have hz := congrArg UInt32.toNat h.size
    have hlt := n.toNat_lt
    have hle := h.le
    rw [UInt32.toNat_add, UInt32.toNat_ofNat', UInt32.toNat_ofNat'] at hz
    exact h.count.mp (by omega)

def single : List (Bytes × UInt8 × IndexEntry) :=
  [([97], 0, { minTime := 1, maxTime := 1, offset := 5, size := 9 })]

def threeCalls : List (Bytes × UInt8 × IndexEntry) :=
  single ++ [([97], 0, { minTime := 2, maxTime := 4, offset := 14, size := 9 }),
    ([98], 1, { minTime := -1, maxTime := 4, offset := 23, size := 9 })]

theorem size_eq_length_threeCalls : ∃ d n b, addAll threeCalls = .ok (d, n) ∧ d.bytes = .ok b ∧
    (n.toNat = b.length ↔ threeCalls = []) :=
  size_eq_length_iff (by decide) (by decide) fun _ => countP_le_length.trans (by decide)

theorem size_ne_length_single : ∃ d n b, addAll single = .ok (d, n) ∧ d.bytes = .ok b ∧
    n.toNat = 33 ∧ b.length = 34 :=
  ⟨_, _, _, rfl, rfl, rfl, rfl⟩

end DirectIndex

namespace IndirectIndex

structure Summarizes (d : IndirectIndex) (xs : List IndexBlock) : Prop where
  minKey : IsLeast {k | ∃ x ∈ xs, x.key = k} d.minKey
  maxKey : IsGreatest {k | ∃ x ∈ xs, x.key = k} d.maxKey
  minTime : IsLeast {t | ∃ x ∈ xs, ∃ e ∈ x.entries, e.minTime = t} d.minTime
  maxTime : IsGreatest {t | ∃ x ∈ xs, ∃ e ∈ x.entries, e.maxTime = t} d.maxTime

section Large

variable {b : Bytes} {x : IndexBlock} {xs : List IndexBlock} {iMax : Nat}

theorem drop_at (h : x.At b n) : ∃ rest, b.drop n = putUint16 x.key.length ++ (x.key ++
    (x.type :: (putUint16 x.entries.length ++ (x.entries.flatMap (·.encode) ++ rest)))) := by
  have ⟨pre, rest, hb, hp⟩ := h.bytes
  exact ⟨rest, by rw [hb, drop_left' hp]; simp [IndexBlock.encode]⟩

theorem keyLen_at (h : x.At b n) : keyLen b n = x.key.length := by
  have ⟨rest, hd⟩ := drop_at h
  rw [keyLen, hd, take_left' (length_putUint16 _), uint16_putUint16, Nat.mod_eq_of_lt h.key]

theorem keyBytes_at (h : x.At b n) : keyBytes b n = x.key := by
  have ⟨rest, hd⟩ := drop_at h
  rw [keyBytes, keyLen_at h, ← drop_drop, hd, drop_left' (length_putUint16 _), take_left' rfl]

theorem next_at (h : x.At b n) : next b n = n + x.encode.length := by
  have ⟨rest, hd⟩ := drop_at h
  have hc : blockCount b n = x.entries.length := by
    rw [blockCount, keyLen_at h, Nat.add_assoc, ← drop_drop, hd]
    have hl : (putUint16 x.key.length ++ (x.key ++ [x.type])).length = 3 + x.key.length := by
      simp
      omega
    rw [show ∀ r, putUint16 x.key.length ++ (x.key ++ x.type :: r) =
      (putUint16 x.key.length ++ (x.key ++ [x.type])) ++ r by simp, drop_left' hl,
      take_left' (length_putUint16 _), uint16_putUint16, Nat.mod_eq_of_lt h.entries]
  rw [next, hc, keyLen_at h, x.length_encode, indexEntrySize]
  omega

theorem keys_stop (hb : b = l ++ xs.flatMap (·.encode)) (hv : ∀ x ∈ xs, x.Valid)
    (hm : iMax ≤ b.length) (hp : i ∈ (keys b iMax fuel l.length).positions.getLast?) :
    ∃ x, (i, x) ∈ place l.length xs ∧ (keys b iMax fuel l.length).stop = i + x.encode.length := by
  induction fuel generalizing l xs
  case zero => cases hp
  case succ fuel hi =>
    rw [keys] at hp ⊢
    split at hp
    case isFalse => cases hp
    case isTrue hr =>
      rw [if_pos hr]
      cases xs
      case nil =>
        have := hr.left
        simp only [hb, flatMap_nil, append_nil] at hm this
        omega
      case cons x xs =>
        rw [flatMap_cons] at hb
        have hx := hv x mem_cons_self
        have ha : x.At b l.length := ⟨⟨l, _, hb, rfl⟩, hx.key, hx.entries⟩
        rw [← append_assoc] at hb
        rw [next_at ha, ← length_append] at hp ⊢
        dsimp only at hp ⊢
        have hi := hi hb fun x hx => hv x <| mem_cons_of_mem _ hx
        cases hq : (keys b iMax fuel (l ++ x.encode).length).positions
        case nil =>
          have hs := not_not.mp (positions_ne_nil.mt <| not_not.mpr hq)
          cases hq ▸ hp
          exact ⟨x, mem_cons_self, hs.symm.trans length_append⟩
        case cons j js =>
          rw [hq] at hi hp
          obtain ⟨y, hm, hs⟩ := hi hp
          exact ⟨y, mem_cons_of_mem _ (length_append ▸ hm), hs⟩

theorem exists_key_lt (hk : xs.Pairwise (·.key < ·.key)) (hp : (i, x) ∈ place n xs)
    (hlt : i + x.encode.length < n + (xs.flatMap (·.encode)).length) :
    ∃ y ∈ xs, x.key < y.key := by
  induction xs generalizing n
  case nil => nomatch hp
  case cons z xs hi =>
    have ⟨hz, hk⟩ := pairwise_cons.mp hk
    rw [flatMap_cons, length_append] at hlt
    rcases mem_cons.mp hp with he | hp
    · cases he
      have ⟨y, hy⟩ := exists_mem_of_ne_nil xs fun hn => by simp [hn] at hlt
      exact ⟨y, mem_cons_of_mem _ hy, hz y hy⟩
    · have ⟨y, hy, hlt⟩ := hi hk hp (by omega)
      exact ⟨y, mem_cons_of_mem _ hy, hlt⟩

theorem not_summarizes (hv : ∀ x ∈ xs, x.Valid) (hk : xs.Pairwise (·.key < ·.key))
    (hl : 2 ^ 31 ≤ (xs.flatMap (·.encode)).length)
    (hd : unmarshalBinary (xs.flatMap (·.encode)) = .ok d) : ¬d.Summarizes xs := by
  intro hs
  generalize hb : xs.flatMap (·.encode) = b at hl hd
  have hne : b ≠ [] := fun h => by simp [h] at hl
  have hle := int32_le (n := b.length)
  rcases le_or_gt (int32 b.length) 0 with h0 | h0
  · rw [unmarshalBinary_of_length hne h0] at hd
    nomatch hd
  · have ⟨hpanic, hfail, hok⟩ := unmarshalBinary_cases hne h0
    have hh : ¬_ := fun hh => nomatch (hpanic hh).symm.trans hd
    have hst := not_lt.mp fun hst => nomatch (hfail hh hst).choose_spec.symm.trans hd
    have ⟨d', hd', _, hli, hmax⟩ := hok hh hst
    cases hd.symm.trans hd'
    have hn : (keys b (int32 b.length).toNat b.length 0).positions ≠ [] :=
      positions_ne_nil (by omega)
    have hi := getLast?_eq_some_getLast hn
    have ⟨x, hp, hstop⟩ := keys_stop (l := []) hb.symm hv (by omega) hi
    have hsmall := not_le.mp fun hb => hh (.inr hb)
    rw [behind_of_le hst] at hsmall
    have ⟨y, hy, hlt⟩ := exists_key_lt hk hp (by
      rw [hb]
      simp only [length_nil] at hstop ⊢
      omega)
    have ha : x.At b _ := at_of_mem_place (l := []) (r := []) (by simp [hb]) hv hp
    rw [← keyBytes_at ha, ← hmax _ hi] at hlt
    exact (hs.maxKey.right ⟨y, hy, rfl⟩).not_gt hlt

end Large

section Small

variable {d : IndirectIndex} {x : IndexBlock} {xs : List IndexBlock}

structure Ordered (x : IndexBlock) : Prop where
  le : ∀ e ∈ x.entries, e.minTime ≤ e.maxTime
  disjoint : x.entries.Pairwise (·.maxTime < ·.minTime)

theorem Ordered.head_le (h : Ordered x) (hf : e₁ ∈ x.entries.head?) (he : e ∈ x.entries) :
    e₁.minTime ≤ e.minTime := by
  have ⟨l, hl⟩ := head?_eq_some_iff.mp hf
  have hp := h.disjoint
  rw [hl] at he hp
  obtain rfl | he := mem_cons.mp he
  · exact le_rfl
  · exact (h.le e₁ <| mem_of_mem_head? hf).trans <| ((pairwise_cons.mp hp).left e he).le

theorem Ordered.le_last (h : Ordered x) (hg : e₂ ∈ x.entries.getLast?) (he : e ∈ x.entries) :
    e.maxTime ≤ e₂.maxTime := by
  have ⟨l, hl⟩ := getLast?_eq_some_iff.mp hg
  have hp := h.disjoint
  rw [hl] at he hp
  obtain he | he := mem_append.mp he
  · exact ((pairwise_append.mp hp).right.right e he e₂ <| mem_singleton_self e₂).le.trans <|
      h.le e₂ <| mem_of_mem_getLast? hg
  · rw [mem_singleton.mp he]

variable (hv : ∀ x ∈ xs, x.Valid ∧ Ordered x)

include hv

theorem Spans.bounds (hsp : ∀ x ∈ xs, d.Spans x) (hx : x ∈ xs) (he : e ∈ x.entries) :
    d.minTime ≤ e.minTime ∧ e.maxTime ≤ d.maxTime := by
  have ⟨hva, ho⟩ := hv x hx
  have hf := head?_eq_some_head hva.ne_nil
  have hg := getLast?_eq_some_getLast hva.ne_nil
  exact ⟨((hsp x hx).minTime _ hf).trans <| ho.head_le hf he,
    (ho.le_last hg he).trans <| (hsp x hx).maxTime _ hg⟩

theorem Tight.summarizes_iff (h : d.Tight xs) (hsp : ∀ x ∈ xs, d.Spans x) :
    d.Summarizes xs ↔ ∃ x ∈ xs, ∃ e ∈ x.entries, 0 ≤ e.maxTime := by
  constructor
  case mp =>
    intro hs
    have ⟨x, hx, e, he, ht⟩ := hs.maxTime.left
    exact ⟨x, hx, e, he, ht ▸ h.nonneg⟩
  case mpr =>
    intro ⟨x, hx, e, he, ht⟩
    refine ⟨⟨h.minKey, ?_⟩, ⟨h.maxKey, ?_⟩, ⟨?_, ?_⟩, ?_, ?_⟩
    · rintro _ ⟨y, hy, rfl⟩; exact (hsp y hy).minKey
    · rintro _ ⟨y, hy, rfl⟩; exact (hsp y hy).maxKey
    · obtain hm | ⟨y, hy, f, hf, hm⟩ := h.minTime
      · exact ⟨x, hx, e, he, le_antisymm (hm ▸ e.minTime.le_maxValue)
          (Spans.bounds hv hsp hx he).left⟩
      · exact ⟨y, hy, f, mem_of_mem_head? hf, hm⟩
    · rintro _ ⟨y, hy, f, hf, rfl⟩; exact (Spans.bounds hv hsp hy hf).left
    · obtain hm | ⟨y, hy, f, hf, hm⟩ := h.maxTime
      · exact ⟨x, hx, e, he, le_antisymm (Spans.bounds hv hsp hx he).right (hm ▸ ht)⟩
      · exact ⟨y, hy, f, mem_of_mem_getLast? hf, hm⟩
    · rintro _ ⟨y, hy, f, hf, rfl⟩; exact (Spans.bounds hv hsp hy hf).right

theorem unmarshalBinary_summarizes_iff (hx : xs ≠ []) (hk : xs.Pairwise (·.key < ·.key)) :
    (∃ d, unmarshalBinary (xs.flatMap (·.encode)) = .ok d ∧ d.Summarizes xs) ↔
      (xs.flatMap (·.encode)).length < 2 ^ 31 ∧ ∃ x ∈ xs, ∃ e ∈ x.entries, 0 ≤ e.maxTime := by
  have hv' x (hx : x ∈ xs) : x.Valid := (hv x hx).left
  by_cases hl : (xs.flatMap (·.encode)).length < 2 ^ 31
  case neg =>
    refine iff_of_false ?_ fun h => hl h.left
    rintro ⟨d, hd, hs⟩
    exact not_summarizes hv' hk (not_lt.mp hl) hd hs
  case pos =>
    have ⟨d, hd, _, _, hsp, ht⟩ := unmarshalBinary_eq hx hl hv' hk
    rw [hd, and_iff_right hl, ← ht.summarizes_iff hv hsp]
    exact ⟨fun ⟨d', he, hs⟩ => (Except.ok.inj he) ▸ hs, fun hs => ⟨d, rfl, hs⟩⟩

omit hv

def fromTime (t : Int64) : IndexBlock :=
  { key := [97], type := 0, entries := [⟨t, t + 2, 5, 9⟩] }

def acrossZero : List IndexBlock :=
  [{ key := [97], type := 0, entries := [⟨-9, -5, 5, 9⟩, ⟨-3, 3, 14, 9⟩] },
   { key := [98], type := 1, entries := [⟨-2, 2, 23, 9⟩] }]

theorem summarizes_acrossZero :
    ∃ d, unmarshalBinary (acrossZero.flatMap (·.encode)) = .ok d ∧ d.Summarizes acrossZero := by
  refine (unmarshalBinary_summarizes_iff ?_ (cons_ne_nil _ _) (by decide)).mpr (by decide)
  exact forall_mem_cons.mpr ⟨⟨⟨by decide, by decide, cons_ne_nil _ _⟩, by decide, by decide⟩,
    forall_mem_singleton.mpr ⟨⟨by decide, by decide, cons_ne_nil _ _⟩, by decide, by decide⟩⟩

theorem not_summarizes_fromTime_neg : ∃ d,
    unmarshalBinary ([fromTime (-5)].flatMap (·.encode)) = .ok d ∧ d.maxTime = 0 ∧
      ¬d.Summarizes [fromTime (-5)] := by
  have h : (·.maxTime) <$> unmarshalBinary ([fromTime (-5)].flatMap (·.encode)) = .ok 0 := by
    decide +kernel
  have ⟨d, hd, ht⟩ := map_eq_ok.mp h
  refine ⟨d, hd, ht, fun hs => ?_⟩
  have hn : ¬∃ x ∈ [fromTime (-5)], ∃ e ∈ x.entries, e.maxTime = 0 := by decide
  exact hn (ht ▸ hs.maxTime.left)

end Small

end IndirectIndex

end Tsm1
