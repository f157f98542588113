import Myts.Tsm1.Reader

open List

namespace Tsm1

open Bytes Go

section Entries

@[simp]
theorem IndexEntry.length_encode (e : IndexEntry) : e.encode.length = 28 :=
  rfl

theorem length_flatMap_encode {entries : List IndexEntry} :
    (entries.flatMap (·.encode)).length = entries.length * 28 := by
  induction entries
  case nil => rfl
  case cons e l hi => rw [flatMap_cons, length_append, hi, e.length_encode]; simp; omega

theorem IndexEntry.unmarshalBinary_encode (e : IndexEntry) (rest : Bytes) :
    unmarshalBinary (e.encode ++ rest) = .ok e := by
  have hb : e.encode ++ rest = putInt64 e.minTime ++ (putInt64 e.maxTime ++
      (putInt64 e.offset ++ (putUint32 e.size.toNat ++ rest))) := by
    simp only [encode, append_assoc]
  generalize e.encode ++ rest = b at hb
  have hl : indexEntrySize ≤ b.length := by simp [hb, indexEntrySize]; omega
  have h₁ : sliceAt b 0 8 = .ok (putInt64 e.minTime) := sliceAt_eq (x := []) hb rfl rfl
  have h₂ : sliceAt b 8 16 = .ok (putInt64 e.maxTime) := sliceAt_eq hb rfl rfl
  rw [← append_assoc] at hb
  have h₃ : sliceAt b 16 24 = .ok (putInt64 e.offset) := sliceAt_eq hb rfl rfl
  rw [← append_assoc] at hb
  have h₄ : sliceAt b 24 28 = .ok (putUint32 e.size.toNat) := sliceAt_eq hb rfl rfl
  have hs : UInt32.ofNat (uint32 (putUint32 e.size.toNat)) = e.size := by
    rw [uint32_putUint32, Nat.mod_eq_of_lt e.size.toNat_lt, UInt32.ofNat_toNat]
  rw [unmarshalBinary, require, if_pos hl, h₁, h₂, h₃, h₄]
  simp only [ok_bind, int64_putInt64, hs]
  rfl

theorem unmarshalError_ok : unmarshalError (.ok a : Go α) = .ok a :=
  rfl

theorem readIndexEntries_encode (entries : List IndexEntry) (rest : Bytes) :
    readIndexEntries entries.length (entries.flatMap (·.encode) ++ rest) = .ok entries := by
  induction entries
  case nil => rfl
  case cons e entries hi =>
    have hf : sliceFrom (e.encode ++ (entries.flatMap (·.encode) ++ rest)) indexEntrySize =
        .ok (entries.flatMap (·.encode) ++ rest) := sliceFrom_eq rfl rfl
    rw [length_cons, readIndexEntries, flatMap_cons, append_assoc,
      e.unmarshalBinary_encode, unmarshalError_ok, ok_bind, hf, ok_bind, hi]
    rfl

theorem readKey_encode {key : Bytes} (h : key.length < 2 ^ 16) :
    readKey (putUint16 key.length ++ (key ++ rest)) = .ok (2 + key.length, key) := by
  have h₁ : sliceAt (putUint16 key.length ++ (key ++ rest)) 0 2 = .ok (putUint16 key.length) :=
    sliceAt_eq (x := []) rfl rfl rfl
  have h₂ : sliceAt (putUint16 key.length ++ (key ++ rest)) 2 (2 + key.length) = .ok key :=
    sliceAt_eq rfl rfl rfl
  rw [readKey, h₁, ok_bind, uint16_putUint16, Nat.mod_eq_of_lt h]
  dsimp only
  rw [h₂]
  rfl

theorem readEntries_encode {entries : List IndexEntry} (h : entries.length < 2 ^ 16) :
    readEntries (type :: (putUint16 entries.length ++ (entries.flatMap (·.encode) ++ rest))) =
      .ok { type, entries } := by
  generalize hb : type :: (putUint16 entries.length ++ (entries.flatMap (·.encode) ++ rest)) = b
  have hl : 3 ≤ b.length := by simp [← hb]
  have h₀ : byteAt b 0 = .ok type := byteAt_eq (x := []) hb.symm rfl
  have h₁ : sliceAt b 1 3 = .ok (putUint16 entries.length) :=
    sliceAt_eq (x := [type]) hb.symm rfl rfl
  have h₂ : sliceFrom b 3 = .ok (entries.flatMap (·.encode) ++ rest) :=
    sliceFrom_eq (x := type :: putUint16 entries.length) hb.symm rfl
  rw [readEntries, require, if_pos hl, h₀, h₁, h₂]
  simp only [ok_bind, uint16_putUint16, Nat.mod_eq_of_lt h, readIndexEntries_encode]
  rfl

end Entries

structure IndexBlock.Valid (x : IndexBlock) : Prop where
  key : x.key.length < 2 ^ 16
  entries : x.entries.length < 2 ^ 16
  ne_nil : x.entries ≠ []

structure IndexBlock.At (b : Bytes) (ofs : Nat) (x : IndexBlock) : Prop where
  bytes : ∃ pre rest, b = pre ++ (x.encode ++ rest) ∧ pre.length = ofs
  key : x.key.length < 2 ^ 16
  entries : x.entries.length < 2 ^ 16

namespace IndexBlock

theorem length_encode (x : IndexBlock) :
    x.encode.length = 5 + x.key.length + x.entries.length * 28 := by
  simp only [encode, length_append, length_putUint16, length_singleton,
    length_flatMap_encode]
  omega

namespace At

variable {x : IndexBlock} (h : x.At b ofs)

include h

theorem le_length : ofs + x.encode.length ≤ b.length := by
  have ⟨pre, rest, hb, hl⟩ := h.bytes
  simp only [hb, length_append]
  omega

theorem sliceFrom_key : ∃ rest, sliceFrom b ofs = .ok
    (putUint16 x.key.length ++ (x.key ++ rest)) := by
  have ⟨pre, rest, hb, hl⟩ := h.bytes
  rw [sliceFrom_eq hb (by rw [hl])]
  simp [encode]

theorem readKey_eq : (sliceFrom b ofs >>= readKey) = .ok (2 + x.key.length, x.key) := by
  have ⟨rest, hr⟩ := h.sliceFrom_key
  rw [hr, ok_bind, readKey_encode h.key]

theorem exists_entries : ∃ pre rest, (pre.length : Int) = ofs + (2 + x.key.length : Nat) ∧
    b = pre ++ x.type :: (putUint16 x.entries.length ++
      (x.entries.flatMap (·.encode) ++ rest)) := by
  have ⟨pre, rest, hb, hl⟩ := h.bytes
  refine ⟨pre ++ (putUint16 x.key.length ++ x.key), rest, ?_, by simp [hb, encode]⟩
  simp only [length_append, length_putUint16, hl]
  omega

theorem byteAt_type : byteAt b (ofs + (2 + x.key.length : Nat)) = .ok x.type := by
  have ⟨pre, rest, hl, hb⟩ := h.exists_entries
  exact byteAt_eq hb hl.symm

theorem readEntries_eq : ∃ b', sliceFrom b (ofs + (2 + x.key.length : Nat)) = .ok b' ∧
    readEntries b' = .ok { type := x.type, entries := x.entries } := by
  have ⟨pre, rest, hl, hb⟩ := h.exists_entries
  exact ⟨_, sliceFrom_eq hb hl.symm, readEntries_encode h.entries⟩

end At

end IndexBlock

namespace IndirectIndex

variable {d : IndirectIndex} {fs : FixedSearch}

structure Represents (d : IndirectIndex) (ps : List (Nat × IndexBlock)) : Prop where
  offsets : d.offsets = ps.flatMap fun p => putUint32 p.1
  blocks : ∀ p ∈ ps, p.2.At d.b p.1
  sorted : ps.Pairwise (·.2.key < ·.2.key)
  small : d.b.length < 2 ^ 31

theorem searchFn_eq {x : IndexBlock} (h : x.At d.b ofs) (hs : d.b.length < 2 ^ 31) :
    d.searchFn k (putUint32 ofs) = .ok (decide (k ≤ x.key)) := by
  have hl := h.le_length
  rw [x.length_encode] at hl
  have ⟨pre, rest, hb, hp⟩ := h.bytes
  have hb : d.b = pre ++ (putUint16 x.key.length ++ (x.key ++ (x.type ::
      (putUint16 x.entries.length ++ (x.entries.flatMap (·.encode) ++ rest))))) := by
    simp [hb, IndexBlock.encode]
  have ho : int32 (uint32 (putUint32 ofs)) = ofs := by
    rw [uint32_putUint32, Nat.mod_eq_of_lt (by omega), int32_eq (by omega) (by omega)]
  have h₂ : int32 ((ofs : Int) + 2) = ofs + 2 := int32_eq (by omega) (by omega)
  have hk : int32 (x.key.length : Nat) = x.key.length := int32_eq (by omega) (by omega)
  have h₃ : int32 ((ofs : Int) + 2 + x.key.length) = ofs + 2 + x.key.length :=
    int32_eq (by omega) (by omega)
  have hs₁ : sliceAt d.b ofs (ofs + 2) = .ok (putUint16 x.key.length) := by
    exact sliceAt_eq hb (by rw [hp]) rfl
  have hs₂ : sliceAt d.b (ofs + 2) (ofs + 2 + x.key.length) = .ok x.key := by
    rw [← append_assoc] at hb
    exact sliceAt_eq hb (by simp [hp]) rfl
  rw [searchFn]
  dsimp only
  rw [ho, h₂, hs₁, ok_bind, uint16_putUint16, Nat.mod_eq_of_lt h.key, hk, h₃, hs₂]
  rfl

namespace Represents

variable {ps : List (Nat × IndexBlock)} {x : IndexBlock} (h : d.Represents ps)

include h

theorem length_offsets : d.offsets.length = ps.length * 4 := by
  rw [h.offsets, length_flatMap]
  simp

theorem keyCount_eq : d.keyCount = ps.length := by
  rw [keyCount, h.length_offsets]
  simp

theorem uint32_offset (hp : p ∈ ps) : uint32 (putUint32 p.1) = p.1 := by
  have := (h.blocks p hp).le_length
  have := h.small
  rw [uint32_putUint32, Nat.mod_eq_of_lt (by omega)]

theorem sliceAt_offsets {i : Nat} (hi : ps[i]? = some p) :
    sliceAt d.offsets (i * 4) (i * 4 + 4) = .ok (putUint32 p.1) := by
  have ⟨hlt, ho⟩ := List.getElem?_eq_some_iff.mp hi
  have hs : ps = ps.take i ++ p :: ps.drop (i + 1) := by
    rw [← ho, getElem_cons_drop, take_append_drop]
  have hd := h.offsets
  rw [hs, flatMap_append, flatMap_cons] at hd
  refine sliceAt_eq hd ?_ rfl
  rw [length_flatMap]
  simp
  omega

theorem sorted_getElem? {i j : Nat} (hi : ps[i]? = some p) (hj : ps[j]? = some q) (hij : i < j) :
    p.2.key < q.2.key := by
  have ⟨hi, hp⟩ := List.getElem?_eq_some_iff.mp hi
  have ⟨hj, hq⟩ := List.getElem?_eq_some_iff.mp hj
  rw [← hp, ← hq]
  exact pairwise_iff_getElem.mp h.sorted i j hi hj hij

theorem exists_search (fs : FixedSearch) (k : Bytes) : ∃ i ≤ ps.length,
    fs.search d.offsets 4 (d.searchFn k) = .ok (i * 4) ∧
      ∀ j p, ps[j]? = some p → p.2.key = k → i = j := by
  let f (x : Bytes) : Bool := (d.searchFn k x).toOption.getD false
  have hf p (hp : p ∈ ps) : d.searchFn k (putUint32 p.1) = .ok (decide (k ≤ p.2.key)) :=
    searchFn_eq (h.blocks p hp) h.small
  have hd p (hp : p ∈ ps) : f (putUint32 p.1) = decide (k ≤ p.2.key) := by
    simp only [f, hf p hp]
    rfl
  have ⟨i, hi, hs, hk⟩ := fs.correct (ps.map fun p => putUint32 p.1) 4 (d.searchFn k) f (by decide)
    (forall_mem_map.mpr fun p hp => ⟨rfl, by rw [hd p hp, hf p hp]⟩)
    (pairwise_map.mpr <| h.sorted.imp_of_mem fun {p q} hp hq hlt => by
      rw [hd p hp, hd q hq]
      simpa using fun hle => hle.trans hlt.le)
  rw [length_map] at hi
  refine ⟨i, hi, ?_, ?_⟩
  · rw [← hs, h.offsets, flatMap_def]
  · intro j p hj hp
    have ⟨hlt, hpj⟩ := List.getElem?_eq_some_iff.mp hj
    apply hk
    rw [findIdx?_eq_some_iff_getElem]
    refine ⟨by rwa [length_map], ?_, ?_⟩
    · rw [getElem_map, hpj, hd p (mem_of_getElem? hj), hp]
      simp
    · intro i hij
      have hi : ps[i]? = some (ps[i]) := getElem?_eq_getElem (hij.trans hlt)
      rw [getElem_map, hd _ (mem_of_getElem? hi)]
      simpa [hp] using h.sorted_getElem? hi hj hij

theorem search_of_mem (fs : FixedSearch) (hp : (o, x) ∈ ps) : d.search fs x.key = .ok o := by
  have ⟨j, hj⟩ := List.getElem?_of_mem hp
  have ⟨i, _, hs, hk⟩ := h.exists_search fs x.key
  have hlt : i * 4 < d.offsets.length := by
    have ⟨hlt, _⟩ := List.getElem?_eq_some_iff.mp hj
    rw [h.length_offsets, hk j _ hj rfl]
    omega
  have ho := h.sliceAt_offsets hj
  rw [← hk j _ hj rfl] at ho
  have hr := (h.blocks _ hp).readKey_eq
  rw [search, hs, ok_bind, if_pos hlt]
  simp only [Nat.cast_mul, Nat.cast_ofNat, ho, ok_bind, h.uint32_offset hp]
  rw [← bind_assoc, hr, ok_bind, if_pos rfl]
  rfl

theorem search_of_forall_ne (hn : ∀ p ∈ ps, p.2.key ≠ k) : d.search fs k = .ok d.b.length := by
  have ⟨i, _, hs, _⟩ := h.exists_search fs k
  rw [search, hs, ok_bind]
  split
  case isFalse => rfl
  case isTrue hlt =>
    rw [h.length_offsets] at hlt
    have hi : ps[i]? = some ps[i] := getElem?_eq_getElem (by omega)
    have hp := mem_of_getElem? hi
    have hr := (h.blocks _ hp).readKey_eq
    simp only [Nat.cast_mul, Nat.cast_ofNat, h.sliceAt_offsets hi, ok_bind, h.uint32_offset hp]
    rw [← bind_assoc, hr, ok_bind, if_neg (hn _ hp).symm]
    rfl

theorem entries_of_mem (fs : FixedSearch) (hp : (o, x) ∈ ps) :
    d.entries fs x.key = .ok x.entries := by
  have ha := h.blocks _ hp
  have hl := ha.le_length
  have ⟨b', hb, he⟩ := ha.readEntries_eq
  rw [IndexBlock.length_encode] at hl
  rw [entries, h.search_of_mem fs hp, ok_bind, if_pos (by omega), ← bind_assoc, ha.readKey_eq,
    ok_bind]
  simp only [if_true, hb, ok_bind, he]
  rfl

theorem entries_of_forall_ne (hn : ∀ p ∈ ps, p.2.key ≠ k) : d.entries fs k = .ok [] := by
  rw [entries, h.search_of_forall_ne hn, ok_bind, if_neg (lt_irrefl _)]
  rfl

theorem key_eq (i : Nat) : d.key i = .ok (ps[i]?.map (·.2)) := by
  rw [key, h.length_offsets]
  split
  case isTrue hlt => rw [getElem?_eq_none (by omega)]; rfl
  case isFalse hlt =>
    have hi : ps[i]? = some ps[i] := getElem?_eq_getElem (by omega)
    have hp := mem_of_getElem? hi
    have ha := h.blocks _ hp
    have ⟨b', hb, he⟩ := ha.readEntries_eq
    rw [h.sliceAt_offsets hi, ok_bind, h.uint32_offset hp]
    dsimp only
    rw [← bind_assoc, ha.readKey_eq, ok_bind]
    simp only [ha.byteAt_type, ok_bind, hb, he, hi]
    rfl

theorem keyAt_eq (i : Nat) : d.keyAt i = .ok (ps[i]?.map fun p => (p.2.key, p.2.type)) := by
  rw [keyAt, h.length_offsets]
  split
  case isTrue hlt => rw [getElem?_eq_none (by omega)]; rfl
  case isFalse hlt =>
    have hi : ps[i]? = some ps[i] := getElem?_eq_getElem (by omega)
    have hp := mem_of_getElem? hi
    have ha := h.blocks _ hp
    have hl := ha.le_length
    have hs := h.small
    rw [IndexBlock.length_encode] at hl
    rw [h.sliceAt_offsets hi, ok_bind, h.uint32_offset hp]
    dsimp only
    rw [int32_eq (by omega) (by omega), ← bind_assoc, ha.readKey_eq, ok_bind]
    dsimp only
    rw [int32_eq (by omega) (by omega), ha.byteAt_type, ok_bind, hi]
    rfl

end Represents

section Unmarshal

variable {x y : IndexBlock} {xs : List IndexBlock}

def place (n : Nat) : List IndexBlock → List (Nat × IndexBlock)
  | [] => []
  | x :: xs => (n, x) :: place (n + x.encode.length) xs

theorem exists_min_max {entries : List IndexEntry} (hf : entries.head? = some e₁)
    (hl : entries.getLast? = some e₂) (rest : Bytes) :
    (∃ r, entries.flatMap (·.encode) ++ rest = putInt64 e₁.minTime ++ r) ∧
      ∃ p r, entries.flatMap (·.encode) ++ rest = p ++ (putInt64 e₂.maxTime ++ r) ∧
        (p.length : Int) = (entries.length - 1) * 28 + 8 := by
  constructor
  case left =>
    have ⟨l, h⟩ := head?_eq_some_iff.mp hf
    simp [h, IndexEntry.encode]
  case right =>
    have ⟨l, h⟩ := getLast?_eq_some_iff.mp hl
    refine ⟨l.flatMap (·.encode) ++ putInt64 e₂.minTime,
      putInt64 e₂.offset ++ putUint32 e₂.size.toNat ++ rest, by simp [h, IndexEntry.encode], ?_⟩
    simp only [length_append, length_flatMap_encode, length_putInt64, h, length_singleton]
    omega

theorem scanKey_eq {b : Bytes} {x : IndexBlock} {s : Scan} (h : x.At b n) (hs : b.length < 2 ^ 31)
    (hi : s.i = n) (hf : x.entries.head? = some e₁) (hl : x.entries.getLast? = some e₂) :
    scanKey b s = .ok {
      i := n + x.encode.length,
      offsets := s.offsets ++ [s.i],
      minTime := if e₁.minTime < s.minTime then e₁.minTime else s.minTime,
      maxTime := if s.maxTime < e₂.maxTime then e₂.maxTime else s.maxTime } := by
  have hlen := h.le_length
  rw [x.length_encode] at hlen ⊢
  have hpos : 0 < x.entries.length := length_pos_iff.mpr fun hn => by simp [hn] at hf
  have ⟨pre, rest, hb, hp⟩ := h.bytes
  have ⟨⟨r₁, hr₁⟩, p₂, r₂, hr₂, hp₂⟩ := exists_min_max hf hl rest
  have hb : b = pre ++ (putUint16 x.key.length ++ (x.key ++ ([x.type] ++
      (putUint16 x.entries.length ++ (x.entries.flatMap (·.encode) ++ rest))))) := by
    simp [hb, IndexBlock.encode]
  have hs₁ : sliceAt b n (n + 2) = .ok (putUint16 x.key.length) := sliceAt_eq hb (by rw [hp]) rfl
  have hs₂ : sliceAt b (n + 3 + x.key.length) (n + 3 + x.key.length + 2) =
      .ok (putUint16 x.entries.length) := by
    simp only [← append_assoc _ _ (putUint16 _ ++ _)] at hb
    exact sliceAt_eq hb (by simp [hp]; omega) rfl
  have hs₃ : sliceAt b (n + 3 + x.key.length + 2) (n + 3 + x.key.length + 2 + 8) =
      .ok (putInt64 e₁.minTime) := by
    simp only [hr₁, ← append_assoc _ _ (putInt64 _ ++ _)] at hb
    exact sliceAt_eq hb (by simp [hp]; omega) rfl
  have hs₄ : sliceAt b (n + 3 + x.key.length + 2 + (x.entries.length - 1) * 28 + 8)
      (n + 3 + x.key.length + 2 + (x.entries.length - 1) * 28 + 16) =
        .ok (putInt64 e₂.maxTime) := by
    simp only [hr₂, ← append_assoc _ _ (putInt64 _ ++ _)] at hb
    exact sliceAt_eq hb (by simp [hp]; omega) (by simp; omega)
  have hi₃ : int32 (n + 3 + x.key.length + 2 + (x.entries.length - 1) * indexEntrySize) =
      n + 3 + x.key.length + 2 + (x.entries.length - 1) * 28 :=
    int32_eq (by simp [indexEntrySize]; omega) (by simp [indexEntrySize]; omega)
  have hi₄ : int32 (n + 3 + x.key.length + 2 + (x.entries.length - 1) * 28 + indexEntrySize) =
      n + (5 + x.key.length + x.entries.length * 28 : Nat) := by
    rw [int32_eq (by simp [indexEntrySize]; omega) (by simp [indexEntrySize]; omega)]
    simp [indexEntrySize]
    omega
  have hk : uint16 (putUint16 x.key.length) = x.key.length := by
    rw [uint16_putUint16, Nat.mod_eq_of_lt h.key]
  have hn : uint16 (putUint16 x.entries.length) = x.entries.length := by
    rw [uint16_putUint16, Nat.mod_eq_of_lt h.entries]
  rw [scanKey, hi]
  simp (disch := omega) only [int32_eq, require_pos, hs₁, ok_bind, hk, hs₂, hn, hs₃, hi₃, hs₄,
    int64_putInt64, hi₄]
  rfl

theorem at_of_mem_place {b : Bytes} (hb : b = l ++ (xs.flatMap (·.encode) ++ r))
    (hv : ∀ x ∈ xs, x.Valid) (hp : p ∈ place l.length xs) : p.2.At b p.1 := by
  induction xs generalizing l
  case nil => nomatch hp
  case cons x xs hi =>
    rw [flatMap_cons, append_assoc] at hb
    have hx := hv x mem_cons_self
    rcases mem_cons.mp hp with rfl | hp
    · exact ⟨⟨l, _, hb, rfl⟩, hx.key, hx.entries⟩
    · rw [← append_assoc] at hb
      rw [← length_append] at hp
      exact hi hb (fun x hx => hv x <| mem_cons_of_mem _ hx) hp

structure Scan.Spans (s : Scan) (x : IndexBlock) : Prop where
  min : ∀ e ∈ x.entries.head?, s.minTime ≤ e.minTime
  max : ∀ e ∈ x.entries.getLast?, e.maxTime ≤ s.maxTime

theorem Scan.Spans.mono {s s' : Scan} (h : s.Spans x) (hmin : s'.minTime ≤ s.minTime)
    (hmax : s.maxTime ≤ s'.maxTime) : s'.Spans x where
  min e he := hmin.trans (h.min e he)
  max e he := (h.max e he).trans hmax

structure Scan.Over (s : Scan) (xs : List IndexBlock) (s' : Scan) : Prop where
  spans : ∀ x ∈ xs, s'.Spans x
  min_le : s'.minTime ≤ s.minTime
  le_max : s.maxTime ≤ s'.maxTime
  min : s'.minTime = s.minTime ∨ ∃ x ∈ xs, ∃ e ∈ x.entries.head?, e.minTime = s'.minTime
  max : s'.maxTime = s.maxTime ∨ ∃ x ∈ xs, ∃ e ∈ x.entries.getLast?, e.maxTime = s'.maxTime

theorem Scan.Over.nil (s : Scan) : s.Over [] s :=
  ⟨nofun, le_rfl, le_rfl, .inl rfl, .inl rfl⟩

theorem Scan.Over.cons {s s₁ s' : Scan} (h₁ : s.Over [x] s₁) (h : s₁.Over xs s') :
    s.Over (x :: xs) s' where
  spans := forall_mem_cons.mpr
    ⟨(h₁.spans x <| mem_singleton_self x).mono h.min_le h.le_max, h.spans⟩
  min_le := h.min_le.trans h₁.min_le
  le_max := h₁.le_max.trans h.le_max
  min := by
    obtain he | ⟨y, hy, he⟩ := h.min
    · exact he ▸ h₁.min.imp_right (.imp fun _ h => h.imp_left (mem_append_left xs))
    · exact .inr ⟨y, mem_cons_of_mem _ hy, he⟩
  max := by
    obtain he | ⟨y, hy, he⟩ := h.max
    · exact he ▸ h₁.max.imp_right (.imp fun _ h => h.imp_left (mem_append_left xs))
    · exact .inr ⟨y, mem_cons_of_mem _ hy, he⟩

theorem Scan.Over.single {s s' : Scan} (hf : x.entries.head? = some e₁)
    (hl : x.entries.getLast? = some e₂)
    (hmin : s'.minTime = if e₁.minTime < s.minTime then e₁.minTime else s.minTime)
    (hmax : s'.maxTime = if s.maxTime < e₂.maxTime then e₂.maxTime else s.maxTime) :
    s.Over [x] s' where
  spans := by
    refine forall_mem_singleton.mpr ⟨?_, ?_⟩
    · rw [hf, hmin]; split <;> simp_all
    · rw [hl, hmax]; split <;> simp_all
  min_le := by rw [hmin]; split <;> simp_all [le_of_lt]
  le_max := by rw [hmax]; split <;> simp_all [le_of_lt]
  min := by rw [hmin]; split <;> simp [hf]
  max := by rw [hmax]; split <;> simp [hl]

theorem scan_eq {b : Bytes} {s : Scan} (hb : b = l ++ xs.flatMap (·.encode))
    (hs : b.length < 2 ^ 31) (hv : ∀ x ∈ xs, x.Valid) (hi : s.i = l.length)
    (hf : xs.length ≤ fuel) :
    ∃ s', scan b fuel s = .ok s' ∧ s.Over xs s' ∧
      s'.offsets = s.offsets ++ (place l.length xs).map (fun p => (p.1 : Int)) := by
  induction xs generalizing l s fuel
  case nil =>
    refine ⟨s, ?_, .nil s, by simp [place]⟩
    cases fuel
    case zero => rfl
    case succ fuel =>
      rw [scan, int32_eq (by omega) (by omega), if_neg (by simp [hi, hb])]
  case cons x xs hi' =>
    cases fuel
    case zero => nomatch hf
    case succ fuel =>
      have hx := hv x mem_cons_self
      rw [flatMap_cons] at hb
      have ha : x.At b l.length := ⟨⟨l, _, hb, rfl⟩, hx.key, hx.entries⟩
      have hl := ha.le_length
      have hlen := x.length_encode
      have he₁ := head?_eq_some_head hx.ne_nil
      have he₂ := getLast?_eq_some_getLast hx.ne_nil
      have hk := scanKey_eq ha hs hi he₁ he₂
      rw [← append_assoc] at hb
      generalize hs₁ : Scan.mk _ _ _ _ = s₁ at hk
      have hv x (hx : x ∈ xs) : x.Valid := hv x <| mem_cons_of_mem _ hx
      have ⟨s', hs', hsp, ho⟩ := hi' (s := s₁) hb hv
        (by rw [← hs₁, length_append]; rfl) (Nat.le_of_succ_le_succ hf)
      refine ⟨s', ?_, .cons (.single he₁ he₂ (by rw [← hs₁]) (by rw [← hs₁])) hsp, ?_⟩
      · rw [scan, int32_eq (by omega) (by omega), if_pos (by omega), hk, ok_bind, hs']
      · rw [ho, ← hs₁, length_append, place, map_cons, append_assoc, hi,
          singleton_append]

theorem map_snd_place (n : Nat) (xs : List IndexBlock) : (place n xs).map (·.2) = xs := by
  induction xs generalizing n
  case nil => rfl
  case cons x xs hi => rw [place, map_cons, hi]

theorem pairwise_place (h : xs.Pairwise (·.key < ·.key)) :
    (place n xs).Pairwise (·.2.key < ·.2.key) := by
  rw [← map_snd_place n xs, pairwise_map] at h
  exact h

structure Spans (d : IndirectIndex) (x : IndexBlock) : Prop where
  minKey : d.minKey ≤ x.key
  maxKey : x.key ≤ d.maxKey
  minTime : ∀ e ∈ x.entries.head?, d.minTime ≤ e.minTime
  maxTime : ∀ e ∈ x.entries.getLast?, e.maxTime ≤ d.maxTime

structure Tight (d : IndirectIndex) (xs : List IndexBlock) : Prop where
  minKey : ∃ x ∈ xs, x.key = d.minKey
  maxKey : ∃ x ∈ xs, x.key = d.maxKey
  minTime : d.minTime = Int64.maxValue ∨ ∃ x ∈ xs, ∃ e ∈ x.entries.head?, e.minTime = d.minTime
  maxTime : d.maxTime = 0 ∨ ∃ x ∈ xs, ∃ e ∈ x.entries.getLast?, e.maxTime = d.maxTime
  nonneg : 0 ≤ d.maxTime

theorem head_key_le (h : xs.Pairwise (·.key < ·.key)) (hx : xs.head? = some x) (hy : y ∈ xs) :
    x.key ≤ y.key := by
  have ⟨l, hl⟩ := head?_eq_some_iff.mp hx
  subst hl
  rcases mem_cons.mp hy with rfl | hy
  · exact le_rfl
  · exact ((pairwise_cons.mp h).1 y hy).le

theorem key_le_getLast (h : xs.Pairwise (·.key < ·.key)) (hx : xs.getLast? = some x)
    (hy : y ∈ xs) : y.key ≤ x.key := by
  have ⟨l, hl⟩ := getLast?_eq_some_iff.mp hx
  subst hl
  rcases mem_append.mp hy with hy | hy
  · exact ((pairwise_append.mp h).2.2 y hy x (mem_singleton_self x)).le
  · rw [mem_singleton.mp hy]

theorem length_le_flatMap : xs.length ≤ (xs.flatMap (·.encode)).length := by
  induction xs
  case nil => exact le_rfl
  case cons x xs hi =>
    rw [flatMap_cons, length_append, length_cons, x.length_encode]
    omega

theorem mem_place (hx : x ∈ xs) : ∃ o, (o, x) ∈ place n xs := by
  rw [← map_snd_place n xs] at hx
  have ⟨p, hp, he⟩ := mem_map.mp hx
  exact ⟨p.1, he ▸ hp⟩

theorem unmarshalBinary_eq (hx : xs ≠ []) (hs : (xs.flatMap (·.encode)).length < 2 ^ 31)
    (hv : ∀ x ∈ xs, x.Valid) (hk : xs.Pairwise (·.key < ·.key)) :
    ∃ d, unmarshalBinary (xs.flatMap (·.encode)) = .ok d ∧ d.Represents (place 0 xs) ∧
      d.tombstones = ∅ ∧ (∀ x ∈ xs, d.Spans x) ∧ d.Tight xs := by
  have hl : xs.length ≤ (xs.flatMap (·.encode)).length := length_le_flatMap
  generalize hb : xs.flatMap (·.encode) = b at hs hl
  have hne : b ≠ [] := fun h => by
    rw [h] at hl
    exact hx <| length_eq_zero_iff.mp <| Nat.le_zero.mp hl
  have ⟨s, hsc, hsp, ho⟩ :=
    scan_eq (l := []) (s := ⟨0, [], Int64.maxValue, 0⟩) hb.symm hs hv rfl hl
  have ha p (hp : p ∈ place 0 xs) : p.2.At b p.1 :=
    at_of_mem_place (l := []) (r := []) (by simp [hb]) hv hp
  rw [nil_append, length_nil] at ho
  have hlt p (hp : p ∈ place 0 xs) : ((p.1 : Int) % 2 ^ 32).toNat = p.1 := by
    have := (ha p hp).le_length
    omega
  have hne' : place 0 xs ≠ [] := fun h => hx <| by rw [← map_snd_place 0 xs, h]; rfl
  have ⟨p₁, hf⟩ : ∃ p, (place 0 xs).head? = some p := ⟨_, head?_eq_some_head hne'⟩
  have ⟨p₂, hg⟩ : ∃ p, (place 0 xs).getLast? = some p := ⟨_, getLast?_eq_some_getLast hne'⟩
  have hr₁ := (ha _ <| mem_of_mem_head? hf).readKey_eq
  have hr₂ := (ha _ <| mem_of_mem_getLast? hg).readKey_eq
  rw [unmarshalBinary, if_neg hne, hsc, ok_bind, ho, head?_map, getLast?_map, hf, hg]
  simp only [Option.map_some, deref, ok_bind]
  rw [← bind_assoc, hr₁, ok_bind]
  dsimp only
  rw [← bind_assoc, hr₂, ok_bind]
  have hm₁ : xs.head? = some p₁.2 := by rw [← map_snd_place 0 xs, head?_map, hf]; rfl
  have hm₂ : xs.getLast? = some p₂.2 := by rw [← map_snd_place 0 xs, getLast?_map, hg]; rfl
  refine ⟨_, rfl, ⟨?_, ha, pairwise_place hk, hs⟩, rfl, fun x hx => ?_,
    ⟨p₁.2, mem_of_mem_head? hm₁, rfl⟩, ⟨p₂.2, mem_of_mem_getLast? hm₂, rfl⟩, hsp.min, hsp.max,
    hsp.le_max⟩
  · dsimp only
    rw [flatMap_map, flatMap_def, flatMap_def]
    exact congrArg _ <| map_congr_left fun p hp => by rw [hlt p hp]
  · have hs := hsp.spans x hx
    exact ⟨head_key_le hk hm₁ hx, key_le_getLast hk hm₂ hx, hs.min, hs.max⟩

end Unmarshal

end IndirectIndex

end Tsm1
