import Myts.Tsm1.Writer

open List

namespace Tsm1

open Bytes Go

section BlockOf

variable {ps : List Placed} {p : Placed}

theorem blockOf_append_of_ne (h : p.key ≠ k) : blockOf (ps ++ [p]) k = blockOf ps k := by
  simp [blockOf, find?_append, filter_append, h]

theorem blockOf_append_of_mem (h : ∃ q ∈ ps, q.key = p.key) :
    blockOf (ps ++ [p]) p.key =
      { blockOf ps p.key with entries := (blockOf ps p.key).entries ++ [p.entry] } := by
  have hs : (ps.find? (·.key = p.key)).isSome := by simpa using h
  have ⟨q, hq⟩ := Option.isSome_iff_exists.mp hs
  simp [blockOf, find?_append, filter_append, hq]

theorem blockOf_append_of_not_mem (ps : List Placed) (p : Placed) (h : ∀ q ∈ ps, q.key ≠ p.key) :
    blockOf (ps ++ [p]) p.key = { key := p.key, type := p.type, entries := [p.entry] } := by
  have hn : ps.find? (·.key = p.key) = none := by simpa using h
  have hf : ps.filter (·.key = p.key) = [] := by simpa using h
  simp [blockOf, find?_append, filter_append, hn, hf]

theorem flatMap_blockOf_append {keys : List Bytes} (hp : ∀ x ∈ keys, p.key ≠ x) :
    (keys.flatMap fun x => (blockOf (ps ++ [p]) x).encode) =
      keys.flatMap fun x => (blockOf ps x).encode := by
  rw [flatMap_def, flatMap_def]
  exact congrArg _ <| map_congr_left fun x hx => by rw [blockOf_append_of_ne (hp x hx)]

def InOrder (ps : List Placed) : Prop :=
  ps.Pairwise fun p q => p.key = q.key → p.entry.minTime ≤ q.entry.minTime

theorem insertionSort_entries (h : InOrder ps) :
    (blockOf ps k).entries.insertionSort (·.minTime ≤ ·.minTime) = (blockOf ps k).entries := by
  apply List.Pairwise.insertionSort_eq
  rw [blockOf, pairwise_map]
  refine (h.sublist filter_sublist).imp_of_mem fun hp hq hle => hle ?_
  have hp := of_mem_filter hp
  have hq := of_mem_filter hq
  simp_all

end BlockOf

namespace DirectIndex

variable {d : DirectIndex} {ps : List Placed} {p : Placed}

structure Indexes (d : DirectIndex) (ps : List Placed) (keys : List Bytes) (k : Bytes) : Prop where
  sorted : (keys ++ [k]).Pairwise (· < ·)
  mem : ∀ x, x ∈ keys ++ [k] ↔ ∃ p ∈ ps, p.key = x
  buf : d.buf = keys.flatMap fun x => (blockOf ps x).encode
  key : d.key = k
  entries : d.indexEntries = { type := (blockOf ps k).type, entries := (blockOf ps k).entries }
  count : d.keyCount = keys.length + 1
  fits : ∀ x ∈ keys, (blockOf ps x).entries.length ≤ maxIndexEntries
  ne_nil : k ≠ []

structure Stuck (d : DirectIndex) : Prop where
  key : d.key ≠ []
  entries : maxIndexEntries < d.indexEntries.entries.length

def Inv (d : DirectIndex) (ps : List Placed) : Prop :=
  (ps = [] ∧ d = new) ∨ (∃ keys k, d.Indexes ps keys k) ∨ d.Stuck

namespace Stuck

theorem flush_eq (h : d.Stuck) : ∃ err, d.flush = (d, some err) := by
  simp only [flush, if_neg h.key, if_pos h.entries]
  exact ⟨_, rfl⟩

theorem start (h : d.Stuck) (hk : k ≠ []) : (d.start k type e).Stuck where
  key := hk
  entries := by
    have := h.entries
    simp only [DirectIndex.start, length_append]
    omega

theorem add (h : d.Stuck) (hk : k ≠ []) (ha : d.add k type e = .ok d') : d'.Stuck := by
  have ⟨err, hf⟩ := h.flush_eq
  rw [DirectIndex.add, if_neg h.key, hf] at ha
  split_ifs at ha
  · cases ha
    refine ⟨h.key, ?_⟩
    have := h.entries
    simp only [length_append]
    omega
  · cases ha
    exact h.start hk
  · nomatch ha

theorem not_bytes (h : d.Stuck) : d.bytes ≠ .ok b := by
  have ⟨err, hf⟩ := h.flush_eq
  simp [bytes, hf, fail]

end Stuck

namespace Indexes

variable {keys : List Bytes} (h : d.Indexes ps keys k)

include h

theorem flush_eq (ho : InOrder ps) (hl : (blockOf ps k).entries.length ≤ maxIndexEntries) :
    d.flush = ({ d with
      buf := (keys ++ [k]).flatMap fun x => (blockOf ps x).encode,
      key := [],
      indexEntries := { type := 0, entries := [] } }, none) := by
  simp only [flush, h.entries, h.key, if_neg h.ne_nil, if_neg hl.not_gt, insertionSort_entries ho,
    h.buf, flatMap_append, flatMap_singleton]
  rfl

theorem exists_mem : ∃ p ∈ ps, p.key = k :=
  (h.mem k).mp <| by simp

theorem ne_of_mem (hx : x ∈ keys) : k ≠ x :=
  ((pairwise_append.mp h.sorted).2.2 x hx k (mem_singleton_self k)).ne'

theorem same (hp : p.key = k) :
    Indexes { d with indexEntries := { d.indexEntries with
      entries := d.indexEntries.entries ++ [p.entry] } } (ps ++ [p]) keys k := by
  have hne x (hx : x ∈ keys) : p.key ≠ x := hp ▸ h.ne_of_mem hx
  have hb := blockOf_append_of_mem (p := p) (hp ▸ h.exists_mem)
  rw [hp] at hb
  exact {
    sorted := h.sorted
    mem := by
      intro x
      rw [h.mem]
      constructor
      case mp => exact fun ⟨q, hq, hqx⟩ => ⟨q, mem_append_left _ hq, hqx⟩
      case mpr =>
        rintro ⟨q, hq, rfl⟩
        rcases mem_append.mp hq with hq | hq
        · exact ⟨q, hq, rfl⟩
        · rw [mem_singleton.mp hq, hp]
          exact h.exists_mem
    buf := h.buf.trans (flatMap_blockOf_append hne).symm
    key := h.key
    entries := by rw [h.entries, hb]
    count := h.count
    fits := fun x hx => by rw [blockOf_append_of_ne (hne x hx)]; exact h.fits x hx
    ne_nil := h.ne_nil }

theorem greater (hp : k < p.key) (ho : InOrder ps)
    (hl : (blockOf ps k).entries.length ≤ maxIndexEntries) :
    Indexes (d.flush.1.start p.key p.type p.entry) (ps ++ [p]) (keys ++ [k]) p.key := by
  have hlt x (hx : x ∈ keys ++ [k]) : x < p.key := by
    rcases mem_append.mp hx with hx | hx
    · exact ((pairwise_append.mp h.sorted).2.2 x hx k (mem_singleton_self k)).trans hp
    · exact mem_singleton.mp hx ▸ hp
  have hne x (hx : x ∈ keys ++ [k]) : p.key ≠ x := (hlt x hx).ne'
  have hb := blockOf_append_of_not_mem ps p fun q hq =>
    (hne _ <| (h.mem _).mpr ⟨q, hq, rfl⟩).symm
  rw [h.flush_eq ho hl]
  exact {
    sorted := pairwise_append.mpr
      ⟨h.sorted, pairwise_singleton _ _, fun x hx y hy => mem_singleton.mp hy ▸ hlt x hx⟩
    mem := by
      intro x
      rw [mem_append, h.mem]
      simp [or_and_right, exists_or, eq_comm]
    buf := (flatMap_blockOf_append hne).symm
    key := rfl
    entries := by rw [hb]; rfl
    count := by simp [start, h.count]
    fits := by
      intro x hx
      rw [blockOf_append_of_ne (hne x hx)]
      rcases mem_append.mp hx with hx | hx
      · exact h.fits x hx
      · exact mem_singleton.mp hx ▸ hl
    ne_nil := by rintro hn; simp [hn] at hp }

end Indexes

namespace Inv

variable (h : d.Inv ps)

include h

theorem add (hk : p.key ≠ []) (hle : ∀ q ∈ ps, q.key ≤ p.key) (ho : InOrder ps)
    (ha : d.add p.key p.type p.entry = .ok d') : d'.Inv (ps ++ [p]) := by
  rcases h with ⟨rfl, rfl⟩ | ⟨keys, k, h⟩ | h
  · have hn : new.key = [] := rfl
    rw [DirectIndex.add, if_pos hn] at ha
    cases ha
    have hb := blockOf_append_of_not_mem [] p nofun
    exact .inr <| .inl ⟨[], p.key, {
      sorted := pairwise_singleton _ _
      mem := by simp [eq_comm]
      buf := rfl
      key := rfl
      entries := by rw [hb]; rfl
      count := rfl
      fits := nofun
      ne_nil := hk }⟩
  · have hkp : k ≤ p.key := by
      have ⟨q, hq, hqk⟩ := h.exists_mem
      exact hqk ▸ hle q hq
    have hn : d.key ≠ [] := h.key ▸ h.ne_nil
    rw [DirectIndex.add, if_neg hn] at ha
    split_ifs at ha with he hlt
    · cases ha
      exact .inr <| .inl ⟨keys, k, h.same <| he.symm.trans h.key⟩
    · cases ha
      rw [h.key] at hlt
      by_cases hl : (blockOf ps k).entries.length ≤ maxIndexEntries
      · exact .inr <| .inl ⟨keys ++ [k], p.key, h.greater hlt ho hl⟩
      · have hs : d.Stuck := ⟨hn, by rw [h.entries]; exact not_le.mp hl⟩
        have ⟨err, hf⟩ := hs.flush_eq
        rw [hf]
        exact .inr <| .inr <| hs.start hk
    · exact absurd (lt_of_le_of_ne (h.key ▸ hkp) he) hlt
  · exact .inr <| .inr <| h.add hk ha

theorem bytes (ho : InOrder ps) (hc : d.keyCount ≠ 0) (hb : d.bytes = .ok b) :
    ∃ keys : List Bytes, keys ≠ [] ∧ keys.Pairwise (· < ·) ∧
      (∀ x, x ∈ keys ↔ ∃ p ∈ ps, p.key = x) ∧
        b = (keys.flatMap fun x => (blockOf ps x).encode) ∧
          ∀ x ∈ keys, (blockOf ps x).entries.length ≤ maxIndexEntries := by
  rcases h with ⟨rfl, rfl⟩ | ⟨keys, k, h⟩ | h
  · exact absurd rfl hc
  · by_cases hl : (blockOf ps k).entries.length ≤ maxIndexEntries
    · rw [DirectIndex.bytes, h.flush_eq ho hl] at hb
      cases hb
      refine ⟨keys ++ [k], by simp, h.sorted, h.mem, rfl, fun x hx => ?_⟩
      rcases mem_append.mp hx with hx | hx
      · exact h.fits x hx
      · exact mem_singleton.mp hx ▸ hl
    · have hs : d.Stuck := ⟨h.key ▸ h.ne_nil, by rw [h.entries]; exact not_le.mp hl⟩
      exact absurd hb hs.not_bytes
  · exact absurd hb h.not_bytes

end Inv

end DirectIndex

namespace TSMWriter

variable {codec : BlockCodec} {t t' : TSMWriter} {ps : List Placed}

def fileData (codec : BlockCodec) (ps : List Placed) : Bytes :=
  if ps = [] then [] else header ++ ps.flatMap (·.data codec)

structure Inv (codec : BlockCodec) (t : TSMWriter) (ps : List Placed) : Prop where
  bytes : t.w = fileData codec ps
  length : t.n = t.w.length
  index : t.index.Inv ps

theorem inv_new : new.Inv codec [] where
  bytes := rfl
  length := rfl
  index := .inl ⟨rfl, rfl⟩

theorem blockType_eq_ok (h : blockType block = .ok type) : block ≠ [] ∧ block.headD 0 = type := by
  cases block
  case nil => nomatch h
  case cons c rest =>
    have ⟨_, hc, h⟩ := bind_eq_ok.mp h
    have ⟨_, _, ht⟩ := bind_eq_ok.mp h
    cases hc
    exact ⟨cons_ne_nil c rest, Except.ok.inj ht⟩

def withHeader (t : TSMWriter) : TSMWriter :=
  if t.n = 0 then t.writeHeader else t

theorem write_cases (h : t.write codec key values = .ok t') :
    key.length ≤ maxKeyLength ∧
      (values = [] ∧ t' = t ∨
        ∃ p : Placed, p.values ≠ [] ∧ codec.encode values = .ok p.block ∧
          (p.key = key ∧ p.values = values ∧ p.offset = t.withHeader.n) ∧
            ∃ index, t.withHeader.index.add p.key p.type p.entry = .ok index ∧
              t' = { w := t.withHeader.w ++ p.data codec,
                     n := t.withHeader.n + (p.data codec).length, index }) := by
  have ⟨_, hl, h⟩ := bind_eq_ok.mp h
  refine ⟨require_eq_ok.mp hl, ?_⟩
  split at h
  case h_1 first last hf hg =>
    have ⟨block, he, h⟩ := bind_eq_ok.mp h
    have ⟨type, ht, h⟩ := bind_eq_ok.mp h
    have ⟨index, ha, h⟩ := bind_eq_ok.mp h
    have ⟨_, ht⟩ := blockType_eq_ok ht
    have hne : values ≠ [] := fun hn => by simp [hn] at hf
    let p : Placed := { key, values, block, offset := t.withHeader.n }
    have hp : p.entry = {
        minTime := first.1,
        maxTime := last.1,
        offset := .ofNat t.withHeader.n,
        size := .ofNat (putUint32 (codec.checksum block) ++ block).length } := by
      simp only [p, Placed.entry, hf, hg, length_append, length_putUint32]
      rfl
    have hy : p.type = type := ht
    refine .inr ⟨p, hne, he, ⟨rfl, rfl, rfl⟩, index, ?_, (Except.ok.inj h).symm⟩
    rw [hp, hy]
    exact ha
  case h_2 hn =>
    refine .inl ⟨?_, (Except.ok.inj h).symm⟩
    cases values
    case nil => rfl
    case cons v rest =>
      exact absurd (getLast?_eq_some_getLast (cons_ne_nil v rest)) (hn _ _ rfl)

theorem Inv.withHeader (h : t.Inv codec ps) :
    t.withHeader.w = header ++ ps.flatMap (·.data codec) ∧
      t.withHeader.n = t.withHeader.w.length ∧ t.withHeader.index = t.index := by
  have hb := h.bytes
  have hl := h.length
  rw [TSMWriter.withHeader]
  by_cases hp : ps = []
  · rw [fileData, if_pos hp] at hb
    rw [if_pos (by rw [hl, hb]; rfl), writeHeader, hb, hp]
    exact ⟨rfl, rfl, rfl⟩
  · rw [fileData, if_neg hp] at hb
    have hn : t.n ≠ 0 := by
      rw [hl, hb, length_append]
      exact Nat.ne_of_gt <| Nat.lt_add_right _ <| by decide
    rw [if_neg hn]
    exact ⟨hb, hl, rfl⟩

theorem placeBlock_eq (hv : values ≠ []) (he : codec.encode values = .ok block) :
    placeBlock codec ps (key, values) = ps ++ [{
      key, values, block, offset := header.length + (ps.flatMap (·.data codec)).length }] := by
  cases values
  case nil => exact absurd rfl hv
  case cons v rest => simp only [placeBlock, he]

theorem Inv.write {w : Bytes × Values} (h : t.Inv codec ps) (hw : t.write codec w.1 w.2 = .ok t')
    (hk : w.1 ≠ []) (hs : (placeBlock codec ps w).Pairwise (·.key ≤ ·.key)) (ho : InOrder ps) :
    t'.Inv codec (placeBlock codec ps w) ∧ w.1.length ≤ maxKeyLength ∧
      (w.2 ≠ [] → ∃ block, codec.encode w.2 = .ok block) := by
  have ⟨key, values⟩ := w
  have ⟨hl, hc⟩ := write_cases hw
  rcases hc with ⟨rfl, rfl⟩ | ⟨p, hne, he, ⟨rfl, rfl, hp⟩, index, ha, rfl⟩
  · exact ⟨h, hl, fun hn => absurd rfl hn⟩
  · have ⟨hw, hn, hi⟩ := h.withHeader
    have hpl : placeBlock codec ps (p.key, p.values) = ps ++ [p] := by
      rw [hn, hw, length_append] at hp
      rw [placeBlock_eq hne he, ← hp]
    rw [hpl] at hs ⊢
    have hle q (hq : q ∈ ps) : q.key ≤ p.key :=
      (pairwise_append.mp hs).2.2 q hq p (mem_singleton_self p)
    refine ⟨⟨?_, ?_, ?_⟩, hl, fun _ => ⟨_, he⟩⟩
    · simp [fileData, hw]
    · simp [hn]
    · exact h.index.add hk hle ho (hi ▸ ha)

theorem prefix_placeBlock (w : Bytes × Values) : ps <+: placeBlock codec ps w := by
  rw [placeBlock]
  split
  case h_1 => exact prefix_append ..
  case h_2 => exact prefix_rfl

theorem prefix_foldl_placeBlock (codec : BlockCodec) (ps : List Placed)
    (ws : List (Bytes × Values)) :
    ps <+: ws.foldl (placeBlock codec) ps := by
  induction ws generalizing ps
  case nil => exact prefix_rfl
  case cons w ws hi => exact (prefix_placeBlock w).trans (hi _)

theorem Inv.foldlM {ws : List (Bytes × Values)} (h : t.Inv codec ps)
    (hw : ws.foldlM (fun t w => t.write codec w.1 w.2) t = .ok t') (hk : ∀ w ∈ ws, w.1 ≠ [])
    (hs : (ws.foldl (placeBlock codec) ps).Pairwise (·.key ≤ ·.key))
    (ho : InOrder (ws.foldl (placeBlock codec) ps)) :
    t'.Inv codec (ws.foldl (placeBlock codec) ps) ∧
      ∀ w ∈ ws, w.1.length ≤ maxKeyLength ∧
        (w.2 ≠ [] → ∃ block, codec.encode w.2 = .ok block) := by
  induction ws generalizing t ps
  case nil =>
    cases hw
    exact ⟨h, nofun⟩
  case cons w ws hi =>
    rw [foldlM_cons] at hw
    have ⟨t₁, hw₁, hw⟩ := bind_eq_ok.mp hw
    have hp := prefix_foldl_placeBlock codec (placeBlock codec ps w) ws
    have ⟨h₁, he⟩ := h.write hw₁ (hk w mem_cons_self) (hs.sublist hp.sublist)
      (ho.sublist ((prefix_placeBlock w).trans hp).sublist)
    have ⟨h', he'⟩ := hi h₁ hw (fun w hw => hk w <| mem_cons_of_mem _ hw) hs ho
    exact ⟨h', forall_mem_cons.mpr ⟨he, he'⟩⟩

end TSMWriter

section Layout

variable {codec : BlockCodec} {ps : List Placed} {ws : List (Bytes × Values)}

theorem placeBlock_cases (codec : BlockCodec) (ps : List Placed) (w : Bytes × Values) :
    placeBlock codec ps w = ps ∧ (w.2 = [] ∨ ∀ block, codec.encode w.2 ≠ .ok block) ∨
      ∃ p, placeBlock codec ps w = ps ++ [p] ∧ (p.key, p.values) = w ∧ w.2 ≠ [] ∧
        codec.encode p.values = .ok p.block ∧
          p.offset = TSMWriter.header.length + (ps.flatMap (·.data codec)).length := by
  rw [placeBlock]
  split
  case h_1 v rest block hv he =>
    exact .inr ⟨_, rfl, rfl, by simp [hv], he, rfl⟩
  case h_2 hn =>
    refine .inl ⟨rfl, ?_⟩
    cases hv : w.2
    case nil => exact .inl rfl
    case cons v rest => exact .inr fun block he => hn v rest block hv (hv ▸ he)

theorem map_foldl_sublist :
    ((ws.foldl (placeBlock codec) ps).map fun p => (p.key, p.values)).Sublist
      ((ps.map fun p => (p.key, p.values)) ++ ws) := by
  induction ws generalizing ps
  case nil => simp
  case cons w ws hi =>
    apply hi.trans
    rcases placeBlock_cases codec ps w with ⟨hp, _⟩ | ⟨p, hp, hw, _⟩
    · rw [hp]
      exact (sublist_cons_self w ws).append_left _
    · rw [hp, map_append, append_assoc, map_singleton, hw]
      exact .refl _

theorem map_foldl (he : ∀ w ∈ ws, w.2 ≠ [] → ∃ block, codec.encode w.2 = .ok block) :
    (ws.foldl (placeBlock codec) ps).map (fun p => (p.key, p.values)) =
      ps.map (fun p => (p.key, p.values)) ++ ws.filter (·.2 ≠ []) := by
  induction ws generalizing ps
  case nil => simp
  case cons w ws hi =>
    rw [foldl_cons, hi fun w hw => he w <| mem_cons_of_mem _ hw]
    rcases placeBlock_cases codec ps w with ⟨hp, hn | hn⟩ | ⟨p, hp, hw, hn, _⟩
    · simp [hp, hn]
    · have hv : w.2 = [] := by
        by_contra hv
        have ⟨block, hb⟩ := he w mem_cons_self hv
        exact hn block hb
      simp [hp, hv]
    · simp [hp, hn, hw]

structure Placed.Laid (codec : BlockCodec) (ps : List Placed) (p : Placed) : Prop where
  ne_nil : p.values ≠ []
  encode : codec.encode p.values = .ok p.block
  bytes : ∃ pre rest, TSMWriter.header ++ ps.flatMap (·.data codec) =
    pre ++ (p.data codec ++ rest) ∧ pre.length = p.offset

theorem Placed.Laid.append (h : Laid codec ps p) : Laid codec (ps ++ [q]) p where
  ne_nil := h.ne_nil
  encode := h.encode
  bytes := by
    have ⟨pre, rest, hb, hl⟩ := h.bytes
    refine ⟨pre, rest ++ q.data codec, ?_, hl⟩
    rw [flatMap_append, ← append_assoc, hb]
    simp

theorem laid_foldl (h : ∀ p ∈ ps, p.Laid codec ps) :
    ∀ p ∈ ws.foldl (placeBlock codec) ps, p.Laid codec (ws.foldl (placeBlock codec) ps) := by
  induction ws generalizing ps
  case nil => exact h
  case cons w ws hi =>
    apply hi
    rcases placeBlock_cases codec ps w with ⟨hp, _⟩ | ⟨p, hp, hw, hn, he, ho⟩
    · rwa [hp]
    · rw [hp]
      have hl : p.Laid codec (ps ++ [p]) := by
        refine ⟨?_, he, TSMWriter.header ++ ps.flatMap (·.data codec), [], by simp, by simp [ho]⟩
        rwa [← hw] at hn
      intro q hq
      rcases mem_append.mp hq with hq | hq
      · exact (h q hq).append
      · rw [mem_singleton.mp hq]
        exact hl

end Layout

end Tsm1
