import Myts.Tsm1.Theorems.Reader
import Myts.Tsm1.Theorems.Writer

open List

namespace Tsm1

open Bytes Go TSMWriter

variable {codec : BlockCodec} {fs : FixedSearch} {ws : List (Bytes × Values)} {file : Bytes}

structure Writable (ws : List (Bytes × Values)) : Prop where
  keys : ws.Pairwise (·.1 ≤ ·.1)
  ne_nil : ∀ w ∈ ws, w.1 ≠ []
  ascending : ∀ w ∈ ws, w.2.Ascending
  blocks : ws.Pairwise fun w w' => w.1 = w'.1 → ∀ a ∈ w.2, ∀ b ∈ w'.2, a.1 < b.1

namespace Writable

variable (h : Writable ws)

include h

theorem pairwise_layout : (layout codec ws).Pairwise (·.key ≤ ·.key) := by
  have hs : ((layout codec ws).map fun p => (p.key, p.values)).Sublist ws := map_foldl_sublist
  have hp := h.keys.sublist hs
  rwa [pairwise_map] at hp

theorem inOrder_layout : InOrder (layout codec ws) := by
  have hs : ((layout codec ws).map fun p => (p.key, p.values)).Sublist ws := map_foldl_sublist
  have hl : ∀ p ∈ layout codec ws, p.Laid codec (layout codec ws) := laid_foldl nofun
  refine (pairwise_map.mp <| h.blocks.sublist hs).imp_of_mem fun {p q} hp hq hpq hk => ?_
  have ⟨a, ha⟩ : ∃ a, p.values.head? = some a := ⟨_, head?_eq_some_head (hl p hp).ne_nil⟩
  have ⟨b, hb⟩ : ∃ b, q.values.head? = some b := ⟨_, head?_eq_some_head (hl q hq).ne_nil⟩
  have hlt := hpq hk a (mem_of_mem_head? ha) b (mem_of_mem_head? hb)
  simpa [Placed.entry, ha, hb] using hlt.le

theorem writeFile_eq (hw : writeFile codec ws = .ok file) :
    (∀ w ∈ ws, w.1.length ≤ maxKeyLength ∧ (w.2 ≠ [] → ∃ block, codec.encode w.2 = .ok block)) ∧
      ∃ keys : List Bytes, keys ≠ [] ∧ keys.Pairwise (· < ·) ∧
        (∀ x, x ∈ keys ↔ ∃ p ∈ layout codec ws, p.key = x) ∧
        (∀ x ∈ keys, (blockOf (layout codec ws) x).entries.length ≤ maxIndexEntries) ∧
          let data := header ++ (layout codec ws).flatMap (·.data codec)
          file = data ++ ((keys.map (blockOf (layout codec ws))).flatMap (·.encode) ++
            putUint64 data.length) := by
  have ⟨t, ht, hw⟩ := bind_eq_ok.mp hw
  have ⟨_, hc, hw⟩ := bind_eq_ok.mp hw
  have ⟨index, hi, hw⟩ := bind_eq_ok.mp hw
  have ⟨hinv, he⟩ := inv_new.foldlM ht h.ne_nil h.pairwise_layout h.inOrder_layout
  have ⟨keys, hne, hk, hm, hb, hf⟩ := hinv.index.bytes h.inOrder_layout (require_eq_ok.mp hc) hi
  refine ⟨he, keys, hne, hk, hm, hf, ?_⟩
  have ⟨k, hk⟩ := exists_mem_of_ne_nil keys hne
  have ⟨p, hp, _⟩ := (hm k).mp hk
  have hw' := hinv.bytes
  rw [fileData, if_neg (List.ne_nil_of_mem hp)] at hw'
  rw [← Except.ok.inj hw, hinv.length, hw', hb, flatMap_map, append_assoc]
  rfl

end Writable

namespace TSMReader

theorem verifyVersion_header (rest : Bytes) :
    verifyVersion (header ++ rest) = .ok () := by
  have hs : slice 4 (header ++ rest) = .ok (putUint32 magicNumber, version :: rest) := by
    rw [header, append_assoc, slice_append (by rfl)]
    rfl
  have hb : byteAt (version :: rest) 0 = .ok version := byteAt_eq (x := []) rfl rfl
  have hm : uint32 (putUint32 magicNumber) = magicNumber := by rw [uint32_putUint32]; rfl
  rw [verifyVersion, require_pos (by simp [header]), ok_bind, hs, ok_bind]
  dsimp only
  rw [require_pos hm, ok_bind, require_pos (by simp), ok_bind, hb, ok_bind, require_pos rfl]

theorem openIndex_eq {data index : Bytes} (hs : (header ++ data).length < 2 ^ 64)
    (hi : index ≠ []) :
    openIndex (header ++ data ++
      (index ++ putUint64 (header ++ data).length)) =
        IndirectIndex.unmarshalBinary index := by
  have hv := verifyVersion_header (data ++ (index ++ putUint64 (header ++ data).length))
  rw [← append_assoc] at hv
  generalize header ++ data = x at hs hv
  generalize hb : x ++ (index ++ putUint64 x.length) = b at hv
  have hpos := length_pos_iff.mpr hi
  have hl : b.length = x.length + index.length + 8 := by simp [← hb]; omega
  have hn : b.length - 8 = x.length + index.length := by omega
  have h₁ : sliceFrom b (b.length - 8 : Nat) = .ok (putUint64 x.length) := by
    rw [← append_assoc] at hb
    exact sliceFrom_eq hb.symm (by rw [hn, length_append])
  have h₂ : sliceAt b x.length (b.length - 8 : Nat) = .ok index :=
    sliceAt_eq hb.symm rfl (by rw [hn]; rfl)
  rw [openIndex, hv, ok_bind, require_pos (by omega), ok_bind]
  dsimp only
  rw [h₁, ok_bind, uint64_putUint64_of_lt hs, require_pos (by omega), ok_bind, h₂, ok_bind]

theorem readBlock_entry {r : TSMReader} {p : Placed} (hp : p.Laid codec ps)
    (hb : r.b = header ++ ps.flatMap (·.data codec) ++ rest)
    (hs : r.b.length < 2 ^ 63) (hps : 4 + p.block.length < 2 ^ 32) :
    r.readBlock codec p.entry = .ok p.values := by
  have ⟨pre, rest', hd, hl⟩ := hp.bytes
  have hb : r.b = pre ++ putUint32 (codec.checksum p.block) ++ (p.block ++ (rest' ++ rest)) := by
    rw [hb, hd, Placed.data]
    simp only [append_assoc]
  have hlen : pre.length + (4 + p.block.length) ≤ r.b.length := by
    simp only [hb, length_append, length_putUint32]
    omega
  have ho : p.entry.offset.toInt = pre.length := by
    rw [hl, Placed.entry, Int64.toInt_ofNat_of_lt (by omega)]
  have hz : p.entry.size.toNat = 4 + p.block.length :=
    UInt32.toNat_ofNat_of_lt' hps
  have hsl : sliceAt r.b (pre.length + 4) (pre.length + (4 + p.block.length : Nat)) =
      .ok p.block := sliceAt_eq hb (by simp) (by simp; omega)
  rw [readBlock, ho, hz, hsl, ok_bind, codec.lossless _ _ hp.encode]

theorem new_eq (ho : openIndex file = .ok d) :
    new fs file [] = .ok { b := file, index := d, tombstones := [] } := by
  rw [new, ho, ok_bind]
  rfl

theorem readAll_eq {r : TSMReader} {qs : List Placed} (ht : r.index.tombstones = ∅)
    (he : r.index.entries fs k = .ok (qs.map (·.entry)))
    (hq : ∀ p ∈ qs, r.readBlock codec p.entry = .ok p.values) :
    r.readAll codec fs k = .ok (qs.flatMap (·.values)) := by
  have hr : (qs.map (·.entry)).mapM (r.readUndeleted codec []) = .ok (qs.map (·.values)) := by
    rw [mapM_map]
    refine mapM_eq_ok fun p hp => ?_
    rw [Function.comp_apply, readUndeleted, if_neg (by simp), hq p hp, ok_bind]
    rfl
  rw [readAll, he, ok_bind, ht, Finmap.lookup_empty, Option.getD_none]
  dsimp only
  rw [hr, ok_bind, flatMap_def]
  rfl

end TSMReader

theorem mem_layout (he : ∀ w ∈ ws, w.2 ≠ [] → ∃ block, codec.encode w.2 = .ok block) :
    (∃ p ∈ layout codec ws, p.key = k) ↔ ∃ w ∈ ws, w.1 = k ∧ w.2 ≠ [] := by
  have hm : (layout codec ws).map (fun p => (p.key, p.values)) = ws.filter (·.2 ≠ []) :=
    map_foldl he
  constructor
  case mp =>
    rintro ⟨p, hp, rfl⟩
    have hw : (p.key, p.values) ∈ ws.filter (·.2 ≠ []) := hm ▸ mem_map_of_mem hp
    have ⟨hw, hn⟩ := mem_filter.mp hw
    exact ⟨_, hw, rfl, by simpa using hn⟩
  case mpr =>
    rintro ⟨w, hw, rfl, hn⟩
    have hw : w ∈ ws.filter (·.2 ≠ []) := mem_filter.mpr ⟨hw, by simpa using hn⟩
    rw [← hm] at hw
    have ⟨p, hp, hpw⟩ := mem_map.mp hw
    exact ⟨p, hp, by rw [← hpw]⟩

theorem flatMap_layout (he : ∀ w ∈ ws, w.2 ≠ [] → ∃ block, codec.encode w.2 = .ok block) :
    ((layout codec ws).filter (·.key = k)).flatMap (·.values) =
      (ws.filter (·.1 = k)).flatMap (·.2) := by
  have hm : (layout codec ws).map (fun p => (p.key, p.values)) = ws.filter (·.2 ≠ []) :=
    map_foldl he
  have hl : ((layout codec ws).filter (·.key = k)).flatMap (·.values) =
      ((ws.filter (·.2 ≠ [])).filter (·.1 = k)).flatMap (·.2) := by
    rw [← hm, filter_map, flatMap_map]
    rfl
  rw [hl]
  clear hm hl he
  induction ws
  case nil => rfl
  case cons w ws hi =>
    by_cases hn : w.2 = [] <;> by_cases hk : w.1 = k <;> simp_all

structure Addressable (codec : BlockCodec) (ws : List (Bytes × Values)) (file : Bytes) : Prop where
  positions : file.length < 2 ^ 63
  index : file.length <
    (header ++ (layout codec ws).flatMap (·.data codec)).length + 2 ^ 31 + 8
  blocks : ∀ p ∈ layout codec ws, 4 + p.block.length < 2 ^ 32

theorem Addressable.of_length_lt (h : Writable ws) (hw : writeFile codec ws = .ok file)
    (hs : file.length < 2 ^ 31) : Addressable codec ws file where
  positions := by omega
  index := by omega
  blocks p hp := by
    have ⟨_, _, _, _, _, _, hfile⟩ := h.writeFile_eq hw
    have hl : ∀ p ∈ layout codec ws, p.Laid codec (layout codec ws) := laid_foldl nofun
    have ⟨pre, rest, hd, _⟩ := (hl p hp).bytes
    have hlen := congrArg List.length hd
    rw [hfile] at hs
    simp only [length_append, Placed.data, length_putUint32] at hlen hs
    omega

structure Opens (codec : BlockCodec) (ws : List (Bytes × Values)) (file : Bytes)
    (keys : List Bytes) (d : IndirectIndex) : Prop where
  encodes : ∀ w ∈ ws, w.2 ≠ [] → ∃ block, codec.encode w.2 = .ok block
  sorted : keys.Pairwise (· < ·)
  mem : ∀ k, k ∈ keys ↔ ∃ p ∈ layout codec ws, p.key = k
  bytes : ∃ rest,
    file = header ++ (layout codec ws).flatMap (·.data codec) ++ rest
  opens : TSMReader.openIndex file = .ok d
  represents : d.Represents (IndirectIndex.place 0 (keys.map (blockOf (layout codec ws))))
  tombstones : d.tombstones = ∅
  spans : ∀ k ∈ keys, d.Spans (blockOf (layout codec ws) k)

theorem Writable.opens (h : Writable ws) (hw : writeFile codec ws = .ok file)
    (hs : Addressable codec ws file) : ∃ keys d, Opens codec ws file keys d := by
  have ⟨he, keys, hne, hk, hm, hf, hfile⟩ := h.writeFile_eq hw
  have hsub : ((layout codec ws).map fun p => (p.key, p.values)).Sublist ws := map_foldl_sublist
  have hx : keys.map (blockOf (layout codec ws)) ≠ [] := by simpa using hne
  have hv : ∀ x ∈ keys.map (blockOf (layout codec ws)), x.Valid := by
    rw [forall_mem_map]
    intro k hk
    have ⟨p, hp, hpk⟩ := (hm k).mp hk
    have hl := (he _ <| hsub.subset <| mem_map_of_mem hp).1
    have hc := hf k hk
    have hmem : p ∈ (layout codec ws).filter (·.key = k) := by simpa using ⟨hp, hpk⟩
    rw [maxKeyLength] at hl
    rw [maxIndexEntries] at hc
    refine ⟨?_, by omega, List.ne_nil_of_mem <| mem_map_of_mem hmem⟩
    rw [← hpk]
    exact Nat.lt_succ_of_le hl
  have hsort : (keys.map (blockOf (layout codec ws))).Pairwise (·.key < ·.key) :=
    pairwise_map.mpr hk
  have hlen := congrArg List.length hfile
  have ⟨hsf, hsi, _⟩ := hs
  simp only [length_append, length_putUint64] at hlen hsi
  have ⟨d, hd, hr, ht, hsp, _⟩ := IndirectIndex.unmarshalBinary_eq hx (by omega) hv hsort
  refine ⟨keys, d, {
    encodes := fun w hw => (he w hw).2
    sorted := hk
    mem := hm
    bytes := ⟨_, hfile⟩
    opens := ?_
    represents := hr
    tombstones := ht
    spans := forall_mem_map.mp hsp }⟩
  rw [← hd, hfile]
  refine TSMReader.openIndex_eq (by rw [length_append]; omega) fun hn => hx ?_
  have hl := hn ▸ IndirectIndex.length_le_flatMap
  exact length_eq_zero_iff.mp <| Nat.le_zero.mp hl

section Place

theorem key_blockOf {ps : List Placed} : (blockOf ps k).key = k :=
  rfl

variable {keys : List Bytes}

theorem exists_place (codec : BlockCodec) (ws : List (Bytes × Values)) (hk : k ∈ keys) :
    ∃ o, (o, blockOf (layout codec ws) k) ∈
      IndirectIndex.place 0 (keys.map (blockOf (layout codec ws))) :=
  IndirectIndex.mem_place <| mem_map_of_mem hk

theorem map_snd_getElem? (codec : BlockCodec) (ws : List (Bytes × Values)) (keys : List Bytes)
    (i : Nat) :
    (IndirectIndex.place 0 (keys.map (blockOf (layout codec ws))))[i]?.map (·.2) =
      keys[i]?.map (blockOf (layout codec ws)) := by
  rw [← getElem?_map, IndirectIndex.map_snd_place, getElem?_map]

theorem forall_ne (hk : k ∉ keys) :
    ∀ p ∈ IndirectIndex.place 0 (keys.map (blockOf (layout codec ws))), p.2.key ≠ k := by
  intro p hp hpk
  have hm := mem_map_of_mem (f := (·.2)) hp
  rw [IndirectIndex.map_snd_place] at hm
  have ⟨x, hx, hxp⟩ := mem_map.mp hm
  rw [← hpk, ← hxp] at hk
  exact hk hx

end Place

namespace Opens

variable {keys : List Bytes} {d : IndirectIndex} (h : Opens codec ws file keys d)

include h

theorem keyCount_eq : d.keyCount = keys.length := by
  rw [h.represents.keyCount_eq, ← length_map (f := (·.2)), IndirectIndex.map_snd_place,
    length_map]

theorem key_eq (i : Nat) : d.key i = .ok (keys[i]?.map (blockOf (layout codec ws))) := by
  rw [h.represents.key_eq, map_snd_getElem?]

theorem keyAt_eq (i : Nat) :
    d.keyAt i = .ok (keys[i]?.map fun k => (k, (blockOf (layout codec ws) k).type)) := by
  have hm := map_snd_getElem? codec ws keys i
  have hm := congrArg (Option.map fun x : IndexBlock => (x.key, x.type)) hm
  rw [Option.map_map, Option.map_map] at hm
  rw [h.represents.keyAt_eq]
  exact congrArg _ hm

theorem entries_eq (k : Bytes) : d.entries fs k = .ok (blockOf (layout codec ws) k).entries := by
  by_cases hk : k ∈ keys
  · have ⟨o, ho⟩ := exists_place codec ws hk
    have he := h.represents.entries_of_mem fs ho
    rwa [key_blockOf] at he
  · have hf : (layout codec ws).filter (·.key = k) = [] := by
      rw [h.mem] at hk
      simpa using hk
    rw [h.represents.entries_of_forall_ne (forall_ne hk), blockOf, hf]
    rfl

theorem search_eq (k : Bytes) : ∃ ofs, d.search fs k = .ok ofs ∧ (ofs < d.b.length ↔ k ∈ keys) := by
  by_cases hk : k ∈ keys
  · have ⟨o, ho⟩ := exists_place codec ws hk
    have hs := h.represents.search_of_mem fs ho
    have hl := (h.represents.blocks _ ho).le_length
    rw [IndexBlock.length_encode] at hl
    rw [key_blockOf] at hs
    exact ⟨o, hs, iff_of_true (by omega) hk⟩
  · exact ⟨_, h.represents.search_of_forall_ne (forall_ne hk), iff_of_false (lt_irrefl _) hk⟩

end Opens

theorem new_writeFile (h : Writable ws) (hw : writeFile codec ws = .ok file)
    (hs : Addressable codec ws file) :
    ∃ r, TSMReader.new fs file [] = .ok r ∧ ∃ keys : List Bytes,
      (keys.Pairwise (· < ·) ∧ ∀ k, k ∈ keys ↔ ∃ w ∈ ws, w.1 = k ∧ w.2 ≠ []) ∧
      (r.index.keyCount = keys.length ∧
        (∀ i, r.index.key i = .ok (keys[i]?.map (blockOf (layout codec ws)))) ∧
        ∀ i, r.index.keyAt i =
          .ok (keys[i]?.map fun k => (k, (blockOf (layout codec ws) k).type))) ∧
      ∀ k, r.index.entries fs k = .ok (blockOf (layout codec ws) k).entries ∧
        (∃ ofs, r.index.search fs k = .ok ofs ∧ (ofs < r.index.b.length ↔ k ∈ keys)) ∧
        r.readAll codec fs k = .ok ((ws.filter (·.1 = k)).flatMap (·.2)) := by
  have ⟨keys, d, ho⟩ := h.opens hw hs
  have ⟨rest, hb⟩ := ho.bytes
  have hl : ∀ p ∈ layout codec ws, p.Laid codec (layout codec ws) := laid_foldl nofun
  refine ⟨_, TSMReader.new_eq ho.opens, keys, ⟨ho.sorted, fun k => ?_⟩,
    ⟨ho.keyCount_eq, ho.key_eq, ho.keyAt_eq⟩, fun k => ⟨ho.entries_eq k, ho.search_eq k, ?_⟩⟩
  · rw [ho.mem, mem_layout ho.encodes]
  · rw [← flatMap_layout ho.encodes]
    apply TSMReader.readAll_eq ho.tombstones (ho.entries_eq k)
    intro p hp
    have hp := mem_of_mem_filter hp
    exact TSMReader.readBlock_entry (hl p hp) hb hs.positions (hs.blocks p hp)

section Sample

def linearSearch (size : Nat) (fn : Bytes → Go Bool) : (fuel i : Nat) → Bytes → Go Nat
  | 0, i, _ => .ok i
  | fuel + 1, i, a =>
    if a = [] then
      .ok i
    else do
      if ← fn (a.take size) then return i else linearSearch size fn fuel (i + size) (a.drop size)

theorem linearSearch_eq {xs : List Bytes} (hs : 0 < size)
    (hx : ∀ x ∈ xs, x.length = size ∧ fn x = .ok (p x)) (hf : xs.length ≤ fuel) :
    linearSearch size fn fuel i xs.flatten = .ok (i + xs.findIdx p * size) := by
  induction xs generalizing fuel i
  case nil => cases fuel <;> simp [linearSearch]
  case cons x xs hi =>
    cases fuel
    case zero => nomatch hf
    case succ fuel =>
      have ⟨⟨hl, hp⟩, hx⟩ := forall_mem_cons.mp hx
      have hne : (x :: xs).flatten ≠ [] := by
        rw [flatten_cons]
        exact fun h => by simp_all
      rw [linearSearch, if_neg hne, flatten_cons, take_left' hl, drop_left' hl, hp,
        ok_bind, findIdx_cons]
      cases p x
      case true => simp; rfl
      case false =>
        simp only [Bool.false_eq_true, if_false, hi hx (Nat.le_of_succ_le_succ hf), cond_false]
        congr 1
        ring

theorem length_le_flatten {xs : List Bytes} (hs : 0 < size) (hx : ∀ x ∈ xs, x.length = size) :
    xs.length ≤ xs.flatten.length := by
  have hle : ∀ n ∈ xs.map List.length, 1 ≤ n := by
    rw [forall_mem_map]
    exact fun x h => hx x h ▸ hs
  rw [length_flatten, ← length_map List.length]
  exact length_le_sum_of_one_le _ hle

def linear : FixedSearch where
  toSorter := .insertion
  search a size fn := linearSearch size fn a.length 0 a
  correct xs size fn p hs hx _ := by
    have hl := length_le_flatten hs fun x hm => (hx x hm).1
    refine ⟨xs.findIdx p, findIdx_le_length, ?_, fun k hk => ?_⟩
    · rw [linearSearch_eq hs hx hl, Nat.zero_add]
    · exact (findIdx?_eq_some_iff_findIdx_eq.mp hk).2

def crc32 (b : Bytes) : Nat :=
  let shift (c : UInt32) : UInt32 := c >>> 1 ^^^ if c &&& 1 = 1 then 0xEDB88320 else 0
  (~~~b.foldl (fun c x => shift^[8] (c ^^^ x.toUInt32)) 0xFFFFFFFF).toNat

def putIntegers : Values → Go Bytes
  | [] => .ok []
  | (t, .integer v) :: values => do return putInt64 t ++ (putInt64 v ++ (← putIntegers values))
  | _ => fail "unsupported value type"

def readIntegers : (fuel : Nat) → Bytes → Values
  | 0, _ => []
  | fuel + 1, b =>
    if b = [] then
      []
    else
      (int64 (b.take 8), .integer (int64 ((b.drop 8).take 8))) :: readIntegers fuel (b.drop 16)

theorem readIntegers_eq (h : putIntegers values = .ok b) (hf : b.length ≤ fuel) :
    readIntegers fuel b = values := by
  induction values generalizing b fuel
  case nil => cases h; cases fuel <;> rfl
  case cons v values hi =>
    rcases v with ⟨t, _ | v | _ | _ | _⟩ <;> try cases h
    have ⟨b', hb, h⟩ := bind_eq_ok.mp h
    cases h
    simp only [length_append, length_putInt64] at hf
    obtain ⟨fuel, rfl⟩ := Nat.exists_eq_add_of_le' (show 1 ≤ fuel by omega)
    have hd : (putInt64 t ++ (putInt64 v ++ b')).drop 16 = b' := by
      rw [← append_assoc, drop_left' (by simp)]
    rw [readIntegers, if_neg (ne_nil_of_length_pos (by simp)), hd, hi hb (by omega),
      take_left' (length_putInt64 t), drop_left' (length_putInt64 t),
      take_left' (length_putInt64 v), int64_putInt64, int64_putInt64]

def integers : BlockCodec where
  encode values := do return 1 :: (← putIntegers values)
  decode block := .ok (readIntegers block.length (block.drop 1))
  checksum := crc32
  lossless values block h := by
    have ⟨b, hb, h⟩ := bind_eq_ok.mp h
    cases h
    exact congrArg _ <| readIntegers_eq hb <| Nat.le_succ b.length

def sampleWrites : List (Bytes × Values) :=
  [([97], [(1, .integer 5), (2, .integer 6)]), ([97], [(3, .integer (-1))]), ([97], []),
    ([98], [(1, .integer 7)])]

def sampleFile : Bytes :=
  ((writeFile integers sampleWrites).toOption).getD []

theorem writable_sampleWrites : Writable sampleWrites where
  keys := by decide
  ne_nil := by decide
  ascending := by decide
  blocks := by decide

theorem writeFile_sampleWrites : writeFile integers sampleWrites = .ok sampleFile := by
  decide +kernel

theorem length_sampleFile : sampleFile.length = 188 := by
  decide +kernel

theorem addressable_sampleFile : Addressable integers sampleWrites sampleFile :=
  .of_length_lt writable_sampleWrites writeFile_sampleWrites (length_sampleFile ▸ by decide)

theorem new_writeFile_sample : writeFile integers sampleWrites = .ok sampleFile ∧
    sampleFile.length = 188 ∧
    ∃ r, TSMReader.new linear sampleFile [] = .ok r ∧ ∃ keys : List Bytes,
      (keys.Pairwise (· < ·) ∧ ∀ k, k ∈ keys ↔ ∃ w ∈ sampleWrites, w.1 = k ∧ w.2 ≠ []) ∧
      (r.index.keyCount = keys.length ∧
        (∀ i, r.index.key i = .ok (keys[i]?.map (blockOf (layout integers sampleWrites)))) ∧
        ∀ i, r.index.keyAt i =
          .ok (keys[i]?.map fun k => (k, (blockOf (layout integers sampleWrites) k).type))) ∧
      ∀ k, r.index.entries linear k = .ok (blockOf (layout integers sampleWrites) k).entries ∧
        (∃ ofs, r.index.search linear k = .ok ofs ∧ (ofs < r.index.b.length ↔ k ∈ keys)) ∧
        r.readAll integers linear k = .ok ((sampleWrites.filter (·.1 = k)).flatMap (·.2)) :=
  ⟨writeFile_sampleWrites, length_sampleFile, new_writeFile writable_sampleWrites
    writeFile_sampleWrites addressable_sampleFile⟩

end Sample

end Tsm1
