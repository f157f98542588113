import Myts.Tsm1.BlockIterator
import Myts.Tsm1.Theorems.TsmFile

open List

namespace Tsm1

open IndirectIndex

namespace BlockIterator

variable {d : IndirectIndex} {ps : List (Nat × IndexBlock)} {b : BlockIterator} {x : IndexBlock}

def visitsOf (x : IndexBlock) (after : Option Bytes) : List IndexEntry → List Visit
  | [] => []
  | e :: es => ⟨x.key, x.type, e, if es = [] then after else some x.key⟩ :: visitsOf x after es

def visits : List IndexBlock → List Visit
  | [] => []
  | x :: xs => visitsOf x (xs[1]?.map (·.key)) x.entries ++ visits xs

structure At (ps : List (Nat × IndexBlock)) (b : BlockIterator) (x : IndexBlock) : Prop where
  key : b.key = x.key
  typ : b.typ = x.type
  n : b.n = ps.length
  err : b.err = none

theorem peekNext_eq (h : d.Represents ps) (ha : b.At ps x) (he : b.entries = e :: es) :
    b.peekNext d = .ok (if es = [] then (ps[b.i + 1]?).map (·.2.key) else some x.key) := by
  rw [peekNext, ha.n, ha.key, he, length_cons]
  split_ifs with h₁ h₂ h₃ h₄
  · simp [h₂] at h₁
  · rfl
  · rw [h.keyAt_eq, Go.ok_bind, Option.map_map]
    rfl
  · exact absurd (length_pos_iff.mpr h₄) (by omega)
  · rw [getElem?_eq_none (by omega)]
    rfl
  · exact absurd (length_pos_iff.mpr ‹_›) (by omega)

theorem nextKey_eq (h : d.Represents ps) (hn : b.n = ps.length) (he : b.err = none)
    (hx : ps[b.i]? = some p) (hne : p.2.entries ≠ []) :
    ∃ b' : BlockIterator, b.nextKey d = .ok (true, b') ∧ b'.At ps p.2 ∧ b'.i = b.i + 1 ∧
      b'.entries = p.2.entries := by
  rw [nextKey, h.key_eq, Go.ok_bind, hx]
  simp only [Option.map_some, Option.getD_some, hn, h.keyCount_eq, ne_eq, not_true_eq_false,
    if_false, hne, not_false_eq_true, decide_true]
  exact ⟨_, rfl, ⟨rfl, rfl, rfl, he⟩, rfl, rfl⟩

theorem drain_visit (h : d.Represents ps) (ha : b.At ps x) (he : b.entries = e :: es)
    (hn : b₀.next d = .ok (true, b)) (hr : drain d fuel b = .ok (vs, b')) :
    drain d (fuel + 1) b₀ = .ok
      (⟨x.key, x.type, e, if es = [] then (ps[b.i + 1]?).map (·.2.key) else some x.key⟩ :: vs,
        b') := by
  rw [drain, hn, Go.ok_bind]
  dsimp only
  rw [if_pos rfl, peekNext_eq h ha he, he, head?_cons, Go.deref, Go.ok_bind, Go.ok_bind, hr, ha.key,
    ha.typ]
  rfl

theorem next_same (he : b.err = none) (ht : b.entries.tail = e :: es) :
    b.next d = .ok (true, { b with entries := e :: es }) := by
  have hne : b.entries ≠ [] := fun h => by simp [h] at ht
  rw [next, if_neg (by simp [he, hne]), ht, if_pos (cons_ne_nil e es)]
  rfl

theorem next_other (he : b.err = none) (ht : b.entries.tail = []) (hn : 0 < b.n - b.i) :
    b.next d = { b with entries := [] }.nextKey d := by
  rw [next, if_neg (by simp [he]; omega), ht, if_neg (not_not.mpr rfl), if_pos hn]

structure AtEnd (d : IndirectIndex) (b : BlockIterator) : Prop where
  err : b.err = none
  next : b.next d = .ok (false, b)

theorem atEnd (he : b.err = none) (hb : b.entries = []) (hn : ¬0 < b.n - b.i) : b.AtEnd d :=
  ⟨he, by rw [next, if_pos (.inr ⟨by omega, hb⟩)]; rfl⟩

theorem next_end (he : b.err = none) (ht : b.entries.tail = []) (hn : ¬0 < b.n - b.i) :
    ∃ b', b.next d = .ok (false, b') ∧ b'.AtEnd d := by
  rw [next, ht, if_neg (not_not.mpr rfl), if_neg hn]
  split
  case isTrue h =>
    have hb : b.entries = [] := (h.resolve_left (by simp [he])).2
    exact ⟨b, rfl, atEnd he hb hn⟩
  case isFalse => exact ⟨{ b with entries := [] }, rfl, atEnd he rfl hn⟩

theorem drain_eq (h : d.Represents ps) (hv : ∀ p ∈ ps, p.2.entries ≠ []) (ha : b.At ps x)
    (hf : b.entries.tail.length + ((ps.drop b.i).map (·.2.entries.length)).sum < fuel) :
    ∃ b', drain d fuel b = .ok (visitsOf x ((ps[b.i + 1]?).map (·.2.key)) b.entries.tail ++
      visits ((ps.drop b.i).map (·.2)), b') ∧ b'.AtEnd d := by
  induction fuel generalizing b x
  case zero => nomatch hf
  case succ fuel hi =>
    have hn := ha.n
    cases ht : b.entries.tail
    case cons e es =>
      have ha' : At ps { b with entries := e :: es } x := ⟨ha.key, ha.typ, ha.n, ha.err⟩
      rw [ht, length_cons] at hf
      have ⟨b', hr, hend⟩ := hi ha' (by dsimp only [tail_cons]; omega)
      exact ⟨b', drain_visit (b := { b with entries := e :: es }) h ha' rfl
        (next_same ha.err ht) hr, hend⟩
    case nil =>
      by_cases hlt : b.i < ps.length
      case neg =>
        obtain ⟨b', hb, hend⟩ := next_end (d := d) ha.err ht (by omega)
        rw [drain, hb, drop_eq_nil_of_le (by omega)]
        exact ⟨b', rfl, hend⟩
      case pos =>
        have hp : ps[b.i]? = some ps[b.i] := getElem?_eq_getElem hlt
        obtain ⟨b', hb, ha', hi', he'⟩ :=
          nextKey_eq (b := { b with entries := [] }) h hn ha.err hp (hv _ (mem_of_getElem? hp))
        obtain ⟨e, es, hes⟩ := exists_cons_of_ne_nil (hv _ (mem_of_getElem? hp))
        rw [drop_eq_getElem_cons hlt, map_cons, sum_cons, hes, length_cons] at hf
        rw [← next_other ha.err ht (by omega)] at hb
        have ⟨b₂, hr, hend⟩ := hi ha' (by rw [he', hes, hi', tail_cons]; dsimp only; omega)
        refine ⟨b₂, ?_, hend⟩
        rw [drain_visit h ha' (he'.trans hes) hb hr, drop_eq_getElem_cons hlt, map_cons, visits,
          he', hes, hi', getElem?_map, getElem?_drop, Option.map_map]
        rfl

theorem map_visits (xs : List IndexBlock) : (visits xs).map (fun v => (v.key, v.typ, v.entry)) =
    xs.flatMap fun x => x.entries.map ((x.key, x.type, ·)) := by
  have ho (x) (after : Option Bytes) (es) : (visitsOf x after es).map
      (fun v => (v.key, v.typ, v.entry)) = es.map ((x.key, x.type, ·)) := by
    induction es
    case nil => rfl
    case cons e es hi => exact congrArg _ hi
  induction xs
  case nil => rfl
  case cons x xs hi => rw [visits, map_append, ho, hi, flatMap_cons]

theorem drain_blocks (h : d.Represents ps) (hv : ∀ p ∈ ps, p.2.entries ≠ [])
    (hf : (ps.map (·.2.entries.length)).sum < fuel) :
    ∃ b, drain d fuel (new d) = .ok (visits (ps.map (·.2)), b) ∧ b.AtEnd d :=
  drain_eq (x := ⟨[], 0, []⟩) h hv ⟨rfl, rfl, h.keyCount_eq, rfl⟩ (Nat.zero_add _ ▸ hf)

theorem drain_new (h : d.Represents ps) (hv : ∀ p ∈ ps, p.2.entries ≠ [])
    (hf : (ps.map (·.2.entries.length)).sum < fuel) :
    (∃ b, drain d fuel (new d) = .ok (visits (ps.map (·.2)), b) ∧ b.AtEnd d) ∧
      (visits (ps.map (·.2))).map (fun v => (v.key, v.typ, v.entry)) =
        ps.flatMap fun p => p.2.entries.map ((p.2.key, p.2.type, ·)) :=
  ⟨drain_blocks h hv hf, by rw [map_visits, flatMap_map]⟩

def twoKeys : List IndexBlock :=
  [⟨[97], 0, [⟨1, 2, 5, 9⟩, ⟨3, 4, 14, 9⟩]⟩, ⟨[98], 0, [⟨1, 2, 23, 9⟩]⟩]

theorem represents_twoKeys :
    ∃ d, unmarshalBinary (twoKeys.flatMap (·.encode)) = .ok d ∧
      d.Represents (place 0 twoKeys) := by
  have hx : twoKeys ≠ [] := cons_ne_nil _ _
  have hv : ∀ x ∈ twoKeys, x.Valid := forall_mem_cons.mpr ⟨⟨by decide, by decide, cons_ne_nil _ _⟩,
    forall_mem_singleton.mpr ⟨by decide, by decide, cons_ne_nil _ _⟩⟩
  obtain ⟨d, hd, hr, _⟩ := unmarshalBinary_eq hx (by decide) hv (by decide)
  exact ⟨d, hd, hr⟩

theorem drain_twoKeys : ∃ d, unmarshalBinary (twoKeys.flatMap (·.encode)) = .ok d ∧
    ∃ b, drain d 4 (new d) = .ok ([⟨[97], 0, ⟨1, 2, 5, 9⟩, some [97]⟩,
      ⟨[97], 0, ⟨3, 4, 14, 9⟩, none⟩, ⟨[98], 0, ⟨1, 2, 23, 9⟩, none⟩], b) ∧ b.AtEnd d := by
  obtain ⟨d, hd, hr⟩ := represents_twoKeys
  exact ⟨d, hd, (drain_new hr (by decide) (by decide)).left⟩

section Foreseen

def Foresees (vs : List Visit) : Prop :=
  vs.map (·.peeked) = vs.tail.map (some ·.key) ++ if vs = [] then [] else [none]

instance {vs : List Visit} : Decidable (Foresees vs) :=
  inferInstanceAs (Decidable (_ = _))

theorem visitsOf_eq_cons (x : IndexBlock) (after : Option Bytes) (he : x.entries ≠ []) :
    ∃ v vs, visitsOf x after x.entries = v :: vs ∧ v.key = x.key := by
  obtain ⟨e, es, hes⟩ := exists_cons_of_ne_nil he
  exact ⟨_, _, by rw [hes, visitsOf], rfl⟩

theorem map_peeked_visitsOf (x : IndexBlock) (after : Option Bytes) (es : List IndexEntry) :
    (visitsOf x after es).map (·.peeked) =
      (visitsOf x after es).tail.map (some ·.key) ++ if es = [] then [] else [after] := by
  induction es
  case nil => rfl
  case cons e es hi =>
    rw [visitsOf, map_cons, hi]
    cases es
    case nil => rfl
    case cons => rfl

theorem foresees_visits_iff {xs : List IndexBlock} (hs : xs.Pairwise (·.key < ·.key))
    (hv : ∀ x ∈ xs, x.entries ≠ []) : Foresees (visits xs) ↔ xs.length ≤ 1 := by
  match xs with
  | [] => exact iff_of_true rfl (Nat.zero_le 1)
  | [x] =>
    refine iff_of_true ?_ le_rfl
    have hx := hv x mem_cons_self
    have ⟨v, vs, he, _⟩ := visitsOf_eq_cons x none hx
    have hp := map_peeked_visitsOf x none x.entries
    rw [if_neg hx] at hp
    rw [Foresees, visits, visits, append_nil, getElem?_nil, Option.map_none, hp, he,
      if_neg (cons_ne_nil v vs)]
  | x :: y :: xs =>
    refine iff_of_false (fun hf => ?_) (by simp)
    -- Behind the last block of the first key is a block of the second one.
    have hx := hv x mem_cons_self
    have ⟨v, vs, he, _⟩ := visitsOf_eq_cons x (xs[0]?.map (·.key)) hx
    have ⟨u, us, he', hu⟩ :=
      visitsOf_eq_cons y (xs[1]?.map (·.key)) (hv y (mem_cons_of_mem _ mem_cons_self))
    have hp := map_peeked_visitsOf x (xs[0]?.map (·.key)) x.entries
    rw [if_neg hx] at hp
    rw [Foresees, visits, visits, map_append, getElem?_cons_succ, hp, he, he'] at hf
    simp only [cons_append, tail_cons, map_append, map_cons, append_assoc, append_cancel_left_eq,
      cons_append, cons.injEq, hu] at hf
    have hlt := (pairwise_cons.mp (pairwise_cons.mp hs).2).1
    obtain ⟨z, hz, hk⟩ := Option.map_eq_some_iff.mp hf.1
    exact (hlt z (mem_of_getElem? hz)).ne' hk

-- The blocks are visited as they should be, but what comes next is right for a single key only.
theorem drain_foresees_iff (h : d.Represents ps) (hv : ∀ p ∈ ps, p.2.entries ≠ [])
    (hf : (ps.map (·.2.entries.length)).sum < fuel) :
    ∃ vs b, drain d fuel (new d) = .ok (vs, b) ∧ b.AtEnd d ∧
      vs.map (fun v => (v.key, v.typ, v.entry)) =
        (ps.flatMap fun p => p.2.entries.map ((p.2.key, p.2.type, ·))) ∧
      (Foresees vs ↔ ps.length ≤ 1) := by
  have ⟨b, hd, hend⟩ := drain_blocks h hv hf
  refine ⟨_, b, hd, hend, by rw [map_visits, flatMap_map], ?_⟩
  rw [foresees_visits_iff (pairwise_map.mpr h.sorted) (forall_mem_map.mpr hv), length_map]

def oneKey : List IndexBlock :=
  twoKeys.take 1

theorem drain_foresees_oneKey :
    ∃ d, unmarshalBinary (oneKey.flatMap (·.encode)) = .ok d ∧
      ∃ vs b, drain d 3 (new d) = .ok (vs, b) ∧ b.AtEnd d ∧
        vs.map (fun v => (v.key, v.typ, v.entry)) =
          [([97], 0, ⟨1, 2, 5, 9⟩), ([97], 0, ⟨3, 4, 14, 9⟩)] ∧
        Foresees vs := by
  have hv : ∀ x ∈ oneKey, x.Valid :=
    forall_mem_singleton.mpr ⟨by decide, by decide, cons_ne_nil _ _⟩
  obtain ⟨d, hd, hr, _⟩ := unmarshalBinary_eq (cons_ne_nil _ _) (by decide) hv
    (by decide)
  have hs : ((place 0 oneKey).map (·.2.entries.length)).sum < 3 := by decide
  obtain ⟨vs, b, hb, hend, hm, hf⟩ := drain_foresees_iff hr (by decide) hs
  exact ⟨d, hd, vs, b, hb, hend, hm, hf.mpr (by decide)⟩

theorem twoKeys_not_foreseen :
    ∃ d, unmarshalBinary (twoKeys.flatMap (·.encode)) = .ok d ∧
      ∃ vs b, drain d 4 (new d) = .ok (vs, b) ∧ vs.map (·.key) = [[97], [97], [98]] ∧
        vs.map (·.peeked) = [some [97], none, none] ∧ ¬Foresees vs := by
  obtain ⟨d, hd, hr⟩ := represents_twoKeys
  have hs : ((place 0 twoKeys).map (·.2.entries.length)).sum < 4 := by decide
  obtain ⟨b, hb, _⟩ := drain_blocks hr (by decide) hs
  exact ⟨d, hd, _, b, hb, rfl, rfl, by decide⟩

end Foreseen

section Written

variable {keys : List Bytes} {codec : BlockCodec} {ws : List (Bytes × Values)} {file : Bytes}

theorem flatMap_filter_key {l : List Placed} (hk : keys.Pairwise (· < ·))
    (hl : l.Pairwise (·.key ≤ ·.key)) (hm : ∀ p ∈ l, p.key ∈ keys) :
    keys.flatMap (fun k => l.filter (·.key = k)) = l := by
  induction l
  case nil => simp
  case cons p l hi =>
    have ⟨hp, hl⟩ := pairwise_cons.mp hl
    have ⟨hpk, hm⟩ := forall_mem_cons.mp hm
    have hi := hi hl hm
    obtain ⟨s, t, rfl⟩ := append_of_mem hpk
    have ⟨_, ht, hst⟩ := pairwise_append.mp hk
    have hs : ∀ k ∈ s, (p :: l).filter (·.key = k) = [] ∧ l.filter (·.key = k) = [] := by
      intro k hks
      have hlt := hst k hks p.key mem_cons_self
      have hn : ∀ q ∈ l, q.key ≠ k := fun q hq => (hlt.trans_le (hp q hq)).ne'
      simpa [hlt.ne'] using hn
    have ht : ∀ k ∈ t, (p :: l).filter (·.key = k) = l.filter (·.key = k) := fun k hkt =>
      filter_cons_of_neg (by simpa using ((pairwise_cons.mp ht).left k hkt).ne)
    rw [flatMap_append, flatMap_eq_nil_iff.mpr fun k h => (hs k h).right, flatMap_cons] at hi
    rw [flatMap_append, flatMap_eq_nil_iff.mpr fun k h => (hs k h).left, flatMap_cons,
      filter_cons_of_pos (by simp), flatMap_congr ht, nil_append, cons_append]
    exact congrArg _ hi

theorem map_visits_layout (ho : Opens codec ws file keys d)
    (hl : (layout codec ws).Pairwise (·.key ≤ ·.key)) :
    (visits (keys.map (blockOf (layout codec ws)))).map (fun v => (v.key, v.entry)) =
      (layout codec ws).map fun p => (p.key, p.entry) := by
  have hm : ∀ p ∈ layout codec ws, p.key ∈ keys := fun p hp => (ho.mem p.key).mpr ⟨p, hp, rfl⟩
  have hv := map_visits (keys.map (blockOf (layout codec ws)))
  have hv := congrArg (map fun v => (v.1, v.2.2)) hv
  rw [map_map, map_flatMap, flatMap_map] at hv
  refine hv.trans ?_
  nth_rewrite 4 [← flatMap_filter_key ho.sorted hl hm]
  rw [map_flatMap]
  refine flatMap_congr fun k _ => ?_
  rw [blockOf, map_map, map_map]
  exact map_congr_left fun p hp => by simpa using (of_decide_eq_true (mem_filter.mp hp).right).symm

theorem drain_writeFile {fs : FixedSearch} (h : Writable ws)
    (hw : TSMWriter.writeFile codec ws = .ok file) (hs : Addressable codec ws file)
    (hf : ws.length < fuel) :
    ∃ r, TSMReader.new fs file [] = .ok r ∧ ∃ vs b, drain r.index fuel (new r.index) = .ok (vs, b) ∧
      b.AtEnd r.index ∧ vs.mapM (fun v => do return (v.key, ← r.readBlock codec v.entry)) =
        .ok (ws.filter (·.2 ≠ [])) := by
  have ⟨ks, d, ho⟩ := h.opens hw hs
  have ⟨rest, hb⟩ := ho.bytes
  have hm := map_visits_layout ho h.pairwise_layout
  have hl : ∀ p ∈ layout codec ws, p.Laid codec (layout codec ws) := laid_foldl nofun
  have hlay : (layout codec ws).map (fun p => (p.key, p.values)) = ws.filter (·.2 ≠ []) :=
    map_foldl ho.encodes
  have hps := map_snd_place 0 (ks.map (blockOf (layout codec ws)))
  have hne : ∀ p ∈ place 0 (ks.map (blockOf (layout codec ws))),
      p.2.entries ≠ [] := by
    intro p hp
    have ⟨k, hk, he⟩ := mem_map.mp (hps ▸ mem_map_of_mem hp)
    have ⟨q, hq, hqk⟩ := (ho.mem k).mp hk
    rw [← he]
    exact ne_nil_of_mem <| mem_map_of_mem <| mem_filter.mpr ⟨hq, decide_eq_true hqk⟩
  have hsum : ((place 0 (ks.map (blockOf (layout codec ws)))).map
      (·.2.entries.length)).sum < fuel := by
    have hv := congrArg List.length (map_visits (ks.map (blockOf (layout codec ws))))
    have hlen := congrArg List.length hm
    have hle := length_filter_le (fun w => decide (w.2 ≠ [])) ws
    rw [← hps] at hv hlen
    rw [← hlay] at hle
    simp only [length_map, length_flatMap, map_map] at hv hlen hle
    exact ((hv.symm.trans hlen).trans_le hle).trans_lt hf
  have ⟨b, hd, hend⟩ := drain_blocks ho.represents hne hsum
  refine ⟨_, TSMReader.new_eq ho.opens, _, b, hd, hend, ?_⟩
  · rw [hps, ← hlay]
    have hr (p) (hp : p ∈ layout codec ws) :
        TSMReader.readBlock codec ⟨file, d, []⟩ p.entry = .ok p.values :=
      TSMReader.readBlock_entry (hl p hp) hb hs.positions (hs.blocks p hp)
    have hd := congrArg (mapM fun v => do
      return (v.1, ← TSMReader.readBlock codec ⟨file, d, []⟩ v.2)) hm
    rw [mapM_map, mapM_map] at hd
    exact hd.trans (Go.mapM_eq_ok fun p hp => by simp only [Function.comp_apply, hr p hp]; rfl)

theorem drain_writeFile_sample : TSMWriter.writeFile integers sampleWrites = .ok sampleFile ∧
    ∃ r, TSMReader.new linear sampleFile [] = .ok r ∧
      ∃ vs b, drain r.index 5 (new r.index) = .ok (vs, b) ∧ b.AtEnd r.index ∧
        vs.mapM (fun v => do return (v.key, ← r.readBlock integers v.entry)) =
          .ok [([97], [(1, .integer 5), (2, .integer 6)]), ([97], [(3, .integer (-1))]),
            ([98], [(1, .integer 7)])] :=
  ⟨writeFile_sampleWrites, drain_writeFile writable_sampleWrites writeFile_sampleWrites
    addressable_sampleFile (by decide)⟩

end Written

end BlockIterator

end Tsm1
