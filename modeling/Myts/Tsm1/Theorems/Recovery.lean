import Myts.Lib.Literals
import Myts.Tsm1.Recovery
import Myts.Tsm1.Theorems.Cache
import Myts.Tsm1.Theorems.WalEntry

open List

namespace Tsm1

variable {s : Snappy} {r : WALSegmentReader}

theorem readFull_append (h : x.length = n) : readFull n (x ++ b) = .ok (x, b) := by
  subst h
  rw [readFull, if_pos (by simp), List.take_left, drop_left]

theorem readFull_eq_ok (h : readFull n b = .ok (x, y)) : x.length = n ∧ b = x ++ y := by
  rw [readFull] at h
  split_ifs at h
  cases h
  exact ⟨length_take_of_le ‹_›, (take_append_drop n b).symm⟩

theorem eq_nil_of_readFull (h : readFull n b = .error .eof) : b = [] := by
  rw [readFull] at h
  split_ifs at h with _ hb
  · exact hb
  · cases h

namespace WALSegmentReader

theorem next_nil (h : r.r = []) : r.next s = .ok (false, { r with r := [] }) := by
  rw [next, h]
  rfl

theorem next_record (h : Record s x e) (hr : r.r = x ++ rest) :
    r.next s =
      .ok (true, { r := rest, entry := some e, n := r.n + x.length, err := none }) := by
  have ⟨type, l, b, n, data, hx, hl, hb, hn, hd, he⟩ := h.valid
  have h₁ : readFull 5 r.r = .ok (type :: l, b ++ rest) := by
    rw [hr, hx, cons_append, append_assoc, ← cons_append]
    exact readFull_append (by simp [hl])
  have h₂ : readFull (Bytes.uint32 l) (b ++ rest) = .ok (b, rest) := readFull_append hb
  have hlen : x.length = 5 + Bytes.uint32 l := by
    rw [hx, length_cons, length_append, hl, hb]
    omega
  have h₃ : (type :: l).drop 1 = l := rfl
  rw [next, h₁]
  dsimp only [headD_cons]
  rw [h₃, h₂]
  dsimp only
  rw [decompress, hn]
  dsimp only
  rw [hd]
  dsimp only
  rw [he, hlen]
  rfl

theorem next_invalid (hr : r.r ≠ []) (h : ∀ x e rest, r.r = x ++ rest → ¬Record s x e) :
    ∃ r' e, r.next s = .ok (true, r') ∧ r'.err = some e ∧ r'.n = r.n := by
  rw [next]
  rcases h₁ : readFull 5 r.r with e | ⟨lv, b⟩
  case error =>
    cases e
    case eof => exact (hr <| eq_nil_of_readFull h₁).elim
    case unexpectedEOF => exact ⟨_, _, rfl, rfl, rfl⟩
  case ok =>
    dsimp only
    rcases h₂ : readFull (Bytes.uint32 (lv.drop 1)) b with e | ⟨p, rest⟩
    case error => exact ⟨_, _, rfl, rfl, rfl⟩
    case ok =>
      dsimp only
      rw [decompress]
      cases hn : s.decodedLen p
      case error => exact ⟨_, _, rfl, rfl, rfl⟩
      case ok n =>
        dsimp only
        cases hd : s.decode p
        case error => exact ⟨_, _, rfl, rfl, rfl⟩
        case ok data =>
          dsimp only
          rcases he : WALEntry.unmarshalBinary (lv.headD 0) data with (e | _) | e
          case error.error => exact ⟨_, _, rfl, rfl, rfl⟩
          case error.panic =>
            have : (WALEntry.unmarshalBinary (lv.headD 0) data).Safe := WALEntry.safe_unmarshalBinary
            rw [he] at this
            cases this
          case ok =>
            have ⟨hl₁, hb₁⟩ := readFull_eq_ok h₁
            have ⟨hl₂, hb₂⟩ := readFull_eq_ok h₂
            cases lv
            case nil => cases hl₁
            case cons t lv =>
              refine (h (t :: (lv ++ p)) e rest ?_ ⟨t, lv, p, n, data, rfl, ?_, hl₂, hn, hd, he⟩).elim
              · rw [hb₁, hb₂]; simp
              · simpa using hl₁

theorem safe_next : (r.next s).Safe := by
  by_cases hr : r.r = []
  case pos => rw [next_nil hr]; trivial
  case neg =>
    by_cases h : ∃ x e rest, r.r = x ++ rest ∧ Record s x e
    case pos =>
      have ⟨x, e, rest, hx, h⟩ := h
      rw [next_record h hx]
      trivial
    case neg =>
      push Not at h
      have ⟨r', e, hn, _⟩ := next_invalid hr h
      rw [hn]
      trivial

end WALSegmentReader

theorem Record.length (h : Record s x e) : 5 ≤ x.length := by
  have ⟨type, l, b, n, data, hx, hl, _⟩ := h.valid
  rw [hx, length_cons, length_append]
  omega

theorem Record.unique (h : Record s x e) (h' : Record s x' e') (he : x ++ rest = x' ++ rest') :
    x = x' ∧ e = e' ∧ rest = rest' := by
  have ⟨type, l, b, n, data, hx, hl, hb, hn, hd, hu⟩ := h.valid
  have ⟨type', l', b', n', data', hx', hl', hb', hn', hd', hu'⟩ := h'.valid
  subst hx hx'
  simp only [cons_append, append_assoc, List.cons.injEq] at he
  have ⟨ht, he'⟩ := he
  have ⟨hll, he''⟩ := List.append_inj he' (hl.trans hl'.symm)
  subst ht hll
  have ⟨hbb, hrest⟩ := List.append_inj he'' (hb.trans hb'.symm)
  subst hbb
  cases hd.symm.trans hd'
  cases hu.symm.trans hu'
  exact ⟨rfl, rfl, hrest⟩

namespace Decodes

theorem unique (h : Decodes s b es rest) (h' : Decodes s b es' rest') : es = es' ∧ rest = rest' := by
  induction h generalizing es' rest'
  case nil b hn =>
    cases h'
    case nil => exact ⟨rfl, rfl⟩
    case cons hr hd => exact (hn _ _ _ rfl hr).elim
  case cons x e b es rest hr hd hi =>
    generalize hb : x ++ b = c at h'
    cases h'
    case nil hn => exact (hn _ _ _ hb.symm hr).elim
    case cons x' e' b' es' hr' hd' =>
      have ⟨_, he, hbb⟩ := hr.unique hr' hb
      have ⟨hes, hrest⟩ := hi (hbb ▸ hd')
      exact ⟨by rw [he, hes], hrest⟩

theorem exists_of (s : Snappy) (b : Bytes) : ∃ es rest, Decodes s b es rest := by
  induction hn : b.length using Nat.strong_induction_on generalizing b
  case _ n hi =>
    by_cases h : ∃ x e rest, b = x ++ rest ∧ Record s x e
    case pos =>
      have ⟨x, e, c, hb, h⟩ := h
      have hl := h.length
      have ⟨es, rest, hd⟩ := hi c.length (by rw [← hn, hb, length_append]; omega) c rfl
      exact ⟨e :: es, rest, hb ▸ .cons h hd⟩
    case neg =>
      push Not at h
      exact ⟨[], b, .nil h⟩

theorem append (h : Decodes s b es rest) : ∃ x, b = x ++ rest ∧ Decodes s x es [] := by
  induction h
  case nil b h =>
    refine ⟨[], rfl, .nil fun x e rest hx hr => ?_⟩
    have hl := hr.length
    rw [(append_eq_nil_iff.mp hx.symm).1] at hl
    cases hl
  case cons x e b es rest hr h hi =>
    have ⟨y, hb, hd⟩ := hi
    exact ⟨x ++ y, by rw [hb, append_assoc], .cons hr hd⟩

end Decodes

def Accepted : Cache → List WALEntry → Prop
  | _, [] => True
  | c, e :: es => (c.load (·.ascending) e).2 = none ∧ Accepted (c.load (·.ascending) e).1 es

theorem load_eq {c : Cache} {ks : GoMap Bytes Values → List Bytes}
    (h : ∀ m : GoMap Bytes Values, m.Visits (ks m)) (he : (c.load (·.ascending) e).2 = none) :
    c.load ks e = c.load (·.ascending) e := by
  cases e
  case write m => exact (Cache.writeMulti_eq m.visits_ascending (h m) he).symm
  all_goals rfl

theorem accepted_append : Accepted c (es ++ es') ↔ Accepted c es ∧ Accepted (c.apply es) es' := by
  induction es generalizing c
  case nil => exact (and_iff_right trivial).symm
  case cons e es hi => rw [cons_append, Accepted, Accepted, hi, and_assoc]; rfl

theorem Cache.apply_append {c : Cache} : c.apply (es ++ es') = (c.apply es).apply es' :=
  foldl_append

section Types

def Kind.valueType : Kind → Nat
  | .float64 => 1
  | .integer => 2
  | .string => 3
  | .boolean => 4
  | .unsigned => 0

theorem Value.valueType_eq (v : Value) : v.valueType = v.kind.valueType := by
  cases v <;> rfl

variable {kind : Bytes → Kind} {c : Cache}

structure Typed (kind : Bytes → Kind) (c : Cache) : Prop where
  maxSize : c.maxSize = 0
  vtype : ∀ k e, c.store.lookup k = some e → e.vtype = (kind k).valueType

structure OfKind (kind : Kind) (vs : Values) : Prop where
  ne_nil : vs ≠ []
  kind : ∀ v ∈ vs, v.2.kind = kind

theorem entryWrite_of_kind {t : Kind} (h : OfKind t vs) (he : ∀ e ∈ o, e.vtype = t.valueType) :
    ∃ new e, Cache.entryWrite o vs = .ok (new, e) ∧ e.vtype = t.valueType := by
  have hv (v) (hv : v ∈ vs) : v.2.valueType = t.valueType := by
    rw [Value.valueType_eq, h.kind v hv]
  cases o
  case some e =>
    have he := he e rfl
    have ha : e.add vs = .ok { e with values := e.values ++ vs } := if_pos (he ▸ hv)
    exact ⟨false, { e with values := e.values ++ vs }, by rw [Cache.entryWrite, ha]; rfl, he⟩
  case none =>
    cases vs
    case nil => exact (h.ne_nil rfl).elim
    case cons v vs =>
      have hv₀ := hv v mem_cons_self
      have hn : Entry.newEntryValues (v :: vs) =
          .ok { values := v :: vs, vtype := v.2.valueType } := if_pos (hv₀ ▸ hv)
      exact ⟨true, _, by rw [Cache.entryWrite, hn]; rfl, hv₀⟩

theorem Typed.insert (h : Typed kind c) (he : e.vtype = (kind k).valueType) :
    Typed kind { c with store := c.store.insert k e, size := n, wrapped := b } where
  maxSize := h.maxSize
  vtype k' e' hl := by
    by_cases hk : k' = k
    case pos =>
      subst hk
      rw [Finmap.lookup_insert] at hl
      cases hl
      exact he
    case neg =>
      rw [Finmap.lookup_insert_of_ne _ hk] at hl
      exact h.vtype k' e' hl

theorem Typed.erase (h : Typed kind c) :
    Typed kind { c with store := c.store.erase k, size := n, wrapped := b } where
  maxSize := h.maxSize
  vtype k' e' hl := by
    by_cases hk : k' = k
    case pos => subst hk; simp at hl
    case neg =>
      rw [Finmap.lookup_erase_ne hk] at hl
      exact h.vtype k' e' hl

theorem Typed.writeKeys {kvs : List (Bytes × Values)} (h : Typed kind c)
    (hk : ∀ kv ∈ kvs, OfKind (kind kv.1) kv.2) :
    ∃ c', kvs.foldl Cache.writeKey (c, none) = (c', none) ∧ Typed kind c' := by
  induction kvs generalizing c
  case nil => exact ⟨c, rfl, h⟩
  case cons kv kvs hi =>
    have ⟨new, e, hw, he⟩ :=
      entryWrite_of_kind (hk kv mem_cons_self) fun e he => h.vtype kv.1 e he
    rw [foldl_cons, Cache.writeKey_eq, hw]
    exact hi (h.insert he) fun kv hkv => hk kv <| mem_cons_of_mem _ hkv

theorem Typed.deleteRange {keys : List Bytes} (h : Typed kind c) :
    Typed kind (c.deleteRange keys t₁ t₂) := by
  rw [Cache.deleteRange]
  induction keys generalizing c
  case nil => exact h
  case cons k keys hi =>
    refine hi ?_
    rw [Cache.deleteKey]
    split
    case h_1 => exact h
    case h_2 e hl =>
      split
      case isTrue => exact h.erase
      case isFalse =>
        dsimp only
        split
        case isTrue => exact h.erase
        case isFalse => exact h.insert (h.vtype k e hl)

theorem Typed.load {e : WALEntry} (h : Typed kind c) (he : ∀ values, e = .write values → ∀ k vs,
    values.lookup k = some vs → OfKind (kind k) vs) :
    (c.load (·.ascending) e).2 = none ∧ Typed kind (c.load (·.ascending) e).1 := by
  cases e
  case delete => exact ⟨rfl, h.deleteRange⟩
  case deleteRange => exact ⟨rfl, h.deleteRange⟩
  case write m =>
    have hk : ∀ kv ∈ m.ascending.map fun k => (k, (m.lookup k).getD []),
        OfKind (kind kv.1) kv.2 := by
      rw [forall_mem_map]
      intro k hk
      obtain ⟨vs, hl⟩ := Finmap.mem_iff.mp <| m.visits_ascending.mem_iff.mp hk
      rw [hl]
      exact he m rfl k vs hl
    rw [Cache.load, Cache.writeMulti]
    generalize (m.ascending.map fun k => (k, (m.lookup k).getD [])) = kvs at hk
    have hl : c.limit (Cache.addedSize kvs) = none :=
      if_neg fun hm => by simp [h.maxSize] at hm
    rw [hl]
    dsimp only
    have ht : Typed kind (c.increaseSize (Cache.addedSize kvs)) :=
      { maxSize := h.maxSize, vtype := h.vtype }
    obtain ⟨c', hc, ht⟩ := ht.writeKeys hk
    rw [hc]
    exact ⟨rfl, ht⟩

theorem Typed.accepted (h : Typed kind c) (he : ∀ values, .write values ∈ es → ∀ k vs,
    values.lookup k = some vs → OfKind (kind k) vs) : Accepted c es := by
  induction es generalizing c
  case nil => trivial
  case cons e es hi =>
    have ⟨hn, ht⟩ := h.load fun m hm => he m <| hm ▸ mem_cons_self
    exact ⟨hn, hi ht fun m hm => he m <| mem_cons_of_mem _ hm⟩

end Types

namespace CacheLoader

variable {c : Cache} {order : Order}

theorem loadEntries_eq (ho : order.Visits) (hd : Decodes s b es rest)
    (hf : file = pre ++ b) (hr : r.r = b) (hn : r.n = pre.length) (ha : Accepted c es)
    (hfuel : b.length < fuel) :
    loadEntries s order file fuel r c =
      .ok (c.apply es, kept file rest, none) := by
  induction hd generalizing pre r c fuel
  case nil b h =>
    cases fuel
    case zero => cases hfuel
    case succ fuel =>
      have ht : kept file b = pre := by
        rw [kept, hf, length_append, Nat.add_sub_cancel, List.take_left]
      rw [loadEntries, ht]
      by_cases hb : b = []
      case pos =>
        have hp : file = pre := by rw [hf, hb, append_nil]
        rw [WALSegmentReader.next_nil (hr.trans hb), Go.ok_bind, hp]
        rfl
      case neg =>
        have ⟨r', e, hr', he, hn'⟩ := WALSegmentReader.next_invalid (hr ▸ hb) (hr ▸ h)
        have hp : file.take r'.n = pre := by rw [hn', hn, hf, List.take_left]
        rw [hr', Go.ok_bind]
        dsimp only
        rw [if_pos rfl, WALSegmentReader.read, he]
        dsimp only
        rw [hp]
        rfl
  case cons x e b es rest hx hd hi =>
    cases fuel
    case zero => cases hfuel
    case succ fuel =>
      have hl := hx.length
      rw [length_append] at hfuel
      rw [loadEntries, WALSegmentReader.next_record hx hr, Go.ok_bind]
      dsimp only
      rw [if_pos rfl, WALSegmentReader.read]
      dsimp only
      have ⟨hc, ha⟩ := ha
      rw [load_eq (ho _) hc]
      have happ : c.apply (e :: es) = (c.load (·.ascending) e).1.apply es := rfl
      rw [happ]
      generalize c.load (·.ascending) e = r at hc ha
      have ⟨c', err⟩ := r
      cases hc
      rw [← append_assoc] at hf
      exact hi hf rfl (by rw [hn, length_append]) ha (by omega)

theorem loadFile_eq (ho : order.Visits) (hd : Decodes s file es rest) (ha : Accepted c es) :
    loadFile s order c file = .ok (c.apply es, kept file rest, none) := by
  rw [loadFile]
  split
  case isFalse => exact loadEntries_eq ho hd (nil_append file).symm rfl rfl ha (Nat.lt_succ_self _)
  case isTrue h =>
    rw [← loadEntries_eq (r := .reset file) ho hd (nil_append file).symm rfl rfl ha
      (Nat.lt_succ_self _), loadEntries, WALSegmentReader.next_nil (by rw [h]; rfl)]
    rfl

theorem load_files {orders : Nat → Order} (ho : ∀ i, (orders i).Visits)
    {segs : List (List WALEntry × Bytes)}
    (hd : List.Forall₂ (fun file seg => Decodes s file seg.1 seg.2) files segs)
    (ha : Accepted c (segs.flatMap (·.1))) :
    load s orders files c =
      .ok (c.apply (segs.flatMap (·.1)), List.zipWith (kept · ·.2) files segs, none) := by
  induction hd generalizing c
  case nil => rfl
  case cons file seg files segs hd hds hi =>
    rw [flatMap_cons] at ha ⊢
    have ⟨ha₁, ha₂⟩ := accepted_append.mp ha
    rw [load, loadFile_eq (ho _) hd ha₁, Go.ok_bind]
    dsimp only
    rw [hi ha₂, Go.ok_bind, Cache.apply_append]
    rfl

theorem safe_loadEntries : (loadEntries s order file fuel r c).Safe := by
  induction fuel generalizing r c
  case zero => trivial
  case succ fuel hi =>
    rw [loadEntries]
    refine WALSegmentReader.safe_next.bind fun ⟨more, r'⟩ _ => ?_
    dsimp only
    split
    case isFalse => trivial
    case isTrue =>
      split
      case h_1 => trivial
      case h_2 => exact hi
      case h_3 =>
        split
        case h_1 => trivial
        case h_2 => exact hi

theorem safe_load : (load s orders files c).Safe := by
  induction files generalizing c
  case nil => trivial
  case cons file files hi =>
    have hf : (loadFile s (orders files.length) c file).Safe := by
      rw [loadFile]
      split
      case isTrue => trivial
      case isFalse => exact safe_loadEntries
    rw [load]
    refine hf.bind fun ⟨c', file', err⟩ _ => ?_
    cases err
    case some => trivial
    case none => exact hi.bind fun _ _ => trivial

theorem exists_forall₂ (s : Snappy) (files : List Bytes) : ∃ segs : List (List WALEntry × Bytes),
    List.Forall₂ (fun file seg => Decodes s file seg.1 seg.2) files segs := by
  induction files
  case nil => exact ⟨[], .nil⟩
  case cons file files hi =>
    have ⟨es, rest, hd⟩ := Decodes.exists_of s file
    have ⟨segs, hs⟩ := hi
    exact ⟨(es, rest) :: segs, .cons hd hs⟩

theorem forall₂_kept {segs : List (List WALEntry × Bytes)}
    (h : List.Forall₂ (fun file seg => Decodes s file seg.1 seg.2) files segs) :
    let files' := List.zipWith (kept · ·.2) files segs
    let segs' := segs.map fun seg => (seg.1, ([] : Bytes))
    List.Forall₂ (fun file seg => Decodes s file seg.1 seg.2) files' segs' ∧
      List.zipWith (kept · ·.2) files' segs' = files' ∧ segs'.flatMap (·.1) = segs.flatMap (·.1) := by
  induction h
  case nil => exact ⟨.nil, rfl, rfl⟩
  case cons file seg files segs hd hds hi =>
    have ⟨hf, hk, he⟩ := hi
    have ⟨x, hx, hd⟩ := hd.append
    have hkept : kept file seg.2 = x := by
      rw [kept, hx, length_append, Nat.add_sub_cancel, List.take_left]
    refine ⟨.cons ?_ hf, ?_, ?_⟩
    · dsimp only
      rwa [hkept]
    · refine cons_eq_cons.mpr ⟨?_, hk⟩
      dsimp only
      rw [kept, length_nil, Nat.sub_zero, take_length]
    · exact congrArg (seg.1 ++ ·) he

theorem ne_nil_of_write {typ : UInt8} (h : WALEntry.unmarshalBinary typ b = .ok (.write values))
    (hl : values.lookup k = some vs) : vs ≠ [] := by
  rw [WALEntry.unmarshalBinary] at h
  split_ifs at h
  · obtain ⟨m, hm, he⟩ := Go.map_eq_ok.mp h
    cases he
    exact WriteWALEntry.unmarshalBinary_ne_nil hm hl
  · cases h
  · obtain ⟨r, _, he⟩ := Go.map_eq_ok.mp h
    cases he
  · cases h

theorem ne_nil_of_decodes (h : Decodes s file es rest) (he : .write values ∈ es)
    (hl : values.lookup k = some vs) : vs ≠ [] := by
  induction h
  case nil => cases he
  case cons x e b es rest hr h hi =>
    rcases mem_cons.mp he with rfl | he
    case inr => exact hi he
    case inl =>
      have ⟨type, _, _, _, data, _, _, _, _, _, hu⟩ := hr.valid
      exact ne_nil_of_write hu hl

theorem ne_nil_of_mem {segs : List (List WALEntry × Bytes)}
    (hs : List.Forall₂ (fun file seg => Decodes s file seg.1 seg.2) files segs)
    (he : .write values ∈ segs.flatMap (·.1)) (hl : values.lookup k = some vs) : vs ≠ [] := by
  induction hs
  case nil => cases he
  case cons file seg files segs hd hds hi =>
    rcases mem_append.mp (flatMap_cons ▸ he) with he | he
    case inl => exact ne_nil_of_decodes hd he hl
    case inr => exact hi he

theorem load_valid_entries (s : Snappy) (files : List Bytes) :
    (∀ orders c, (load s orders files c).Safe) ∧
    (∀ (a : Values) (t₁ t₂ : Int64), ∀ r ∈ Values.findRange a t₁ t₂,
      r.1 ≤ Values.rangeEnd a t₂ r.2) ∧
    ∃ segs : List (List WALEntry × Bytes),
      List.Forall₂ (fun file seg => Decodes s file seg.1 seg.2) files segs ∧
      (OneType (segs.flatMap (·.1)) →
        let c := (Cache.newCache 0).apply (segs.flatMap (·.1))
        let files' := List.zipWith (kept · ·.2) files segs
        ∀ orders orders', (∀ i, (orders i).Visits) → (∀ i, (orders' i).Visits) →
          load s orders files (.newCache 0) = .ok (c, files', none) ∧
          load s orders' files' (.newCache 0) = .ok (c, files', none)) := by
  have ⟨segs, hs⟩ := exists_forall₂ s files
  refine ⟨fun _ _ => safe_load, fun a t₁ t₂ r hr => Values.findRange_le hr, segs, hs, ?_⟩
  intro ⟨kind, hk⟩ c files' orders orders' ho ho'
  have hw : ∀ values, .write values ∈ segs.flatMap (·.1) → ∀ k vs, values.lookup k = some vs →
      OfKind (kind k) vs := fun values hv k vs hl =>
    { ne_nil := ne_nil_of_mem hs hv hl, kind := hk values hv k vs hl }
  have ha : Accepted (.newCache 0) (segs.flatMap (·.1)) :=
    Typed.accepted { maxSize := rfl, vtype := fun k e hl => by cases hl } hw
  have ⟨hs', hk', he'⟩ := forall₂_kept hs
  refine ⟨load_files ho hs ha, ?_⟩
  rw [load_files ho' hs' (he' ▸ ha), hk', he']

end CacheLoader

structure TornSegment where
  entries : List (WALEntry × List Bytes)
  frames : List Bytes
  cut : Nat

namespace TornSegment

def file (g : TornSegment) : Bytes :=
  g.frames.flatten.take g.cut

def whole : List Bytes → Nat → Nat
  | [], _ => 0
  | x :: xs, k => if x.length ≤ k then whole xs (k - x.length) + 1 else 0

def survivors (g : TornSegment) : List WALEntry :=
  (g.entries.map (·.1)).take (whole g.frames g.cut)

def Written (z : SnappyCodec) (g : TornSegment) : Prop :=
  List.Forall₂ (fun x e => e.1.Valid ∧ e.1.Visits e.2 ∧ e.1.Fits ∧ e.1.frame z e.2 = .ok x ∧
    x.length < 2 ^ 32) g.frames g.entries

end TornSegment

section Durability

variable {z : SnappyCodec}

theorem record_frame (hv : e.Valid) (ho : e.Visits ks) (hf : e.Fits) (hx : e.frame z ks = .ok x)
    (hl : x.length < 2 ^ 32) : Record z.toSnappy x e := by
  have ⟨b, hb, hu⟩ := WALEntry.unmarshalBinary_encode_iff hv ho []
  rw [WALEntry.frame, hb, Go.ok_bind] at hx
  cases hx
  refine ⟨e.type, _, _, _, b, rfl, by simp, ?_, z.length b, z.lossless b, hu.mpr hf⟩
  rw [Bytes.uint32_putUint32, Nat.mod_eq_of_lt]
  simp only [WALSegmentWriter.frame, length_cons, length_append, Bytes.length_putUint32] at hl
  omega

theorem Record.not_of_take (h : Record s x e) (hk : k < x.length) :
    ∀ y e' rest, x.take k = y ++ rest → ¬Record s y e' := by
  intro y e' rest hy h'
  have he : x ++ [] = y ++ (rest ++ x.drop k) := by
    rw [append_nil, ← append_assoc, ← hy, take_append_drop]
  have hx := (h.unique h' he).left
  have hl := congrArg List.length hy
  rw [length_take, length_append, ← hx] at hl
  omega

theorem decodes_take {xs : List Bytes} (h : List.Forall₂ (Record s) xs es) (k : Nat) :
    ∃ rest, Decodes s (xs.flatten.take k) (es.take (TornSegment.whole xs k)) rest ∧
      xs.flatten.take k = (xs.take (TornSegment.whole xs k)).flatten ++ rest := by
  induction h generalizing k
  case nil =>
    rw [flatten_nil, take_nil]
    refine ⟨[], .nil fun x e rest hx hr => ?_, rfl⟩
    have := hr.length
    simp_all
  case cons x e xs es hx h hi =>
    rw [TornSegment.whole, flatten_cons, take_append]
    split
    case isTrue hk =>
      have ⟨rest, hd, he⟩ := hi (k - x.length)
      rw [take_of_length_le hk, take_succ_cons, take_succ_cons, flatten_cons]
      exact ⟨rest, .cons hx hd, by rw [append_assoc, ← he]⟩
    case isFalse hk =>
      rw [Nat.sub_eq_zero_of_le (by omega), take_zero, append_nil, take_zero, take_zero]
      exact ⟨_, .nil (hx.not_of_take (by omega)), rfl⟩

theorem kept_append (h : b = a ++ rest) : kept b rest = a := by
  rw [kept, h, length_append, Nat.add_sub_cancel, take_left']
  rfl

namespace TornSegment

variable {g : TornSegment} {gs : List TornSegment}

def sound (g : TornSegment) : Bytes :=
  (g.frames.take (whole g.frames g.cut)).flatten

theorem le_whole_iff {xs : List Bytes} (hj : j ≤ xs.length) :
    j ≤ whole xs k ↔ (xs.take j).flatten.length ≤ k := by
  induction xs generalizing j k
  case nil => simp_all
  case cons x xs hi =>
    cases j
    case zero => simp
    case succ j =>
      rw [whole, take_succ_cons, flatten_cons, length_append]
      split
      case isTrue hk => rw [Nat.succ_le_succ_iff, hi (Nat.le_of_succ_le_succ hj)]; omega
      case isFalse hk => omega

theorem Written.decodes (h : g.Written z) :
    ∃ rest, Decodes z.toSnappy g.file g.survivors rest ∧ kept g.file rest = g.sound := by
  have hr : List.Forall₂ (Record z.toSnappy) g.frames (g.entries.map (·.1)) :=
    forall₂_map_right_iff.mpr <| h.imp fun _ _ ⟨hv, ho, hf, hx, hl⟩ => record_frame hv ho hf hx hl
  have ⟨rest, hd, he⟩ := decodes_take hr g.cut
  exact ⟨rest, hd, kept_append he⟩

theorem exists_decodes (h : ∀ g ∈ gs, g.Written z) : ∃ segs : List (List WALEntry × Bytes),
    List.Forall₂ (fun file seg => Decodes z.toSnappy file seg.1 seg.2) (gs.map file) segs ∧
      segs.map (·.1) = gs.map survivors ∧
        List.zipWith (kept · ·.2) (gs.map file) segs = gs.map sound := by
  induction gs
  case nil => exact ⟨[], .nil, rfl, rfl⟩
  case cons g gs hi =>
    have ⟨hg, hgs⟩ := forall_mem_cons.mp h
    have ⟨rest, hd, hk⟩ := hg.decodes
    have ⟨segs, hs, he, hz⟩ := hi hgs
    exact ⟨(g.survivors, rest) :: segs, .cons hd hs, congrArg _ he, congrArg₂ _ hk hz⟩

end TornSegment

-- A log that has been cut off anywhere by a crash is loaded up to the last entry of each segment
-- that is whole, and the segments are cut off behind these entries.
theorem load_torn (ho : ∀ i, (orders i).Visits) {gs : List TornSegment}
    (hw : ∀ g ∈ gs, g.Written z) (ht : OneType (gs.flatMap (·.entries.map (·.1)))) :
    (CacheLoader.load z.toSnappy orders (gs.map (·.file)) (.newCache 0) =
      .ok ((Cache.newCache 0).apply (gs.flatMap (·.survivors)), gs.map (·.sound), none)) ∧
    ∀ g ∈ gs, ∀ j ≤ g.frames.length,
      j ≤ TornSegment.whole g.frames g.cut ↔ (g.frames.take j).flatten.length ≤ g.cut := by
  refine ⟨?_, fun g _ j hj => TornSegment.le_whole_iff hj⟩
  have ⟨segs, hs, he, hz⟩ := TornSegment.exists_decodes hw
  have ⟨kind, hk⟩ := ht
  have he' : segs.flatMap (·.1) = gs.flatMap (·.survivors) := by
    rw [flatMap_def, he, flatMap_def]
  have hsub : gs.flatMap (·.survivors) ⊆ gs.flatMap (·.entries.map (·.1)) := fun e hm => by
    have ⟨g, hg, hm⟩ := mem_flatMap.mp hm
    exact mem_flatMap.mpr ⟨g, hg, mem_of_mem_take hm⟩
  have ha : Accepted (.newCache 0) (segs.flatMap (·.1)) :=
    Typed.accepted { maxSize := rfl, vtype := fun k e hl => by cases hl } fun values hv k vs hl =>
      { ne_nil := CacheLoader.ne_nil_of_mem hs hv hl,
        kind := hk values (hsub (he' ▸ hv)) k vs hl }
  rw [CacheLoader.load_files ho hs ha, he', hz]

section Torn

def literals : SnappyCodec where
  decodedLen := Literals.decodedLen
  decode := Literals.decode
  encode := Literals.encode
  lossless := Literals.decode_encode
  length := Literals.decodedLen_encode

def TornSegment.ofEntries (entries : List (WALEntry × List Bytes)) (cut : Nat) : TornSegment where
  entries
  frames := entries.map fun e => (e.1.frame literals e.2).toOption.getD []
  cut

def twoSeries : GoMap Bytes Values :=
  Finmap.insert [97] [(1, .integer 5), (2, .integer 6)] (Finmap.singleton [98] [(1, .integer 7)])

def tornSegments : List TornSegment :=
  [.ofEntries [(.write twoSeries, [[98], [97]]), (.deleteRange [[97]] 2 9, []),
    (.delete [[98]], [])] 107,
   .ofEntries [(.delete [[99]], [])] 8]

def survivors : List WALEntry :=
  [.write twoSeries, .deleteRange [[97]] 2 9, .delete [[99]]]

theorem written_tornSegments : ∀ g ∈ tornSegments, g.Written literals :=
  forall_mem_cons.mpr ⟨.cons (by decide +kernel) <| .cons (by decide +kernel) <|
    .cons (by decide +kernel) .nil, forall_mem_singleton.mpr <| .cons (by decide +kernel) .nil⟩

theorem oneType_twoSeries (h : ∀ values, .write values ∈ es → values = twoSeries) : OneType es := by
  refine ⟨fun _ => .integer, fun values hm k vs hl => ?_⟩
  cases h values hm
  have hv : GoMap.Forall twoSeries fun vs => ∀ v ∈ vs, v.2.kind = .integer := by decide
  exact hv.of_lookup hl

theorem load_tornSegments :
    CacheLoader.load literals.toSnappy (fun _ _ m => m.ascending) (tornSegments.map (·.file))
      (.newCache 0) = .ok ((Cache.newCache 0).apply survivors, tornSegments.map (·.sound), none) ∧
    ((Cache.newCache 0).apply survivors).store.values [97] = [(1, .integer 5)] ∧
    tornSegments.map (·.sound) ≠ tornSegments.map (·.file) := by
  have ht : OneType (tornSegments.flatMap (·.entries.map (·.1))) :=
    oneType_twoSeries (by simp [tornSegments, TornSegment.ofEntries])
  refine ⟨(load_torn (fun _ _ m => m.visits_ascending) written_tornSegments ht).left, ?_, ?_⟩
  · decide +kernel
  · decide +kernel

theorem load_valid_entries_torn :
    let c := (Cache.newCache 0).apply survivors
    let files := tornSegments.map (·.sound)
    CacheLoader.load literals.toSnappy (fun _ _ m => m.ascending) (tornSegments.map (·.file))
      (.newCache 0) = .ok (c, files, none) ∧
    CacheLoader.load literals.toSnappy (fun _ _ m => m.ascending) files (.newCache 0) =
      .ok (c, files, none) := by
  have ⟨_, _, segs, hs, h⟩ :=
    CacheLoader.load_valid_entries literals.toSnappy (tornSegments.map (·.file))
  have ⟨segs', hs', he, hz⟩ := TornSegment.exists_decodes written_tornSegments
  have hu : Relator.RightUnique fun file (seg : List WALEntry × Bytes) =>
      Decodes literals.toSnappy file seg.1 seg.2 := fun _ _ _ h h' =>
    have ⟨he, hr⟩ := h.unique h'
    Prod.ext he hr
  obtain rfl := right_unique_forall₂' hu hs hs'
  have hf : segs.flatMap (·.1) = survivors := by
    rw [flatMap_def, he]
    decide +kernel
  rw [hf, hz] at h
  have ho : ∀ i : Nat, Order.Visits fun _ m => m.ascending := fun _ _ m => m.visits_ascending
  exact h (oneType_twoSeries (by simp [survivors])) _ _ ho ho

end Torn

end Durability

end Tsm1
