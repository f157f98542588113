import Myts.Tsm1.WalEntry

open List

namespace Tsm1

open Bytes Go

open ByteBuffer (Writes)

theorem Kind.ofEntryType_entryType (k : Kind) : ofEntryType k.entryType = some k := by
  cases k <;> rfl

def Reads (f : Bytes → Go (α × Bytes)) (x : Bytes) (a : α) : Prop :=
  ∀ rest, f (x ++ rest) = .ok (a, rest)

theorem checkWAL_of {p : Prop} [Decidable p] (h : p) : checkWAL p = .ok () :=
  if_pos h

theorem checkWAL_eq_ok {p : Prop} [Decidable p] : checkWAL p = .ok () ↔ p := by
  rw [checkWAL]
  split <;> simp_all [fail]

theorem safe_checkWAL_bind {p : Prop} [Decidable p] {f : Unit → Go α} (h : p → (f ()).Safe) :
    (checkWAL p >>= f).Safe := by
  by_cases hp : p
  case pos => rw [checkWAL_of hp]; exact h hp
  case neg => rw [checkWAL, if_neg hp]; trivial

theorem safe_slice_bind {f : Bytes × Bytes → Go α} (hn : n ≤ b.length)
    (h : ∀ x rest, x.length = n → rest.length + n = b.length → (f (x, rest)).Safe) :
    (slice n b >>= f).Safe := by
  refine (safe_slice.mpr hn).bind fun ⟨x, rest⟩ hx => ?_
  have ⟨hl, hb⟩ := slice_eq_ok.mp hx
  exact h x rest hl (by rw [hb, length_append]; omega)

namespace WriteWALEntry

variable {vs : Values} {kv : Bytes × Values} {kvs : List (Bytes × Values)}

section Encode

def innerBytes : Value → Bytes
  | .float bits => putUint64 bits.toNat
  | .integer v => putInt64 v
  | .unsigned v => putUint64 v.toNat
  | .boolean v => [if v then 1 else 0]
  | .string v => putUint32 v.length ++ v

def valueBytes (v : Int64 × Value) : Bytes :=
  putInt64 v.1 ++ innerBytes v.2

def keyBytes (kv : Bytes × Values) : Bytes :=
  (kv.2.head?.map (·.2.kind.entryType)).toList ++ putUint16 kv.1.length ++ kv.1 ++
    putUint32 kv.2.length ++ kv.2.flatMap valueBytes

theorem writes_putInner (v : Value) : Writes (putInner · v) (innerBytes v) := by
  cases v
  case string v => exact (Writes.put _).bind (Writes.copy v)
  all_goals exact Writes.put _

theorem writes_putValue (h : kind = v.2.kind) : Writes (putValue kind · v) (valueBytes v) := by
  have hi : Writes (fun b => if kind = v.2.kind then putInner b v.2 else fail
      ("incorrect value found in " ++ kind.innerTypeName ++ " slice: " ++ v.2.kind.typeName))
      (innerBytes v.2) := by
    simp only [h, if_true]
    exact writes_putInner v.2
  exact (Writes.put _).bind hi

structure Homogeneous (vs : Values) : Prop where
  ne_nil : vs ≠ []
  kind : ∀ v ∈ vs, ∀ w ∈ vs, v.2.kind = w.2.kind

theorem writes_putKey (h : Homogeneous kv.2) : Writes (putKey · kv) (keyBytes kv) := by
  have ⟨k, vs⟩ := kv
  cases vs
  case nil => exact (h.ne_nil rfl).elim
  case cons v vs =>
    have hv : Writes (fun b => (v :: vs).foldlM (putValue v.2.kind) b)
        ((v :: vs).flatMap valueBytes) :=
      Writes.foldlM fun w hw => writes_putValue <| h.kind v mem_cons_self w hw
    have hw := (Writes.put [v.2.kind.entryType]).bind <| (Writes.put (putUint16 k.length)).bind
      <| (Writes.copy k).bind <| (Writes.put (putUint32 (v :: vs).length)).bind hv
    have hb : keyBytes (k, v :: vs) = [v.2.kind.entryType] ++ (putUint16 k.length ++ (k ++
        (putUint32 (v :: vs).length ++ (v :: vs).flatMap valueBytes))) := by
      simp [keyBytes]
    rw [hb]
    exact hw

theorem length_flatMap_const {f : α → Bytes} {l : List α} (h : ∀ a ∈ l, (f a).length = n) :
    (l.flatMap f).length = n * l.length := by
  rw [length_flatMap, map_congr_left h, map_const', sum_replicate, smul_eq_mul,
    Nat.mul_comm]

theorem mapM_stringSize (h : ∀ v ∈ vs, v.2.kind = .string) :
    vs.mapM (stringSize ·.2) = some (vs.map fun v => (innerBytes v.2).length) := by
  induction vs
  case nil => rfl
  case cons v vs hi =>
    have hv : stringSize v.2 = some (innerBytes v.2).length := by
      have := h v mem_cons_self
      cases hv : v.2 <;> simp_all [Value.kind, stringSize, innerBytes]
    rw [mapM_cons, hv, hi fun w hw => h w <| mem_cons_of_mem _ hw]
    rfl

def width : Kind → Nat
  | .boolean => 1
  | _ => 8

theorem length_innerBytes {v : Value} (h : v.kind ≠ .string) :
    (innerBytes v).length = width v.kind := by
  cases v <;> first | rfl | exact (h rfl).elim

theorem length_valueBytes (v : Int64 × Value) :
    (valueBytes v).length = 8 + (innerBytes v.2).length := by
  rw [valueBytes, length_append, length_putInt64]

theorem valuesSize_eq (h : Homogeneous vs) :
    valuesSize vs = some (vs.flatMap valueBytes).length := by
  cases vs
  case nil => exact (h.ne_nil rfl).elim
  case cons v vs =>
    have hk (w) (hw : w ∈ v :: vs) : w.2.kind = v.2.kind := h.kind w hw v mem_cons_self
    have hl (hv : v.2.kind ≠ .string) : ((v :: vs).flatMap valueBytes).length =
        (8 + width v.2.kind) * (v :: vs).length :=
      length_flatMap_const fun w hw => by
        rw [length_valueBytes, length_innerBytes (hk w hw ▸ hv), hk w hw]
    rw [valuesSize]
    cases hv : v.2.kind <;> dsimp only
    case string =>
      have hs : ((v :: vs).map fun w => (valueBytes w).length).sum =
          8 * (v :: vs).length + ((v :: vs).map fun w => (innerBytes w.2).length).sum := by
        generalize v :: vs = l
        simp only [length_valueBytes, sum_map_add, map_const', sum_replicate,
          smul_eq_mul, Nat.mul_comm]
      rw [mapM_stringSize fun w hw => hv ▸ hk w hw, length_flatMap, hs]
      rfl
    all_goals rw [hl (by simp [hv]), hv]; rfl

theorem keySize_eq (h : Homogeneous kv.2) : keySize kv = some (keyBytes kv).length := by
  have ⟨v, hv⟩ : ∃ v, kv.2.head? = some v :=
    Option.isSome_iff_exists.mp <| isSome_head?.mpr h.ne_nil
  rw [keySize, valuesSize_eq h, keyBytes, hv]
  simp
  omega

theorem marshalSize_eq (h : ∀ kv ∈ kvs, Homogeneous kv.2) :
    marshalSize kvs = (kvs.flatMap keyBytes).length := by
  have hm : kvs.mapM keySize = some (kvs.map fun kv => (keyBytes kv).length) := by
    induction kvs
    case nil => rfl
    case cons kv kvs hi =>
      rw [mapM_cons, keySize_eq (h kv mem_cons_self),
        hi fun kv hkv => h kv <| mem_cons_of_mem _ hkv]
      rfl
  rw [marshalSize, hm, length_flatMap]
  rfl

theorem encode_eq {values : GoMap Bytes Values} (ks : List Bytes) (dst : Bytes)
    (h : ∀ k ∈ ks, Homogeneous ((values.lookup k).getD [])) :
    encode values ks dst =
      .ok ((ks.map fun k => (k, (values.lookup k).getD [])).flatMap keyBytes) := by
  have hm : ∀ kv ∈ ks.map fun k => (k, (values.lookup k).getD []), Homogeneous kv.2 := by
    simpa using h
  rw [encode]
  generalize (ks.map fun k => (k, (values.lookup k).getD [])) = kvs at hm
  have hw : Writes (fun b => kvs.foldlM putKey b) (kvs.flatMap keyBytes) :=
    Writes.foldlM fun kv hkv => writes_putKey (hm kv hkv)
  have hl : (kvs.flatMap keyBytes).length ≤
      (if dst.length < marshalSize kvs then List.replicate (marshalSize kvs) 0
        else dst.take (marshalSize kvs)).length := by
    rw [marshalSize_eq hm]
    split
    case isTrue => rw [length_replicate]
    case isFalse hd => rw [length_take_of_le (not_lt.mp hd)]
  have ⟨b, hb, ho, _⟩ := hw.fill hl
  rw [hb, ok_bind, ho]
  rfl

end Encode

section Decode

theorem read_fixed {value : Bytes → Value} {w : Nat} (h : ∀ v ∈ vs,
    (innerBytes v.2).length = w ∧ value (innerBytes v.2) = v.2) :
    Reads (readFixed w value vs.length) (vs.flatMap valueBytes) vs := by
  induction vs
  case nil => exact fun rest => rfl
  case cons v vs hi =>
    intro rest
    have ⟨hl, hv⟩ := h v mem_cons_self
    rw [flatMap_cons, valueBytes, append_assoc, append_assoc,
      length_cons, readFixed, slice_append (length_putInt64 _), ok_bind]
    dsimp only
    rw [slice_append hl, ok_bind]
    dsimp only
    rw [hi (fun w hw => h w <| mem_cons_of_mem _ hw) rest, ok_bind, int64_putInt64, hv]
    rfl

theorem read_fixedValues {value : Bytes → Value} {w : Nat} (h : ∀ v ∈ vs,
    (innerBytes v.2).length = w ∧ value (innerBytes v.2) = v.2) :
    Reads (readFixedValues w value vs.length) (vs.flatMap valueBytes) vs := by
  intro rest
  have hl : (vs.flatMap valueBytes).length = (8 + w) * vs.length :=
    length_flatMap_const fun v hv => by rw [length_valueBytes, (h v hv).1]
  rw [readFixedValues, checkWAL_of (by simp [hl]), ok_bind, read_fixed h]

theorem read_strings (h : ∀ v ∈ vs, v.2.kind = .string ∧ v.2.size < 2 ^ 32 + 8) :
    Reads (readStrings vs.length) (vs.flatMap valueBytes) vs := by
  induction vs
  case nil => exact fun rest => rfl
  case cons v vs hi =>
    intro rest
    have ⟨t, w⟩ := v
    cases w <;> have ⟨hk, hs⟩ := h _ mem_cons_self <;> try cases hk
    case string w =>
      have hw : w.length < 2 ^ 32 := by
        rw [Value.size] at hs
        omega
      have hl : uint32 (putUint32 w.length) = w.length := by
        rw [uint32_putUint32, Nat.mod_eq_of_lt hw]
      rw [flatMap_cons, valueBytes, innerBytes, append_assoc, append_assoc,
        append_assoc, length_cons, readStrings,
        checkWAL_of (by simp; omega), ok_bind, slice_append (length_putInt64 _), ok_bind]
      dsimp only
      rw [slice_append (length_putUint32 _), ok_bind]
      dsimp only
      rw [hl, checkWAL_of (by simp; omega), ok_bind, checkWAL_of (by simp), ok_bind,
        slice_append rfl, ok_bind]
      dsimp only
      rw [hi (fun w hw => h w <| mem_cons_of_mem _ hw) rest, ok_bind, int64_putInt64]
      rfl

theorem read_values (h : Homogeneous vs) (hv : v ∈ vs) (hs : ∀ v ∈ vs, v.2.size < 2 ^ 32 + 8) :
    Reads (readValues vs.length · v.2.kind) (vs.flatMap valueBytes) vs := by
  have hk (w) (hw : w ∈ vs) : w.2.kind = v.2.kind := h.kind w hw v hv
  cases hkind : v.2.kind
  case string => exact read_strings fun w hw => ⟨hkind ▸ hk w hw, hs w hw⟩
  all_goals
    refine read_fixedValues fun ⟨t, w⟩ hw => ?_
    have hkw := hkind ▸ hk _ hw
    cases w <;> cases hkw
  case float64.float v => exact ⟨rfl, congrArg _ <| ofNat_uint64_putUint64 v⟩
  case integer.integer v => exact ⟨rfl, congrArg _ <| int64_putInt64 v⟩
  case unsigned.unsigned v => exact ⟨rfl, congrArg _ <| ofNat_uint64_putUint64 v⟩
  case boolean.boolean v => exact ⟨rfl, by cases v <;> rfl⟩

structure Short (kv : Bytes × Values) : Prop where
  key : kv.1.length < 2 ^ 16
  values : kv.2.length < 2 ^ 32
  size : ∀ v ∈ kv.2, v.2.size < 2 ^ 32 + 8

theorem read_key (h : Homogeneous kv.2) (hs : Short kv) (ht : kv.2.length ≤ total) :
    Reads (readKey total) (keyBytes kv) kv := by
  intro rest
  have ⟨v, hv⟩ : ∃ v, kv.2.head? = some v :=
    Option.isSome_iff_exists.mp <| isSome_head?.mpr h.ne_nil
  have hk : uint16 (putUint16 kv.1.length) = kv.1.length := by
    rw [uint16_putUint16, Nat.mod_eq_of_lt hs.key]
  have hn : uint32 (putUint32 kv.2.length) = kv.2.length := by
    rw [uint32_putUint32, Nat.mod_eq_of_lt hs.values]
  have hp : 0 < kv.2.length := length_pos_iff.mpr h.ne_nil
  have hb : keyBytes kv ++ rest = [v.2.kind.entryType] ++ (putUint16 kv.1.length ++ (kv.1 ++
      (putUint32 kv.2.length ++ (kv.2.flatMap valueBytes ++ rest)))) := by
    simp [keyBytes, hv]
  rw [hb, readKey, slice_append length_singleton, ok_bind]
  dsimp only
  rw [checkWAL_of (by simp), ok_bind, slice_append (length_putUint16 _), ok_bind]
  dsimp only
  rw [hk, checkWAL_of (by simp), ok_bind, slice_append rfl, ok_bind]
  dsimp only
  rw [checkWAL_of (by simp), ok_bind, slice_append (length_putUint32 _), ok_bind]
  dsimp only
  rw [hn, checkWAL_of ⟨hp, ht⟩, ok_bind]
  dsimp only [headD_cons]
  rw [Kind.ofEntryType_entryType]
  dsimp only
  have hr := read_values h (mem_of_head? hv) hs.size rest
  dsimp only at hr
  rw [hr, ok_bind]
  rfl

theorem length_keyBytes_pos (kv : Bytes × Values) : 0 < (keyBytes kv).length := by
  simp [keyBytes]

theorem readKeys_eq {m : GoMap Bytes Values}
    (h : ∀ kv ∈ kvs, Homogeneous kv.2 ∧ Short kv ∧ kv.2.length ≤ total)
    (hf : (kvs.flatMap keyBytes).length ≤ fuel) :
    readKeys total fuel (kvs.flatMap keyBytes) m =
      .ok (kvs.foldl (fun m kv => m.insert kv.1 kv.2) m) := by
  induction kvs generalizing m fuel
  case nil => cases fuel <;> rfl
  case cons kv kvs hi =>
    have ⟨hh, hs, ht⟩ := h kv mem_cons_self
    have hr := read_key hh hs ht (kvs.flatMap keyBytes)
    rw [flatMap_cons] at hf ⊢
    have hp := length_keyBytes_pos kv
    rw [length_append] at hf
    cases hb : keyBytes kv ++ kvs.flatMap keyBytes
    case nil => simp_all
    case cons x b =>
      cases fuel
      case zero => omega
      case succ fuel =>
        rw [readKeys, ← hb, hr, ok_bind]
        exact hi (fun kv hkv => h kv <| mem_cons_of_mem _ hkv) (by omega)

theorem length_le_flatMap {f : α → Bytes} {l : List α} (h : ∀ a ∈ l, 0 < (f a).length) :
    l.length ≤ (l.flatMap f).length := by
  induction l
  case nil => exact Nat.zero_le _
  case cons a l hi =>
    have ha := h a mem_cons_self
    have hl := hi fun a ha => h a <| mem_cons_of_mem _ ha
    simp only [flatMap_cons, length_append, length_cons]
    omega

theorem length_le_keyBytes (hkv : kv ∈ kvs) : kv.2.length ≤ (kvs.flatMap keyBytes).length := by
  have hv : kv.2.length ≤ (kv.2.flatMap valueBytes).length :=
    length_le_flatMap fun v _ => by rw [length_valueBytes]; omega
  have hk : (kv.2.flatMap valueBytes).length ≤ (keyBytes kv).length := by
    simp only [keyBytes, length_append]
    omega
  refine hv.trans <| hk.trans ?_
  rw [length_flatMap]
  exact single_le_sum (fun _ _ => Nat.zero_le _) _ (mem_map_of_mem hkv)

theorem unmarshalBinary_eq {values : GoMap Bytes Values} (hv : values.Visits ks)
    (h : ∀ k ∈ ks, Homogeneous ((values.lookup k).getD []) ∧ Short (k, (values.lookup k).getD [])) :
    unmarshalBinary ((ks.map fun k => (k, (values.lookup k).getD [])).flatMap keyBytes) =
      .ok values := by
  have hk : ∀ kv ∈ ks.map fun k => (k, (values.lookup k).getD []),
      Homogeneous kv.2 ∧ Short kv := by
    simpa using h
  rw [unmarshalBinary, readKeys_eq (fun kv hkv => ⟨(hk kv hkv).1, (hk kv hkv).2,
    length_le_keyBytes hkv⟩) le_rfl, foldl_map]
  exact congrArg Except.ok <| hv.foldl_insert_eq fun hl => by rw [hl]; rfl

end Decode

section Result

variable {value : Bytes → Value}

theorem readFixed_eq_ok (h : readFixed w value n b = .ok (vs, rest)) :
    vs.length = n ∧ ∀ v ∈ vs, ∃ x, v.2 = value x := by
  induction n generalizing vs b
  case zero => cases h; simp
  case succ n hi =>
    simp only [readFixed, bind_eq_ok] at h
    have ⟨⟨un, b₁⟩, _, ⟨x, b₂⟩, _, ⟨vs', b₃⟩, hr, h⟩ := h
    cases h
    have ⟨hl, hv⟩ := hi hr
    exact ⟨by simp [hl], forall_mem_cons.mpr ⟨⟨x, rfl⟩, hv⟩⟩

theorem uint32_lt (h : slice 4 b = .ok (l, rest)) : uint32 l < 2 ^ 32 := by
  have := uint64_lt l
  rw [(slice_eq_ok.mp h).1] at this
  exact this

theorem readStrings_eq_ok (h : readStrings n b = .ok (vs, rest)) :
    vs.length = n ∧ ∀ v ∈ vs, v.2.size < 2 ^ 32 + 8 := by
  induction n generalizing vs b
  case zero => cases h; simp
  case succ n hi =>
    simp only [readStrings, bind_eq_ok] at h
    have ⟨_, _, ⟨un, b₁⟩, _, ⟨l, b₂⟩, hl, _, _, _, _, ⟨x, b₃⟩, hx, ⟨vs', b₄⟩, hr, h⟩ := h
    cases h
    have ⟨hn, hv⟩ := hi hr
    have hx := (slice_eq_ok.mp hx).1
    have hl := uint32_lt hl
    refine ⟨by simp [hn], forall_mem_cons.mpr ⟨?_, hv⟩⟩
    dsimp only [Value.size] at hx ⊢
    omega

theorem readFixedValues_eq_ok (h : readFixedValues w value n b = .ok (vs, rest))
    (hv : ∀ x, (value x).size < 2 ^ 32 + 8) :
    vs.length = n ∧ ∀ v ∈ vs, v.2.size < 2 ^ 32 + 8 := by
  simp only [readFixedValues, bind_eq_ok] at h
  have ⟨_, _, h⟩ := h
  have ⟨hl, hs⟩ := readFixed_eq_ok h
  refine ⟨hl, fun v hm => ?_⟩
  have ⟨x, hx⟩ := hs v hm
  exact hx ▸ hv x

theorem readValues_eq_ok (h : readValues n b kind = .ok (vs, rest)) :
    vs.length = n ∧ ∀ v ∈ vs, v.2.size < 2 ^ 32 + 8 := by
  cases kind
  case string => exact readStrings_eq_ok h
  all_goals exact readFixedValues_eq_ok h fun x => by simp [Value.size]

theorem readKey_eq_ok (h : readKey total b = .ok (kv, rest)) : Short kv ∧ kv.2 ≠ [] := by
  simp only [readKey, bind_eq_ok] at h
  obtain ⟨⟨typ, b₁⟩, _, _, _, ⟨l, b₂⟩, hl, _, _, ⟨k, b₃⟩, hk, _, _, ⟨n, b₄⟩, hn, _, hc, h⟩ := h
  dsimp only at hl hk hn hc h
  split at h
  case h_2 => cases h
  case h_1 =>
    obtain ⟨⟨vs, b₅⟩, hv, h⟩ := bind_eq_ok.mp h
    cases h
    obtain ⟨hvl, hvs⟩ := readValues_eq_ok hv
    have hll := uint64_lt l
    rw [(slice_eq_ok.mp hl).1] at hll
    refine ⟨?_, length_pos_iff.mp <| hvl ▸ (checkWAL_eq_ok.mp hc).1⟩
    exact {
      key := (slice_eq_ok.mp hk).1 ▸ hll
      values := hvl ▸ uint32_lt hn
      size := hvs
    }

def AllShort (m : GoMap Bytes Values) : Prop :=
  ∀ k vs, m.lookup k = some vs → Short (k, vs)

theorem forall_readKeys {P : Bytes × Values → Prop}
    (hP : ∀ {b kv rest}, readKey total b = .ok (kv, rest) → P kv)
    (h : readKeys total fuel b m = .ok m') (hm : ∀ k vs, m.lookup k = some vs → P (k, vs)) :
    ∀ k vs, m'.lookup k = some vs → P (k, vs) := by
  induction fuel generalizing b m
  case zero => cases b <;> cases h <;> exact hm
  case succ fuel hi =>
    cases b
    case nil => cases h; exact hm
    case cons x b =>
      have ⟨⟨kv, b'⟩, hr, h⟩ := bind_eq_ok.mp h
      refine hi h fun k vs hl => ?_
      by_cases hk : k = kv.1
      case pos =>
        subst hk
        rw [Finmap.lookup_insert] at hl
        cases hl
        exact hP hr
      case neg => exact hm k vs <| Finmap.lookup_insert_of_ne m hk ▸ hl

theorem unmarshalBinary_short (h : unmarshalBinary b = .ok m) : AllShort m :=
  forall_readKeys (fun hr => (readKey_eq_ok hr).1) h fun k vs hl => by cases hl

theorem unmarshalBinary_ne_nil (h : unmarshalBinary b = .ok m) (hl : m.lookup k = some vs) :
    vs ≠ [] :=
  forall_readKeys (P := (·.2 ≠ [])) (fun hr => (readKey_eq_ok hr).2) h
    (fun k vs hl => by cases hl) k vs hl

end Result

section Safe

theorem safe_readFixed (h : (8 + w) * n ≤ b.length) : (readFixed w value n b).Safe := by
  induction n generalizing b
  case zero => trivial
  case succ n hi =>
    rw [Nat.mul_succ] at h
    rw [readFixed]
    refine safe_slice_bind (by omega) fun un b₁ _ hb₁ => ?_
    refine safe_slice_bind (by omega) fun v b₂ _ hb₂ => ?_
    exact (hi (by omega)).bind fun _ _ => trivial

theorem safe_readStrings : (readStrings n b).Safe := by
  induction n generalizing b
  case zero => trivial
  case succ n hi =>
    rw [readStrings]
    refine safe_checkWAL_bind fun hb => ?_
    refine safe_slice_bind (by omega) fun un b₁ _ hb₁ => ?_
    refine safe_slice_bind (by omega) fun l b₂ _ _ => ?_
    refine safe_checkWAL_bind fun _ => safe_checkWAL_bind fun hl => ?_
    exact safe_slice_bind hl fun v b₃ _ _ => hi.bind fun _ _ => trivial

theorem safe_readValues : (readValues n b kind).Safe := by
  cases kind
  case string => exact safe_readStrings
  all_goals exact safe_checkWAL_bind fun h => safe_readFixed h

theorem safe_readKey (h : b ≠ []) : (readKey total b).Safe := by
  rw [readKey]
  refine safe_slice_bind (length_pos_iff.mpr h) fun typ b₁ _ _ => ?_
  refine safe_checkWAL_bind fun h₁ => safe_slice_bind h₁ fun l b₂ _ _ => ?_
  refine safe_checkWAL_bind fun h₂ => safe_slice_bind h₂ fun k b₃ _ _ => ?_
  refine safe_checkWAL_bind fun h₃ => safe_slice_bind h₃ fun n b₄ _ _ => ?_
  refine safe_checkWAL_bind fun _ => ?_
  dsimp only
  split
  case h_1 => exact safe_readValues.bind fun _ _ => trivial
  case h_2 => trivial

theorem safe_readKeys {m : GoMap Bytes Values} : (readKeys total fuel b m).Safe := by
  induction fuel generalizing b m
  case zero => cases b <;> trivial
  case succ fuel hi =>
    cases b
    case nil => trivial
    case cons x b => exact (safe_readKey (cons_ne_nil x b)).bind fun _ _ => hi

end Safe

end WriteWALEntry

theorem le_length_grown (n : Nat) (dst : Bytes) :
    n ≤ (if dst.length < n then List.replicate n 0 else dst).length := by
  split
  case isTrue => rw [length_replicate]
  case isFalse h => exact not_lt.mp h

namespace DeleteWALEntry

variable {keys : List Bytes}

theorem writes_putKey (k : Bytes) : Writes (fun b => return putKey b k) (k ++ newline) :=
  (Writes.copy k).bind (Writes.copy newline)

theorem flatMap_newline (h : keys ≠ []) :
    keys.flatMap (· ++ newline) = newline.intercalate keys ++ newline := by
  induction keys
  case nil => exact (h rfl).elim
  case cons k keys hi =>
    cases keys
    case nil => simp [List.intercalate]
    case cons l ls =>
      rw [flatMap_cons, hi (cons_ne_nil l ls)]
      simp [List.intercalate]

theorem marshalSize_eq (h : keys ≠ []) :
    marshalSize keys = (newline.intercalate keys ++ newline).length := by
  rw [← flatMap_newline h, marshalSize, length_flatMap]
  simp [sum_map_add, newline, Nat.add_comm]

theorem encode_eq (h : keys ≠ []) (dst : Bytes) :
    encode keys dst = .ok (newline.intercalate keys) := by
  have hw := Writes.foldlM fun k (_ : k ∈ keys) => writes_putKey k
  rw [flatMap_newline h] at hw
  have ⟨b, hb, ho, hp⟩ := hw.fill ((marshalSize_eq h).ge.trans (le_length_grown _ dst))
  rw [foldlM_pure] at hb
  cases hb
  rw [encode]
  generalize keys.foldl putKey _ = b at ho hp
  have hpos := congrArg List.length ho
  rw [length_take_of_le hp, length_append, newline, length_singleton] at hpos
  have ht : b.bytes.take (b.pos - 1) = (b.bytes.take b.pos).take (b.pos - 1) := by
    rw [take_take, min_eq_left (Nat.sub_le ..)]
  rw [if_neg (by omega), ht, ho, take_left' (by rw [newline]; omega)]
  rfl

theorem not_mem_of_mem_splitOn {x : α} [DecidableEq α] {l k : List α} (hk : k ∈ l.splitOn x) :
    x ∉ k := by
  rw [List.splitOn] at hk
  induction l generalizing k
  case nil => simp_all
  case cons y l hi =>
    rw [splitOnP_cons_eq_if_modifyHead] at hk
    split at hk
    case isTrue =>
      rcases mem_cons.mp hk with rfl | hk
      case inl => exact not_mem_nil
      case inr => exact hi hk
    case isFalse hy =>
      cases hs : l.splitOnP (· == x)
      case nil => simp_all
      case cons z ls =>
        rw [hs] at hk hi
        rcases mem_cons.mp hk with rfl | hk
        case inr => exact hi <| mem_cons_of_mem _ hk
        case inl =>
          have hz := hi mem_cons_self
          exact fun hx => (mem_cons.mp hx).elim (fun hx => hy <| by simp [hx]) hz

end DeleteWALEntry

namespace DeleteRangeWALEntry

def keyBytes (k : Bytes) : Bytes :=
  putUint32 k.length ++ k

theorem writes_putKey (k : Bytes) : Writes (putKey · k) (keyBytes k) :=
  (Writes.put _).bind (Writes.copy k)

theorem encode_eq (keys : List Bytes) (min max : Int64) (dst : Bytes) :
    encode keys min max dst =
      .ok (putInt64 min ++ (putInt64 max ++ keys.flatMap keyBytes)) := by
  have hw := (Writes.put (putInt64 min)).bind <| (Writes.put (putInt64 max)).bind <|
    Writes.foldlM fun k (_ : k ∈ keys) => writes_putKey k
  have hm : marshalSize keys =
      (putInt64 min ++ (putInt64 max ++ keys.flatMap keyBytes)).length := by
    simp [marshalSize, keyBytes, length_flatMap, sum_map_add]
    omega
  have ⟨b, hb, ho, _⟩ := hw.fill (hm.ge.trans (le_length_grown _ dst))
  have ⟨b₁, h₁, hb⟩ := bind_eq_ok.mp hb
  have ⟨b₂, h₂, h₃⟩ := bind_eq_ok.mp hb
  rw [encode, h₁, ok_bind, h₂, ok_bind, h₃, ok_bind, ho]
  rfl

theorem read_key (h : k.length < 2 ^ 32) : Reads readKey (keyBytes k) k := by
  intro rest
  have hk : uint32 (putUint32 k.length) = k.length := by
    rw [uint32_putUint32, Nat.mod_eq_of_lt h]
  rw [keyBytes, append_assoc, readKey, checkWAL_of (by simp), ok_bind,
    slice_append (length_putUint32 _), ok_bind]
  dsimp only
  rw [hk, checkWAL_of (by simp), ok_bind, slice_append rfl]

variable {keys : List Bytes}

theorem readKeys_eq (h : ∀ k ∈ keys, k.length < 2 ^ 32)
    (hf : (keys.flatMap keyBytes).length ≤ fuel) :
    readKeys fuel (keys.flatMap keyBytes) = .ok keys := by
  induction keys generalizing fuel
  case nil => cases fuel <;> rfl
  case cons k keys hi =>
    have hr := read_key (h k mem_cons_self) (keys.flatMap keyBytes)
    have hl : (keyBytes k).length = 4 + k.length := by simp [keyBytes]
    rw [flatMap_cons] at hf ⊢
    rw [length_append] at hf
    cases hb : keyBytes k ++ keys.flatMap keyBytes
    case nil => simp [keyBytes, putUint32] at hb
    case cons x b =>
      cases fuel
      case zero => omega
      case succ fuel =>
        rw [readKeys, ← hb, hr, ok_bind]
        dsimp only
        rw [hi (fun k hk => h k <| mem_cons_of_mem _ hk) (by omega), ok_bind]
        rfl

theorem unmarshalBinary_eq {min max : Int64} (h : ∀ k ∈ keys, k.length < 2 ^ 32) :
    unmarshalBinary (putInt64 min ++ (putInt64 max ++ keys.flatMap keyBytes)) =
      .ok (keys, min, max) := by
  rw [unmarshalBinary, checkWAL_of (by simp; omega), ok_bind,
    slice_append (length_putInt64 _), ok_bind]
  dsimp only
  rw [slice_append (length_putInt64 _), ok_bind]
  dsimp only
  rw [readKeys_eq h le_rfl, ok_bind, int64_putInt64, int64_putInt64]
  rfl

theorem readKeys_short (h : readKeys fuel b = .ok keys) (hk : k ∈ keys) : k.length < 2 ^ 32 := by
  induction fuel generalizing b keys
  case zero => cases b <;> cases h <;> cases hk
  case succ fuel hi =>
    cases b
    case nil => cases h; cases hk
    case cons x b =>
      have ⟨⟨k', b'⟩, hr, h⟩ := bind_eq_ok.mp h
      have ⟨ks, hs, h⟩ := bind_eq_ok.mp h
      cases h
      rcases mem_cons.mp hk with rfl | hk
      case inr => exact hi hs hk
      case inl =>
        simp only [readKey, bind_eq_ok] at hr
        have ⟨_, _, ⟨l, b₁⟩, hl, _, _, hr⟩ := hr
        exact (slice_eq_ok.mp hr).1 ▸ WriteWALEntry.uint32_lt hl

theorem unmarshalBinary_short (h : unmarshalBinary b = .ok r) (hk : k ∈ r.1) :
    k.length < 2 ^ 32 := by
  simp only [unmarshalBinary, bind_eq_ok] at h
  have ⟨_, _, ⟨x, b₁⟩, _, ⟨y, b₂⟩, _, ks, hs, h⟩ := h
  cases h
  exact readKeys_short hs hk

theorem safe_readKeys : (readKeys fuel b).Safe := by
  induction fuel generalizing b
  case zero => cases b <;> trivial
  case succ fuel hi =>
    cases b
    case nil => trivial
    case cons x b =>
      have hr : (readKey (x :: b)).Safe := by
        rw [readKey]
        refine safe_checkWAL_bind fun h₁ => safe_slice_bind h₁ fun l b₁ _ _ => ?_
        exact safe_checkWAL_bind fun h₂ => safe_slice.mpr h₂
      exact hr.bind fun _ _ => hi.bind fun _ _ => trivial

theorem safe_unmarshalBinary : (unmarshalBinary b).Safe := by
  rw [unmarshalBinary]
  refine safe_checkWAL_bind fun h => safe_slice_bind (by omega) fun min b₁ _ _ => ?_
  refine safe_slice_bind (by omega) fun max b₂ _ _ => ?_
  exact safe_readKeys.bind fun _ _ => trivial

end DeleteRangeWALEntry

namespace WALEntry

variable {e : WALEntry} {b dst : Bytes}

theorem fits_write (h : WriteWALEntry.AllShort values) : (write values).Fits := by
  have hs {k} (hk : k ∈ values.keys) : ∃ vs, values.lookup k = some vs :=
    Finmap.mem_iff.mp <| Finmap.mem_keys.mp hk
  refine ⟨fun k hk => ?_, fun k hk vs hl => ?_⟩
  · have ⟨vs, hl⟩ := hs hk
    exact (h k vs hl).key
  · exact ⟨(h k vs hl).values, (h k vs hl).size⟩

theorem allShort_of_fits (h : (write values).Fits) : WriteWALEntry.AllShort values := by
  intro k vs hl
  have hk : k ∈ values.keys := Finmap.mem_keys.mpr <| Finmap.mem_of_lookup_eq_some hl
  have hv := h.2 k hk vs hl
  exact { key := h.1 k hk, values := hv.1, size := hv.2 }

theorem fits_of_unmarshalBinary (h : unmarshalBinary e.type b = .ok e) : e.Fits := by
  cases e
  case write values =>
    have ⟨m, hm, he⟩ := map_eq_ok.mp h
    cases he
    exact fits_write <| WriteWALEntry.unmarshalBinary_short hm
  case delete keys =>
    cases h
    exact fun k hk => DeleteWALEntry.not_mem_of_mem_splitOn hk
  case deleteRange keys min max =>
    have ⟨r, hr, he⟩ := map_eq_ok.mp h
    cases he
    exact fun k hk => DeleteRangeWALEntry.unmarshalBinary_short hr hk

theorem safe_unmarshalBinary {typ : UInt8} : (unmarshalBinary typ b).Safe := by
  rw [unmarshalBinary]
  split_ifs
  · exact safe_map.mpr WriteWALEntry.safe_readKeys
  · trivial
  · exact safe_map.mpr DeleteRangeWALEntry.safe_unmarshalBinary
  · trivial

theorem unmarshalBinary_encode_iff (hv : e.Valid) (ho : e.Visits ks) (dst : Bytes) :
    ∃ b, e.encode ks dst = .ok b ∧ (unmarshalBinary e.type b = .ok e ↔ e.Fits) := by
  cases e
  case write values =>
    have hh (k) (hk : k ∈ ks) : WriteWALEntry.Homogeneous ((values.lookup k).getD []) := by
      have hm := GoMap.Visits.mem_iff ho |>.mp hk
      have ⟨vs, hl⟩ := Finmap.mem_iff.mp hm
      have ⟨hn, hk⟩ := hv k (Finmap.mem_keys.mpr hm) vs hl
      rw [hl]
      exact { ne_nil := hn, kind := hk }
    refine ⟨_, WriteWALEntry.encode_eq ks dst hh, fits_of_unmarshalBinary, fun hf => ?_⟩
    refine map_eq_ok.mpr ⟨values, WriteWALEntry.unmarshalBinary_eq ho fun k hk => ?_, rfl⟩
    have ⟨vs, hl⟩ := Finmap.mem_iff.mp <| GoMap.Visits.mem_iff ho |>.mp hk
    refine ⟨hh k hk, ?_⟩
    rw [hl]
    exact allShort_of_fits hf k vs hl
  case delete keys =>
    refine ⟨_, DeleteWALEntry.encode_eq hv dst, fits_of_unmarshalBinary, fun hf => ?_⟩
    exact congrArg (fun keys => Except.ok (delete keys)) <| splitOn_intercalate 10 hf hv
  case deleteRange keys min max =>
    refine ⟨_, DeleteRangeWALEntry.encode_eq keys min max dst, fits_of_unmarshalBinary, fun hf => ?_⟩
    exact map_eq_ok.mpr ⟨_, DeleteRangeWALEntry.unmarshalBinary_eq hf, rfl⟩

theorem unmarshalBinary_encode_short :
    let m : GoMap Bytes Values := (∅ : GoMap Bytes Values).insert [97] [(5, .string [98])]
    (∃ b, (write m).encode [[97]] [] = .ok b ∧
      (unmarshalBinary (write m).type b = .ok (write m) ↔ (write m).Fits)) ∧
    (∃ b, (delete [[97]]).encode [] [1, 2, 3] = .ok b ∧
      (unmarshalBinary (delete [[97]]).type b = .ok (delete [[97]]) ↔ (delete [[97]]).Fits)) ∧
    ∃ b, (deleteRange [[97]] 0 1).encode [] [] = .ok b ∧
      (unmarshalBinary (deleteRange [[97]] 0 1).type b = .ok (deleteRange [[97]] 0 1) ↔
        (deleteRange [[97]] 0 1).Fits) :=
  ⟨unmarshalBinary_encode_iff (e := write _) (by decide) (by decide) [],
    unmarshalBinary_encode_iff (e := delete _) (by decide) trivial [1, 2, 3],
    unmarshalBinary_encode_iff (e := deleteRange _ _ _) trivial trivial []⟩

def longKey : Bytes :=
  List.replicate 65535 97 ++ [35, 33, 126, 35] ++ [118]

theorem longKey_eq : longKey = [97, 97, 97, 97] ++ ([97, 97, 97, 97] ++
    (List.replicate 65527 97 ++ [35, 33, 126, 35] ++ [118])) := by
  have hr : List.replicate 65535 (97 : UInt8) =
      [97, 97, 97, 97] ++ ([97, 97, 97, 97] ++ List.replicate 65527 97) := by
    rw [← append_assoc, show 65535 = 8 + 65527 by rfl, replicate_add]
    rfl
  rw [longKey, hr]
  simp only [append_assoc]

theorem readKey_corrupt (h : total < 0x61616161) :
    WriteWALEntry.readKey total ([1] ++ ([0, 4] ++ ([97, 97, 97, 97] ++ ([97, 97, 97, 97] ++ b)))) =
      fail errWALCorrupt := by
  have hl : uint16 [0, 4] = 4 := rfl
  have hn : uint32 [97, 97, 97, 97] = 0x61616161 := rfl
  rw [WriteWALEntry.readKey, slice_append length_singleton, ok_bind]
  dsimp only
  rw [checkWAL_of (by simp), ok_bind, slice_append (n := 2) rfl, ok_bind]
  dsimp only
  rw [hl, checkWAL_of (by simp), ok_bind, slice_append (n := 4) rfl, ok_bind]
  dsimp only
  rw [checkWAL_of (by simp), ok_bind, slice_append (n := 4) rfl, ok_bind]
  dsimp only
  rw [hn, checkWAL, if_neg (by omega)]
  rfl

theorem unmarshalBinary_corrupt (h : b.length < 2 ^ 30) :
    unmarshalBinary 1 ([1] ++ ([0, 4] ++ ([97, 97, 97, 97] ++ ([97, 97, 97, 97] ++ b)))) =
      fail errWALCorrupt := by
  have hr := readKey_corrupt (b := b) (show b.length + 11 < 0x61616161 by omega)
  rw [unmarshalBinary, if_pos rfl, WriteWALEntry.unmarshalBinary]
  simp only [length_cons, cons_append, nil_append, WriteWALEntry.readKeys] at hr ⊢
  rw [hr]
  rfl

theorem keyBytes_longKey : WriteWALEntry.keyBytes (longKey, [(5, .float 0)]) =
    [1] ++ ([0, 4] ++ ([97, 97, 97, 97] ++ ([97, 97, 97, 97] ++
      (List.replicate 65527 97 ++ [35, 33, 126, 35] ++ [118] ++
        ([0, 0, 0, 1] ++ List.replicate 7 0 ++ [5] ++ List.replicate 8 0))))) := by
  have hl : putUint16 longKey.length = [0, 4] := by
    rw [longKey, length_append, length_append, length_replicate]
    rfl
  rw [WriteWALEntry.keyBytes]
  dsimp only
  rw [hl, longKey_eq]
  simp only [append_assoc]
  rfl

-- The length of the key is taken for 4, and the next bytes for the number of values.
theorem long_key_corrupt :
    let m : GoMap Bytes Values := (∅ : GoMap Bytes Values).insert longKey [(5, .float 0)]
    (write m).Valid ∧ (write m).Visits [longKey] ∧
      (∃ b, (write m).encode [longKey] [] = .ok b ∧
        unmarshalBinary 1 b = fail errWALCorrupt) ∧
      (delete [[97, 10, 98]]).encode [] [] = .ok [97, 10, 98] ∧
      unmarshalBinary 2 [97, 10, 98] = .ok (delete [[97], [98]]) := by
  have hl (k) : Finmap.lookup k ((∅ : GoMap Bytes Values).insert longKey [(5, .float 0)]) =
      if k = longKey then some [(5, .float 0)] else none := by
    split
    case isTrue h => rw [h, Finmap.lookup_insert]
    case isFalse h => rw [Finmap.lookup_insert_of_ne _ h, Finmap.lookup_empty]
  intro m
  refine ⟨?_, ?_, ?_, by decide, by decide⟩
  · intro k _ vs hvs
    rw [hl] at hvs
    split at hvs <;> cases hvs
    simp
  · refine GoMap.Visits.of_nodup_mem (nodup_singleton _) fun k => ?_
    rw [Finmap.mem_insert, mem_singleton, or_iff_left Finmap.notMem_empty]
  · refine ⟨_, WriteWALEntry.encode_eq [longKey] [] fun k hk => ?_, ?_⟩
    · rw [hl, mem_singleton.mp hk, if_pos rfl]
      exact { ne_nil := by simp, kind := by simp }
    · rw [map_singleton, flatMap_singleton, hl, if_pos rfl, Option.getD_some,
        keyBytes_longKey]
      refine unmarshalBinary_corrupt ?_
      simp only [length_append, length_replicate, length_cons, length_nil]
      omega

end WALEntry

end Tsm1
