import Myts.Tsm1.TombstoneFile

open List

namespace Tsm1

open Bytes Tombstoner Tombstone

theorem Tombstone.encode_append (t : Tombstone) (b : Bytes) :
    t.encode ++ b = putUint32 t.key.length ++ (t.key ++ (putInt64 t.min ++
      (putInt64 t.max ++ b))) := by
  simp only [encode, append_assoc]

theorem Tombstone.length_encode (t : Tombstone) : t.encode.length = t.key.length + 20 := by
  simp only [encode, length_append, length_putUint32, length_putInt64]
  omega

theorem uint32_putUint32_of_lt {n : Nat} (h : n < 2 ^ 32) : uint32 (putUint32 n) = n := by
  rw [uint32_putUint32, Nat.mod_eq_of_lt h]

namespace Tombstoner.Stream

theorem readFull_append {x b : Bytes} (h : x.length = n) :
    readFull { rest := x ++ b, err := e } n = .ok (x, { rest := b, err := e }) := by
  subst h
  rw [readFull, if_pos (by simp), List.take_left, drop_left]

theorem length_of_readFull {s : Stream} (h : s.readFull n = .ok (x, s')) : x.length = n := by
  rw [readFull] at h
  split at h <;> cases h
  case isTrue hn => exact length_take_of_le hn

theorem record_append (t : Tombstone) (b : Bytes) :
    record { rest := t.key ++ (putInt64 t.min ++ (putInt64 t.max ++ b)), err := e } t.key.length =
      .ok (t, { rest := b, err := e }) := by
  rw [record, readFull_append rfl]
  simp only [bind, Except.bind, readFull_append (length_putInt64 _), int64_putInt64]
  rfl

theorem walk_flatMap_encode {ts : List Tombstone} (h : ∀ t ∈ ts, t.key.length < 2 ^ 32)
    (hf : ts.length < fuel) :
    walk fuel { rest := ts.flatMap encode, err := none } =
      { tombstones := ts, err := none } := by
  induction ts generalizing fuel
  case nil =>
    obtain ⟨fuel, rfl⟩ := Nat.exists_eq_add_one.mpr hf
    rfl
  case cons t ts hi =>
    have ⟨ht, hs⟩ := forall_mem_cons.mp h
    obtain ⟨fuel, rfl⟩ := Nat.exists_eq_add_one.mpr (Nat.zero_lt_of_lt hf)
    rw [flatMap_cons, encode_append, walk, readFull_append (length_putUint32 _)]
    simp only [uint32_putUint32_of_lt ht, record_append]
    rw [hi hs (by simpa using hf)]

theorem length_of_record {s : Stream} (h : s.record n = .ok (t, s')) : t.key.length = n := by
  rw [record] at h
  cases hk : s.readFull n <;> rw [hk] at h
  case error => cases h
  case ok r₁ =>
    obtain ⟨key, s₁⟩ := r₁
    cases hm : s₁.readFull 8 <;> simp only [bind, Except.bind, hm] at h
    case error => cases h
    case ok r₂ =>
      cases hm' : r₂.2.readFull 8 <;> simp only [hm'] at h <;> cases h
      exact length_of_readFull hk

theorem length_key_lt {s : Stream} (h : t ∈ (walk fuel s).tombstones) :
    t.key.length < 2 ^ 32 := by
  induction fuel generalizing s
  case zero => cases h
  case succ fuel hi =>
    rw [walk] at h
    cases hl : s.readFull 4 <;> simp only [hl] at h
    case error => cases h
    case ok r₁ =>
      cases hr : r₁.2.record (uint32 r₁.1) <;> simp only [hr] at h
      case error => cases h
      case ok r₂ =>
        rcases mem_cons.mp h with rfl | h
        case inr => exact hi h
        case inl =>
          have hn := length_of_readFull hl
          rw [length_of_record hr]
          exact lt_of_lt_of_eq (uint64_lt r₁.1) (by rw [hn]; rfl)

end Tombstoner.Stream

theorem getElem?_of_isPrefix {a b : List α} (h : a <+: b) (hi : i < a.length) : b[i]? = a[i]? := by
  rw [prefix_iff_getElem?.mp h i hi, getElem?_eq_getElem hi]

theorem isPrefix_iff_take {a b : List α} (n : Nat) : a <+: b ↔
    a.take n <+: b.take n ∧ ∀ i, n ≤ i → i < a.length → b[i]? = a[i]? := by
  refine ⟨fun h => ⟨h.take n, fun i _ => getElem?_of_isPrefix h⟩, fun ⟨h₁, h₂⟩ => ?_⟩
  refine prefix_iff_getElem?.mpr fun i hi => ?_
  rw [← getElem?_eq_getElem hi]
  rcases lt_or_ge i n with hn | hn
  case inr => exact h₂ i hn hi
  case inl =>
    have h := getElem?_of_isPrefix h₁ (i := i) (by rw [length_take]; omega)
    rwa [getElem?_take_of_lt hn, getElem?_take_of_lt hn] at h

namespace TombstoneFile.V2

def into (b : Bytes) (t : Tombstone) : Bytes :=
  Scratch.put (putInt64 t.max) <| Scratch.put (putInt64 t.min) <| Scratch.put t.key b

def after (w : Scratch) (t : Tombstone) : Scratch :=
  let w := (w.read (putUint32 t.key.length)).grow t.key.length
  { w with b := into w.b t }

def trace (w : Scratch) : List Tombstone → List Record × Scratch
  | [] => ([], w)
  | t :: ts =>
    let w := after w t
    let r := trace w ts
    let key := w.slice t.key.length
    ({ key, seen := w.bytes key, min := t.min, max := t.max } :: r.1, r.2)

theorem read_append {x b : Bytes} (h : x.length = n) :
    read { rest := x ++ b, err := e } n = .ok (x, { rest := b, err := e }) := by
  subst h
  rw [read, if_pos, List.take_left, drop_left]
  cases x <;> simp

theorem record_append (h : t.key.length < 2 ^ 32) (w : Scratch) (b : Bytes) :
    record { rest := t.encode ++ b, err := e } w = .ok ({
      key := (after w t).slice t.key.length
      seen := (after w t).bytes ((after w t).slice t.key.length)
      min := t.min
      max := t.max }, { rest := b, err := e }, after w t) := by
  have hl : (w.read (putUint32 t.key.length)).b.take 4 = putUint32 t.key.length :=
    Scratch.take_put_length (length_putUint32 _)
  have hm (w : Scratch) (n : Int64) : (w.read (putInt64 n)).b.take 8 = putInt64 n :=
    Scratch.take_put_length (length_putInt64 _)
  rw [encode_append, record, read_append (length_putUint32 _)]
  simp only [bind, Except.bind, hl, uint32_putUint32_of_lt h, read_append rfl,
    read_append (length_putInt64 _), hm, int64_putInt64]
  rfl

theorem loop_flatMap_encode {ts : List Tombstone} (h : ∀ t ∈ ts, t.key.length < 2 ^ 32)
    (hf : ts.length ≤ fuel) (hs : size = n + (ts.flatMap encode).length) (w : Scratch) :
    loop size fuel n { rest := ts.flatMap encode, err := e } w = .ok (trace w ts) := by
  induction ts generalizing fuel n w
  case nil =>
    cases fuel
    case zero => rfl
    case succ _ => exact if_pos hs.le
  case cons t ts hi =>
    have ⟨ht, hts⟩ := forall_mem_cons.mp h
    obtain ⟨fuel, rfl⟩ := Nat.exists_eq_add_one.mpr (Nat.zero_lt_of_lt hf)
    rw [flatMap_cons, length_append, length_encode] at hs
    rw [loop, if_neg (by omega), flatMap_cons, record_append ht]
    simp only [bind, Except.bind, Scratch.slice]
    rw [hi hts (by simpa using hf) (by omega)]
    rfl

def left (b : Bytes) : List Tombstone → Bytes
  | [] => b
  | t :: ts =>
    let b := Scratch.put (putUint32 t.key.length) b
    if b.length < t.key.length then b else left (into b t) ts

theorem length_into {b : Bytes} (hb : 8 ≤ b.length) (ht : t.key.length ≤ b.length) :
    (into b t).length = b.length := by
  have h₁ := Scratch.length_put ht
  have h₂ : (Scratch.put (putInt64 t.min) (Scratch.put t.key b)).length = b.length := by
    rw [Scratch.length_put (by rw [h₁, length_putInt64]; exact hb), h₁]
  rw [into, Scratch.length_put (by rw [h₂, length_putInt64]; exact hb), h₂]

theorem take_into (b : Bytes) (t : Tombstone) : (into b t).take 8 = putInt64 t.max :=
  Scratch.take_put_length (length_putInt64 _)

theorem getElem?_into {b : Bytes} (hi : 8 ≤ i) :
    (into b t)[i]? = (Scratch.put t.key b)[i]? := by
  rw [into, Scratch.getElem?_put_ge hi, Scratch.getElem?_put_ge hi]

theorem length_putUint32_put {b : Bytes} (hb : 8 ≤ b.length) (n : Nat) :
    (Scratch.put (putUint32 n) b).length = b.length :=
  Scratch.length_put (by rw [length_putUint32]; omega)

theorem after_of_lt {w : Scratch} (hb : 8 ≤ w.b.length) (h : w.b.length < t.key.length) :
    after w t = {
      replaced := w.replaced ++ [Scratch.put (putUint32 t.key.length) w.b]
      b := into (List.replicate t.key.length 0) t } := by
  rw [after, Scratch.grow, if_pos]
  · rfl
  · rw [Scratch.read, length_putUint32_put hb]
    exact h

theorem after_of_le {w : Scratch} (hb : 8 ≤ w.b.length) (h : t.key.length ≤ w.b.length) :
    after w t = { w with b := into (Scratch.put (putUint32 t.key.length) w.b) t } := by
  rw [after, Scratch.grow, if_neg]
  · rfl
  · rw [Scratch.read, length_putUint32_put hb]
    omega

theorem length_after {w : Scratch} (hb : 8 ≤ w.b.length) :
    (after w t).b.length = max w.b.length t.key.length := by
  rcases lt_or_ge w.b.length t.key.length with h | h
  case inl =>
    rw [after_of_lt hb h, length_into] <;> rw [length_replicate] <;> omega
  case inr =>
    rw [after_of_le hb h, length_into] <;> rw [length_putUint32_put hb] <;> omega

theorem buffers_replaced {w : Scratch} (hi : i < w.replaced.length) (ts : List Tombstone) :
    (trace w ts).2.buffers[i]? = w.replaced[i]? := by
  induction ts generalizing w
  case nil => exact getElem?_append_left hi
  case cons t ts h =>
    have ha : ∃ l, (after w t).replaced = w.replaced ++ l := by
      rw [after, Scratch.grow]
      split
      · exact ⟨_, rfl⟩
      · exact ⟨[], (append_nil _).symm⟩
    obtain ⟨l, hl⟩ := ha
    have hi' : i < (after w t).replaced.length := by
      rw [hl, length_append]
      omega
    rw [trace, h hi', hl, getElem?_append_left hi]

theorem buffers_trace {w : Scratch} (hb : 8 ≤ w.b.length) (ts : List Tombstone) :
    (trace w ts).2.buffers[w.replaced.length]? = some (left w.b ts) := by
  induction ts generalizing w
  case nil => exact w.buffers_current
  case cons t ts hi =>
    have ha := length_after (t := t) hb
    rw [trace, left, length_putUint32_put hb]
    rcases lt_or_ge w.b.length t.key.length with h | h
    case inl =>
      rw [if_pos h, after_of_lt hb h]
      dsimp only
      rw [buffers_replaced (by simp)]
      simp
    case inr =>
      rw [if_neg h.not_gt]
      rw [after_of_le hb h] at ha ⊢
      exact hi (by dsimp only at ha ⊢; omega)

theorem take_left {b : Bytes} (hb : 8 ≤ b.length) (ht : t.key.length ≤ b.length)
    (ts : List Tombstone) : (left (into b t) ts).take 8 = t.firstBytes b.length ts := by
  induction ts generalizing b t
  case nil => exact take_into b t
  case cons u ts hi =>
    have hl := length_into hb ht
    have hp := length_putUint32_put (hl.symm ▸ hb) u.key.length
    rw [left, hp, hl, firstBytes]
    split
    case isTrue hu =>
      rw [takeWhile_cons_of_neg (by simpa using hu),
        dropWhile_cons_of_neg (by simpa using hu)]
      have ht := take_into b t
      rw [Scratch.put, take_append, take_of_length_le (by simp)]
      refine congrArg (putUint32 u.key.length ++ ·) ?_
      rw [length_putUint32, take_drop]
      exact congrArg (List.drop 4) ht
    case isFalse hu =>
      have hu : u.key.length ≤ b.length := Nat.le_of_not_lt hu
      rw [hi (by omega) (by omega), hp, hl, firstBytes,
        takeWhile_cons_of_pos (by simpa using hu),
        dropWhile_cons_of_pos (by simpa using hu), getLastD_cons]

theorem getElem?_left {b k : Bytes} {ts : List Tombstone} (hb : 8 ≤ b.length)
    (hk : ∀ u ∈ ts.takeWhile (·.key.length ≤ b.length), k <+: u.key ∨ u.key <+: k)
    (h : ∀ i, 8 ≤ i → i < k.length → b[i]? = k[i]?) :
    ∀ i, 8 ≤ i → i < k.length → (left b ts)[i]? = k[i]? := by
  induction ts generalizing b
  case nil => exact h
  case cons u ts hi =>
    have hp := length_putUint32_put hb u.key.length
    have h₁ : ∀ i, 8 ≤ i → i < k.length →
        (Scratch.put (putUint32 u.key.length) b)[i]? = k[i]? := fun i h₁ h₂ => by
      rw [Scratch.getElem?_put_ge (by rw [length_putUint32]; omega), h i h₁ h₂]
    rw [left, hp]
    split
    case isTrue => exact h₁
    case isFalse hu =>
      have hu : u.key.length ≤ b.length := Nat.le_of_not_lt hu
      rw [takeWhile_cons_of_pos (by simpa using hu), forall_mem_cons] at hk
      have hl := length_into (hp.symm ▸ hb) (t := u) (hp.symm ▸ hu)
      rw [hp] at hl
      refine hi (by omega) (hl.symm ▸ hk.2) fun i h₂ h₃ => ?_
      rw [getElem?_into h₂]
      rcases lt_or_ge i u.key.length with h₄ | h₄
      case inr => rw [Scratch.getElem?_put_ge h₄, h₁ i h₂ h₃]
      case inl =>
        rw [Scratch.getElem?_put_lt h₄]
        rcases hk.1 with hk | hk
        case inl => exact getElem?_of_isPrefix hk h₃
        case inr => exact (getElem?_of_isPrefix hk h₄).symm

theorem into_take_iff {b : Bytes} :
    (into b t).take t.key.length = t.key ↔ t.key.take 8 <+: putInt64 t.max := by
  rw [eq_comm, ← prefix_iff_eq_take, isPrefix_iff_take 8, take_into, and_iff_left]
  intro i h₁ h₂
  rw [getElem?_into h₁, Scratch.getElem?_put_lt h₂]

theorem left_take_iff {b : Bytes} {ts : List Tombstone} (hb : 8 ≤ b.length)
    (ht : t.key.length ≤ b.length)
    (hk : ∀ u ∈ ts.takeWhile (·.key.length ≤ b.length), u.key <+: left (into b t) ts) :
    (left (into b t) ts).take t.key.length = t.key ↔
      (∀ u ∈ ts.takeWhile (·.key.length ≤ b.length), t.key <+: u.key ∨ u.key <+: t.key) ∧
      t.key.take 8 <+: t.firstBytes b.length ts := by
  rw [eq_comm, ← prefix_iff_eq_take]
  constructor
  case mp =>
    intro h
    refine ⟨fun u hu => prefix_or_prefix_of_prefix h (hk u hu), ?_⟩
    rw [← take_left hb ht]
    exact h.take 8
  case mpr =>
    intro ⟨h₁, h₂⟩
    have hl := length_into hb ht
    rw [isPrefix_iff_take 8, take_left hb ht]
    refine ⟨h₂, getElem?_left (by omega) (hl.symm ▸ h₁) fun i h₃ h₄ => ?_⟩
    rw [getElem?_into h₃, Scratch.getElem?_put_lt h₄]

def seen (r : List Record × Scratch) : List Tombstone :=
  r.1.map fun x => { key := x.seen, min := x.min, max := x.max }

def kept (r : List Record × Scratch) : List Tombstone :=
  r.1.map fun x => { key := r.2.bytes x.key, min := x.min, max := x.max }

theorem bytes_trace {w : Scratch} (hb : 8 ≤ w.b.length) (ts : List Tombstone) (n : Nat) :
    (trace w ts).2.bytes (w.slice n) = (left w.b ts).take n := by
  rw [Scratch.bytes, Scratch.slice, buffers_trace hb]
  rfl

theorem mk_cons_eq_iff {k : Bytes} {l : List Tombstone} :
    ({ key := k, min := t.min, max := t.max } : Tombstone) :: l = t :: ts ↔
      k = t.key ∧ l = ts := by
  rw [cons_eq_cons]
  exact and_congr_left' ⟨fun h => congrArg key h, fun h => by rw [h]⟩

theorem seen_cons_iff {w : Scratch} : seen (trace w (t :: ts)) = t :: ts ↔
    (after w t).b.take t.key.length = t.key ∧ seen (trace (after w t) ts) = ts := by
  rw [trace, seen, map_cons, mk_cons_eq_iff, Scratch.bytes_slice]
  rfl

theorem kept_cons_iff {w : Scratch} (hb : 8 ≤ w.b.length) :
    kept (trace w (t :: ts)) = t :: ts ↔
      (left (after w t).b ts).take t.key.length = t.key ∧ kept (trace (after w t) ts) = ts := by
  have ha : 8 ≤ (after w t).b.length := by
    rw [length_after hb]
    omega
  rw [trace, kept, map_cons, mk_cons_eq_iff, bytes_trace ha]
  rfl

theorem isPrefix_of_kept {w : Scratch} (hb : 8 ≤ w.b.length) (h : kept (trace w ts) = ts) :
    ∀ u ∈ ts.takeWhile (·.key.length ≤ w.b.length), u.key <+: left w.b ts := by
  induction ts generalizing w
  case nil => exact fun u hu => absurd hu not_mem_nil
  case cons t ts hi =>
    have ⟨h₁, h₂⟩ := (kept_cons_iff hb).mp h
    rcases lt_or_ge w.b.length t.key.length with ht | ht
    case inl =>
      rw [takeWhile_cons_of_neg (by simpa using ht)]
      exact fun u hu => absurd hu not_mem_nil
    case inr =>
      have hl := length_after (t := t) hb
      rw [max_eq_left ht] at hl
      have he : left w.b (t :: ts) = left (after w t).b ts := by
        rw [left, length_putUint32_put hb, if_neg ht.not_gt, after_of_le hb ht]
      rw [takeWhile_cons_of_pos (by simpa using ht), forall_mem_cons, he]
      exact ⟨prefix_iff_eq_take.mpr h₁.symm, hl ▸ hi (hl.symm ▸ hb) h₂⟩

theorem exists_after {w : Scratch} (hb : 8 ≤ w.b.length) (t : Tombstone) :
    ∃ b : Bytes, b.length = max w.b.length t.key.length ∧ (after w t).b = into b t := by
  rcases lt_or_ge w.b.length t.key.length with h | h
  case inl =>
    refine ⟨List.replicate t.key.length 0, ?_, by rw [after_of_lt hb h]⟩
    rw [length_replicate, max_eq_right h.le]
  case inr =>
    refine ⟨Scratch.put (putUint32 t.key.length) w.b, ?_, by rw [after_of_le hb h]⟩
    rw [length_putUint32_put hb, max_eq_left h]

theorem trace_iff {w : Scratch} (hb : 8 ≤ w.b.length) (ts : List Tombstone) :
    seen (trace w ts) = ts ∧ kept (trace w ts) = ts ↔ AllIntact w.b.length ts := by
  induction ts generalizing w
  case nil => exact iff_of_true ⟨rfl, rfl⟩ trivial
  case cons t ts hi =>
    have hl := length_after (t := t) hb
    have ha : 8 ≤ (after w t).b.length := by omega
    rw [seen_cons_iff, kept_cons_iff hb, and_and_and_comm, hi ha, hl, AllIntact]
    refine and_congr_left fun hs => ?_
    rw [← hl, ← hi ha] at hs
    have hp := isPrefix_of_kept ha hs.2
    obtain ⟨b, hm, he⟩ := exists_after hb t
    rw [hl, he] at hp
    rw [he, ← hm, into_take_iff, left_take_iff (by omega) (by omega) (hm.symm ▸ hp)]
    exact ⟨fun ⟨h₁, h₂, h₃⟩ => ⟨h₁, h₂, h₃⟩, fun ⟨h₁, h₂, h₃⟩ => ⟨h₁, h₂, h₃⟩⟩

end TombstoneFile.V2

namespace TombstoneFile

variable {z : Gzip}

theorem take_header (n : Nat) (b : Bytes) : (putUint32 n ++ b).take headerSize = putUint32 n :=
  take_left' (length_putUint32 n)

theorem drop_header (n : Nat) (b : Bytes) : (putUint32 n ++ b).drop headerSize = b :=
  drop_left' (length_putUint32 n)

theorem header_append {n : Nat} (h : n < 2 ^ 32) (b : Bytes) : header (putUint32 n ++ b) = n := by
  rw [header, append_assoc, take_header, uint32_putUint32_of_lt h]

theorem walk_none_V3 (b : Bytes) : walk z .none (some (putUint32 v3header ++ b)) =
    readTombstoneV3 z { rest := putUint32 v3header ++ b, err := none } := by
  have hh := header_append (n := v3header) (by decide) b
  rw [walk]
  simp only [Faults.none, failIf, bind, Except.bind, Faults.stream, hh]
  rfl

theorem walk_none_V2 (b : Bytes) : walk z .none (some (putUint32 v2header ++ b)) =
    readTombstoneV2 (headerSize + b.length) { rest := putUint32 v2header ++ b, err := none } := by
  have hh := header_append (n := v2header) (by decide) b
  rw [walk]
  simp only [Faults.none, failIf, bind, Except.bind, Faults.stream, hh, length_append]
  rfl

theorem walk_none_V1 {b : Bytes} (h : IsV1 b) :
    walk z .none (some b) = copies (readTombstoneV1 b) := by
  rw [walk]
  simp only [Faults.none, failIf, bind, Except.bind, Faults.stream, if_neg h.1, if_neg h.2,
    scanTombstoneV1, ite_self]

theorem copies_eq_ok {w : Walked} : copies w = .ok { seen := ts, kept := ts } ↔
    w = { tombstones := ts, err := none } := by
  obtain ⟨us, err⟩ := w
  cases err <;> simp [copies]

theorem length_le_flatMap_encode (ts : List Tombstone) :
    ts.length ≤ (ts.flatMap encode).length := by
  rw [length_flatMap]
  simpa using card_nsmul_le_sum (ts.map fun t => t.encode.length) 1 <| by
    simp [length_encode]

theorem delivers_fileV3_iff (hz : z.Lossless) :
    Delivers z (fileV3 z ts) ts ↔ ∀ t ∈ ts, t.key.length < 2 ^ 32 := by
  have hd := hz (ts.flatMap encode)
  rw [Delivers, fileV3, walk_none_V3, readTombstoneV3]
  simp only [drop_header, hd, bind, Except.bind]
  rw [copies_eq_ok]
  refine ⟨fun h t ht => ?_, fun h => Stream.walk_flatMap_encode h ?_⟩
  · exact Stream.length_key_lt (by rw [h]; exact ht)
  · exact Nat.lt_succ_of_le (length_le_flatMap_encode ts)

theorem delivers_fileV2_iff (h : ∀ t ∈ ts, t.key.length < 2 ^ 32) :
    Delivers z (fileV2 ts) ts ↔ AllIntact 4096 ts := by
  have hl := V2.loop_flatMap_encode (e := none) (n := headerSize) h
    ((length_le_flatMap_encode ts).trans (Nat.le_add_left _ headerSize)) rfl (Scratch.make 4096)
  have hm : (Scratch.make 4096).b.length = 4096 := length_replicate
  have hi := V2.trace_iff (w := Scratch.make 4096) (by omega) ts
  rw [Delivers, fileV2, walk_none_V2, readTombstoneV2]
  simp only [drop_header, hl, bind, Except.bind, pure, Except.pure, Except.ok.injEq, Walk.mk.injEq]
  rwa [hm] at hi

theorem not_mem_of_mem_splitOn {b l : Bytes} (h : l ∈ b.splitOn x) : x ∉ l := by
  induction b generalizing l
  case nil => simp_all
  case cons c b hi =>
    rw [List.splitOn, splitOnP_cons_eq_if_modifyHead] at h
    split at h
    case isTrue =>
      rcases mem_cons.mp h with rfl | h
      · exact not_mem_nil
      · exact hi h
    case isFalse hc =>
      have hc : x ≠ c := fun he => hc (by simp [he])
      rw [List.splitOn] at hi
      cases hb : List.splitOnP (· == x) b
      case nil => exact absurd hb (splitOnP_ne_nil _ _)
      case cons l' ls =>
        rw [hb, modifyHead_cons] at h
        rcases mem_cons.mp h with rfl | h
        · exact not_mem_cons_of_ne_of_not_mem hc (hi (hb ▸ mem_cons_self))
        · exact hi (hb ▸ mem_cons_of_mem _ h)

theorem splitOn_fileV1 {keys : List Bytes} (h : ∀ k ∈ keys, 10 ∉ k) (terminated : Bool) :
    ∃ l, (fileV1 keys terminated).splitOn 10 = keys ++ l ∧ ∀ k ∈ l, k = [] := by
  cases terminated <;> rw [fileV1]
  case true =>
    refine ⟨[[]], splitOn_intercalate 10 (fun k hk => ?_) (by simp), by simp⟩
    rcases mem_append.mp hk with hk | hk
    · exact h k hk
    · simp_all
  case false =>
    cases keys
    case nil => exact ⟨[[]], rfl, by simp⟩
    case cons k ks => exact ⟨[], by simp [splitOn_intercalate 10 h], by simp⟩

theorem dropCR_eq_self_iff {k : Bytes} : dropCR k = k ↔ k.getLast? ≠ some 13 := by
  rw [dropCR]
  split
  case isFalse h => exact iff_of_true rfl h
  case isTrue h =>
    refine iff_of_false (fun he => ?_) (not_not.mpr h)
    have hl := congrArg List.length he
    rw [length_dropLast] at hl
    cases k
    case nil => cases h
    case cons => simp at hl

theorem dropCR_sublist (k : Bytes) : (dropCR k).Sublist k := by
  rw [dropCR]
  split
  · exact k.dropLast_sublist
  · exact .refl k

theorem readTombstoneV1_iff {b : Bytes} {keys : List Bytes} :
    readTombstoneV1 b = {
      tombstones := keys.map fun key => { key, min := Int64.minValue, max := Int64.maxValue }
      err := none } ↔
    (∀ l ∈ b.splitOn 10, l.length < maxScanTokenSize) ∧
      ((b.splitOn 10).map dropCR).filter (· ≠ []) = keys := by
  have hi : Function.Injective fun key : Bytes =>
      ({ key, min := Int64.minValue, max := Int64.maxValue } : Tombstone) :=
    fun _ _ h => congrArg key h
  have ht : ((b.splitOn 10).takeWhile (·.length < maxScanTokenSize) = b.splitOn 10) ↔
      ∀ l ∈ b.splitOn 10, l.length < maxScanTokenSize := by
    rw [takeWhile_eq_self_iff]
    simp only [decide_eq_true_eq]
  rw [readTombstoneV1, Walked.mk.injEq, (map_injective_iff.mpr hi).eq_iff, ← ht, and_comm]
  by_cases h : (b.splitOn 10).takeWhile (·.length < maxScanTokenSize) = b.splitOn 10
  case pos => simp only [h, if_pos]
  case neg => simp only [h, if_false, false_and, reduceCtorEq]

theorem delivers_fileV1_iff {keys : List Bytes} (hk : ∀ k ∈ keys, k ≠ [])
    (hv : IsV1 (fileV1 keys terminated)) :
    Delivers z (fileV1 keys terminated)
      (keys.map fun key => { key, min := Int64.minValue, max := Int64.maxValue }) ↔
      ∀ k ∈ keys, 10 ∉ k ∧ k.getLast? ≠ some 13 ∧ k.length < maxScanTokenSize := by
  rw [Delivers, walk_none_V1 hv, copies_eq_ok, readTombstoneV1_iff]
  constructor
  case mp =>
    intro ⟨hl, he⟩
    have hm {k : Bytes} (h : k ∈ keys) : 10 ∉ k ∧ k.length < maxScanTokenSize := by
      rw [← he] at h
      obtain ⟨l, hm, rfl⟩ := mem_map.mp (mem_of_mem_filter h)
      have hs := dropCR_sublist l
      exact ⟨fun hc => not_mem_of_mem_splitOn hm (hs.subset hc), hs.length_le.trans_lt (hl l hm)⟩
    obtain ⟨l, hs, hn⟩ := splitOn_fileV1 (fun k hk => (hm hk).1) terminated
    have hl : (l.map dropCR).filter (· ≠ []) = [] := by
      refine filter_eq_nil_iff.mpr fun k hk => ?_
      obtain ⟨k', hk', rfl⟩ := mem_map.mp hk
      simp [hn k' hk', dropCR]
    rw [hs, map_append, filter_append, hl, append_nil] at he
    have hc : keys.map dropCR = keys := by
      have hf := filter_sublist (l := keys.map dropCR) (p := fun k => decide (k ≠ []))
      rw [he] at hf
      exact (hf.eq_of_length (by simp)).symm
    have hc : ∀ k ∈ keys, dropCR k = k :=
      map_eq_map_iff.mp (hc.trans keys.map_id.symm)
    exact fun k hk => ⟨(hm hk).1, dropCR_eq_self_iff.mp (hc k hk), (hm hk).2⟩
  case mpr =>
    intro h
    obtain ⟨l, hs, hn⟩ := splitOn_fileV1 (fun k hk => (h k hk).1) terminated
    have hd : (keys ++ l).map dropCR = keys ++ l := by
      refine map_congr_left (g := id) (fun k hm => ?_) |>.trans (map_id _)
      rcases mem_append.mp hm with hm | hm
      · exact dropCR_eq_self_iff.mpr (h k hm).2.1
      · rw [hn k hm]; rfl
    have hl : l.filter (· ≠ []) = [] := filter_eq_nil_iff.mpr fun k hk => by simp [hn k hk]
    rw [hs, hd, filter_append, hl, append_nil]
    refine ⟨fun k hm => ?_, filter_eq_self.mpr fun k hm => by simpa using hk k hm⟩
    rcases mem_append.mp hm with hm | hm
    · exact (h k hm).2.2
    · rw [hn k hm]; decide

-- The key that is read from a file of the second version is overwritten by the times that follow.
theorem files_mean_the_same_iff (hz : z.Lossless) (ts : List Tombstone) :
    (Delivers z (fileV3 z ts) ts ∧ Delivers z (fileV2 ts) ts ↔
      (∀ t ∈ ts, t.key.length < 2 ^ 32) ∧ AllIntact 4096 ts) ∧
    ∀ keys terminated, (∀ k ∈ keys, k ≠ []) → IsV1 (fileV1 keys terminated) →
      (Delivers z (fileV1 keys terminated)
        (keys.map fun key => { key, min := Int64.minValue, max := Int64.maxValue }) ↔
        ∀ k ∈ keys, 10 ∉ k ∧ k.getLast? ≠ some 13 ∧ k.length < maxScanTokenSize) := by
  refine ⟨?_, fun keys terminated hk hv => delivers_fileV1_iff hk hv⟩
  rw [delivers_fileV3_iff hz]
  exact and_congr_right fun h => delivers_fileV2_iff h

def plain : Gzip where
  compress := id
  decompress := .ok

theorem files_mean_the_same_zero :
    (Delivers plain (fileV3 plain [{ key := [0], min := 1, max := 2 }])
      [{ key := [0], min := 1, max := 2 }] ∧
    Delivers plain (fileV2 [{ key := [0], min := 1, max := 2 }])
      [{ key := [0], min := 1, max := 2 }]) ∧
    Delivers plain (fileV1 [[97]] true)
      [{ key := [97], min := Int64.minValue, max := Int64.maxValue }] := by
  have ⟨h₁, h₂⟩ := files_mean_the_same_iff (z := plain) (fun _ => rfl)
    [{ key := [0], min := 1, max := 2 }]
  refine ⟨h₁.mpr ⟨by simp, ⟨⟨by decide, by simp, by decide⟩, trivial⟩⟩, ?_⟩
  exact (h₂ [[97]] true (by simp) ⟨by decide, by decide⟩).mpr (by simp [maxScanTokenSize])

theorem key_overwritten_by_times :
    Delivers plain (fileV3 plain [{ key := [97], min := 1, max := 2 }])
      [{ key := [97], min := 1, max := 2 }] ∧
    ¬Delivers plain (fileV2 [{ key := [97], min := 1, max := 2 }])
      [{ key := [97], min := 1, max := 2 }] := by
  refine ⟨(delivers_fileV3_iff fun _ => rfl).mpr (by simp), fun h => ?_⟩
  have ha := (delivers_fileV2_iff (by simp)).mp h
  exact absurd ha.1.own (by decide)

theorem V2.length_of_record {w : Scratch} (h : record s w = .ok (r, s', w')) :
    r.key.len < 2 ^ 32 := by
  rw [record] at h
  cases h₁ : read s 4 <;> simp only [bind, Except.bind, h₁] at h
  case error => cases h
  case ok r₁ =>
    have hl : uint32 (((w.read r₁.1).b).take 4) < 2 ^ 32 := by
      refine (uint64_lt _).trans_le ?_
      exact Nat.pow_le_pow_right (by decide) (length_take_le 4 _)
    generalize uint32 (((w.read r₁.1).b).take 4) = n at h hl
    cases h₂ : read r₁.2 n <;> simp only [h₂] at h
    case error => cases h
    case ok r₂ =>
      cases h₃ : read r₂.2 8 <;> simp only [h₃] at h
      case error => cases h
      case ok r₃ =>
        cases h₄ : read r₃.2 8 <;> simp only [h₄] at h <;> cases h
        exact hl

theorem V2.length_of_loop {w : Scratch} (h : loop size fuel n s w = .ok (rs, w')) :
    ∀ r ∈ rs, r.key.len < 2 ^ 32 := by
  induction fuel generalizing n s w rs
  case zero => cases h; exact fun r hr => absurd hr not_mem_nil
  case succ fuel hi =>
    rw [loop] at h
    split at h
    case isTrue => cases h; exact fun r hr => absurd hr not_mem_nil
    case isFalse =>
      cases hr : record s w <;> simp only [bind, Except.bind, hr] at h
      case error => cases h
      case ok r₁ =>
        obtain ⟨r, s₁, w₁⟩ := r₁
        dsimp only at h
        cases hl : loop size fuel (n + 4 + r.key.len + 8 + 8) s₁ w₁ <;> rw [hl] at h <;> cases h
        exact forall_mem_cons.mpr ⟨V2.length_of_record hr, hi hl⟩

theorem length_of_readTombstoneV1 {b : Bytes} (h : t ∈ (readTombstoneV1 b).tombstones) :
    t.key.length < 2 ^ 32 := by
  obtain ⟨k, hk, rfl⟩ := mem_map.mp h
  obtain ⟨l, hl, rfl⟩ := mem_map.mp (mem_of_mem_filter hk)
  have hm : l.length < maxScanTokenSize := by simpa using mem_takeWhile_imp hl
  have hs := (dropCR_sublist l).length_le
  exact lt_trans (hs.trans_lt hm) (by decide)

theorem kept_of_copies {w : Walked} (h : copies w = .ok v) : v.kept = w.tombstones := by
  rw [copies] at h
  split at h <;> cases h
  rfl

theorem length_of_scanTombstoneV1 (h : scanTombstoneV1 s = .ok v) :
    ∀ t ∈ v.kept, t.key.length < 2 ^ 32 := by
  rw [scanTombstoneV1] at h
  split at h
  case h_2 => cases h
  case h_1 =>
    rw [kept_of_copies h]
    exact fun t => length_of_readTombstoneV1

theorem length_of_readTombstoneV2 (h : readTombstoneV2 size s = .ok v) :
    ∀ t ∈ v.kept, t.key.length < 2 ^ 32 := by
  rw [readTombstoneV2] at h
  dsimp only at h
  generalize ({ s with rest := s.rest.drop headerSize } : Stream) = s' at h
  cases hl : V2.loop size size headerSize s' (Scratch.make 4096) <;> rw [hl] at h <;> cases h
  case ok r =>
    intro t ht
    obtain ⟨x, hx, rfl⟩ := mem_map.mp ht
    exact (length_take_le _ _).trans_lt (V2.length_of_loop hl x hx)

theorem length_of_readTombstoneV3 (h : readTombstoneV3 z s = .ok v) :
    ∀ t ∈ v.kept, t.key.length < 2 ^ 32 := by
  rw [readTombstoneV3] at h
  cases hd : z.decompress { s with rest := s.rest.drop headerSize } <;>
    simp only [hd, bind, Except.bind] at h
  case error => cases h
  case ok s' =>
    rw [kept_of_copies h]
    exact fun t => Stream.length_key_lt

theorem failIf_bind_eq_ok {x : Except String α} :
    (failIf e >>= fun _ => x) = .ok a ↔ e = none ∧ x = .ok a := by
  cases e <;> simp [failIf, bind, Except.bind]

theorem walk_some_eq_ok (h : walk z f (some b) = .ok v) :
    scanTombstoneV1 (f.stream b) = .ok v ∨ readTombstoneV2 b.length (f.stream b) = .ok v ∨
      readTombstoneV3 z (f.stream b) = .ok v := by
  unfold walk at h
  have ⟨_, h⟩ := failIf_bind_eq_ok.mp h
  dsimp only at h
  split at h
  case isTrue => exact .inl h
  case isFalse =>
    have ⟨_, h⟩ := failIf_bind_eq_ok.mp h
    split at h
    case isTrue => exact .inr <| .inr (failIf_bind_eq_ok.mp h).2
    case isFalse =>
      split at h
      case isTrue => exact .inr <| .inl (failIf_bind_eq_ok.mp h).2
      case isFalse => exact .inl h

theorem length_of_readTombstone (h : readTombstone z f file = .ok ts) :
    ∀ t ∈ ts, t.key.length < 2 ^ 32 := by
  cases hw : walk z f file <;> rw [readTombstone, hw] at h <;> cases h
  case ok v =>
    cases file
    case none =>
      have ⟨_, hv⟩ := failIf_bind_eq_ok.mp hw
      cases hv
      exact fun t ht => absurd ht not_mem_nil
    case some b =>
      rcases walk_some_eq_ok hw with hw | hw | hw
      · exact length_of_scanTombstoneV1 hw
      · exact length_of_readTombstoneV2 hw
      · exact length_of_readTombstoneV3 hw

theorem readAll_fileV3_iff (hz : z.Lossless) :
    ReadAll z (some (fileV3 z ts)) = .ok ts ↔ ∀ t ∈ ts, t.key.length < 2 ^ 32 := by
  refine ⟨length_of_readTombstone, fun h => ?_⟩
  rw [ReadAll, readTombstone, (delivers_fileV3_iff hz).mpr h]
  rfl

-- An error that occurs while the old tombstones are read is lost, and so are the new ones.
theorem recorded_iff (hz : z.Lossless) (f : Faults) {path : String} (hp : path ≠ "")
    (file : Option Bytes) {keys : List Bytes} (hk : keys ≠ []) (min max : Int64) :
    Recorded z f path file keys min max ↔ ∃ old, readTombstone z f file = .ok old ∧
      (f.write ≠ none ∨ f.syncDir ≠ none ∨
        ReadAll z file = .ok old ∧ ∀ k ∈ keys, k.length < 2 ^ 32) := by
  rw [Recorded, AddRange, if_neg hk, if_neg hp]
  cases hr : readTombstone z f file
  case error e =>
    refine iff_of_false (fun h => ?_) (fun ⟨_, h, _⟩ => nomatch h)
    obtain ⟨old, h₁, h₂⟩ := h rfl
    rw [h₁, Except.ok.injEq, self_eq_append_right, added, map_eq_nil_iff] at h₂
    exact hk h₂
  case ok old =>
    simp only [Except.ok.injEq, exists_eq_left']
    rw [writeTombstone]
    cases hw : f.write
    case some e => simp
    case none =>
      cases hs : f.syncDir
      case some e => simp
      case none =>
        have hl : (∀ t ∈ old ++ added keys min max, t.key.length < 2 ^ 32) ↔
            ∀ k ∈ keys, k.length < 2 ^ 32 := by
          rw [forall_mem_append, and_iff_right (length_of_readTombstone hr)]
          simp [added]
        simp only [ne_eq, not_true_eq_false, false_or, forall_const]
        rw [← hl, ← readAll_fileV3_iff hz]
        constructor
        case mp =>
          intro ⟨old', h₁, h₂⟩
          -- What is read has short keys, so that it is what was written.
          have hn := (forall_mem_append.mp <| length_of_readTombstone h₂).2
          have ha := (readAll_fileV3_iff hz).mpr <|
            forall_mem_append.mpr ⟨length_of_readTombstone hr, hn⟩
          rw [ha, Except.ok.injEq, append_left_inj] at h₂
          exact ⟨h₂ ▸ h₁, ha⟩
        case mpr => exact fun ⟨h₁, h₂⟩ => ⟨old, h₁, h₂⟩

theorem recorded_first : Recorded plain .none "000001-01.tsm" none [[97]] 1 2 :=
  (recorded_iff (fun _ => rfl) _ (by decide) _ (by simp) _ _).mpr
    ⟨[], rfl, .inr <| .inr ⟨rfl, by simp⟩⟩

def truncated : Bytes :=
  putUint32 v2header ++ [0]

theorem readAll_truncated : ReadAll plain (some truncated) = .error "EOF" := by
  decide +kernel

theorem lost_after_truncated :
    AddRange plain .none "000001-01.tsm" (some truncated) [[97]] 1 2 = (some truncated, none) ∧
    ¬Recorded plain .none "000001-01.tsm" (some truncated) [[97]] 1 2 := by
  have ha : AddRange plain .none "000001-01.tsm" (some truncated) [[97]] 1 2 =
      (some truncated, none) := by
    have hr : readTombstone plain .none (some truncated) = .error "EOF" := readAll_truncated
    rw [AddRange, if_neg (by simp), if_neg (by decide), hr]
  refine ⟨ha, fun h => ?_⟩
  rw [Recorded, ha] at h
  obtain ⟨old, hr, -⟩ := h rfl
  rw [readAll_truncated] at hr
  cases hr

end TombstoneFile

end Tsm1
