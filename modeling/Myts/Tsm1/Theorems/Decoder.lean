import Myts.Tsm1.Decoder

namespace Tsm1

open TimeDecoder

namespace BooleanDecoder

variable {d : BooleanDecoder} {b : Bytes}

def Exhausted (d : BooleanDecoder) : Prop :=
  d.err = none ∧ ¬d.i + 1 < d.n

def Uncounted (b : Bytes) : Prop :=
  b ≠ [] ∧ Bytes.uvarint b.tail = none

theorem drain_of_err (h : d.err = some e) (k : Nat) :
    decoder.drain k d = .ok ([], if k = 0 then none else some (some e)) := by
  have hn : decoder.next d = .ok (false, d) := by
    simp [decoder, next, h]
  exact (Decoder.drain_of_next hn k).trans <| by rw [← h]; rfl

theorem drain_of_exhausted (h : d.Exhausted) (k : Nat) :
    decoder.drain k d = .ok ([], if k = 0 then none else some none) := by
  have hn : decoder.next d = .ok (false, { d with i := d.i + 1 }) := by
    simp [decoder, next, h.left, h.right]
  exact (Decoder.drain_of_next hn k).trans <| by rw [← h.left]; rfl

theorem of_drain_one (h : decoder.drain 1 d = .ok ([], some x)) :
    d.err = x ∧ (x = none → d.Exhausted) := by
  cases he : d.err
  case some e =>
    cases h.symm.trans (drain_of_err he 1)
    exact ⟨rfl, nofun⟩
  case none =>
    by_cases hlt : d.i + 1 < d.n
    case neg =>
      cases h.symm.trans (drain_of_exhausted ⟨he, hlt⟩ 1)
      exact ⟨rfl, fun _ => ⟨he, hlt⟩⟩
    case pos =>
      have hn : decoder.next d = .ok (true, { d with i := d.i + 1 }) := by
        simp [decoder, next, he, hlt]
      rw [Decoder.drain, hn, Go.ok_bind] at h
      obtain ⟨_, _, h⟩ := Go.bind_eq_ok.mp h
      obtain ⟨_, _, h⟩ := Go.bind_eq_ok.mp h
      cases h

theorem agrees_nil_iff : decoder.Agrees d new [] ↔ d.Exhausted where
  mp h := (of_drain_one (h 1)).right rfl
  mpr h k := (drain_of_exhausted h k).trans (drain_of_exhausted ⟨rfl, by decide⟩ k).symm

theorem agrees_cons_iff :
    decoder.Agrees d new (c :: b) ↔ d.err = none ∨ Uncounted (c :: b) := by
  cases hu : Bytes.uvarint b
  case none =>
    refine iff_of_true (fun k => ?_) (.inr ⟨List.cons_ne_nil _ _, hu⟩)
    have hs (d : BooleanDecoder) : d.setBytes (c :: b) =
        { d with err := some "BooleanDecoder: invalid count" } := by
      rw [setBytes, hu]
    have hd (d : BooleanDecoder) :
        decoder.decode (c :: b) k d = decoder.drain k (d.setBytes (c :: b)) := rfl
    rw [hd, hd, hs, hs, drain_of_err rfl, drain_of_err rfl]
  case some x =>
    have hs (d : BooleanDecoder) : d.setBytes (c :: b) =
        { new.setBytes (c :: b) with err := d.err } := by
      rw [setBytes, setBytes, hu]
    constructor
    case mp =>
      intro h
      cases he : d.err
      case none => exact .inl rfl
      case some e =>
        have h₁ : decoder.drain 1 (d.setBytes (c :: b)) = .ok ([], some (some e)) :=
          drain_of_err (by rw [hs, he]) 1
        have h₂ := of_drain_one <| (h 1).symm.trans h₁
        rw [hs] at h₂
        cases h₂.left
    case mpr =>
      rintro (he | hn)
      · refine Decoder.agrees_of_init ?_
        exact congrArg Except.ok <| (hs d).trans <| he ▸ (hs new).symm
      · cases hu.symm.trans hn.right

theorem agrees_iff : decoder.Agrees d new b ↔
    if b = [] then d.Exhausted else d.err = none ∨ Uncounted b := by
  cases b
  case nil => exact agrees_nil_iff.trans (by simp)
  case cons c b => exact agrees_cons_iff.trans (by simp)

end BooleanDecoder

namespace TimeDecoder

variable {s : Simple8b} {d d' : TimeDecoder}

def Alike (d d' : TimeDecoder) : Prop :=
  ∃ n rleDelta, d' = { d with n, rleDelta } ∧
    (d.err = none → d.encoding = compressedRLE → n = d.n ∧ rleDelta = d.rleDelta)

theorem Alike.next (h : Alike d d') : Decoder.Alike Alike d.next d'.next := by
  obtain ⟨n, r, rfl, h⟩ := h
  rw [next, next]
  dsimp only
  split
  case isTrue => exact .inr ⟨_, _, _, rfl, rfl, n, r, rfl, h⟩
  case isFalse he =>
    have he : d.err = none := by simpa using he
    split
    case isTrue hr =>
      obtain ⟨rfl, rfl⟩ := h he hr
      split
      all_goals exact .inr ⟨_, _, _, rfl, rfl, _, _, rfl, fun _ _ => ⟨rfl, rfl⟩⟩
    case isFalse hr =>
      split
      case isTrue => exact .inr ⟨_, _, _, rfl, rfl, n, r, rfl, fun _ hx => absurd hx hr⟩
      case isFalse =>
        cases d.ts[d.i.toInt.toNat]?
        case none => exact .inl ⟨_, rfl, rfl⟩
        case some t => exact .inr ⟨_, _, _, rfl, rfl, n, r, rfl, fun _ hx => absurd hx hr⟩

theorem alike_decode (d : TimeDecoder) (n rleDelta : Int64) (b : Bytes) :
    Alike (d.decode s b) ({ d with n, rleDelta }.decode s b) := by
  rw [decode, decode]
  dsimp only
  split
  case isTrue h =>
    exact ⟨_, _, rfl, fun _ he => absurd (h.symm.trans he) (by decide)⟩
  case isFalse =>
    split
    case isTrue =>
      rw [decodeRLE, decodeRLE]
      split
      case isTrue => exact ⟨_, _, rfl, nofun⟩
      case isFalse =>
        split
        case h_1 => exact ⟨_, _, rfl, nofun⟩
        case h_2 =>
          split
          case h_1 => exact ⟨_, _, rfl, nofun⟩
          case h_2 => exact ⟨_, _, rfl, fun _ _ => ⟨rfl, rfl⟩⟩
    case isFalse hr =>
      split
      case isTrue =>
        rw [decodePacked, decodePacked]
        split
        all_goals exact ⟨_, _, rfl, fun _ he => absurd he hr⟩
      case isFalse => exact ⟨_, _, rfl, nofun⟩

theorem agrees_cons : (decoder s).Agrees d new (c :: b) := by
  intro k
  have ha := alike_decode (s := s) ⟨0, 0, d.n, [], none, d.rleDelta, encodingOf c⟩ 0 0 (c :: b)
  refine Decoder.drain_congr ha (fun d d' h => ?_) (fun _ _ => Alike.next) (fun _ e e' _ h => ?_) k
  · obtain ⟨_, _, rfl, _⟩ := h
    rfl
  · refine .inr ⟨e.v, e, e', rfl, ?_, h⟩
    obtain ⟨_, _, rfl, _⟩ := h
    rfl

theorem next_empty (h : d.encoding ≠ compressedRLE ∨ d.n ≤ 1) :
    ∃ e, (decoder s).next ⟨0, 0, d.n, [], none, d.rleDelta, d.encoding⟩ = .ok (false, e) ∧
      (decoder s).err e = none := by
  dsimp only [decoder]
  rw [next, if_neg (by simp)]
  dsimp only
  split
  case isTrue hr =>
    have hn : ¬0 + 1 < d.n := Int64.not_lt.mpr <| h.resolve_left (not_not.mpr hr)
    split
    case isTrue => exact ⟨_, rfl, rfl⟩
    case isFalse => exact ⟨_, congrArg (fun x => Except.ok (x, _)) (decide_eq_false hn), rfl⟩
  case isFalse => exact ⟨_, rfl, rfl⟩

theorem next_stale (hr : d.encoding = compressedRLE) (hn : 1 < d.n) :
    ∃ e, (decoder s).next ⟨0, 0, d.n, [], none, d.rleDelta, d.encoding⟩ = .ok (true, e) := by
  have hi : ¬d.n ≤ 0 := Int64.not_le.mpr <| Int64.lt_trans (by decide) hn
  dsimp only [decoder]
  rw [next, if_neg (by simp), if_pos hr, if_neg hi]
  exact ⟨_, congrArg (fun x => Except.ok (x, _)) (decide_eq_true hn)⟩

theorem agrees_nil_iff :
    (decoder s).Agrees d new [] ↔ d.encoding ≠ compressedRLE ∨ d.n ≤ 1 := by
  have hn : (decoder s).next new = .ok (false, new) := rfl
  have hnew := Decoder.drain_of_next hn
  constructor
  case mp =>
    intro h
    by_contra hc
    obtain ⟨hr, hn⟩ := not_or.mp hc
    obtain ⟨e, he⟩ := next_stale (s := s) (not_not.mp hr) (Int64.not_le.mp hn)
    have hk := (h 1).trans (hnew 1)
    have hd : (decoder s).decode [] 1 d =
      (decoder s).drain 1 ⟨0, 0, d.n, [], none, d.rleDelta, d.encoding⟩ := rfl
    rw [hd, Decoder.drain, he, Go.ok_bind] at hk
    cases hk
  case mpr =>
    intro h k
    obtain ⟨e, he, hn⟩ := next_empty (s := s) h
    refine (Decoder.drain_of_next he k).trans <| .trans ?_ (hnew k).symm
    rw [hn]
    rfl

theorem agrees_iff : (decoder s).Agrees d new b ↔
    b ≠ [] ∨ d.encoding ≠ compressedRLE ∨ d.n ≤ 1 := by
  cases b
  case nil => exact agrees_nil_iff.trans (by simp)
  case cons c b => exact iff_of_true agrees_cons (.inl <| List.cons_ne_nil _ _)

end TimeDecoder

namespace IntegerDecoder

variable {s : Simple8b} {d d' : IntegerDecoder}

def Alike (d d' : IntegerDecoder) : Prop :=
  ∃ values, d' = { d with values } ∧
    (d.encoding ≠ 2 → ∀ j : Nat, j < d.n.toInt → values[j]? = d.values[j]?)

theorem toInt_ofNat_le (n : Nat) : (Int64.ofNat n).toInt ≤ n := by
  rw [Int64.toInt_ofNat', Int.bmod_def, show Int64.size = 18446744073709551616 from rfl]
  split <;> omega

theorem Alike.store (h : Alike d d') (xs : List UInt64) : Alike (d.store xs) (d'.store xs) := by
  obtain ⟨values, rfl, _⟩ := h
  refine ⟨_, rfl, fun _ j hj => ?_⟩
  have hj : j < xs.length := by
    have := toInt_ofNat_le xs.length
    dsimp only [IntegerDecoder.store] at hj
    omega
  by_cases hl : j < 240
  case pos => simp [IntegerDecoder.store, hl, List.getElem?_eq_getElem hj]
  case neg => simp [hl]

theorem Alike.fail (h : Alike d d') (e : String) : Alike (d.fail e) (d'.fail e) := by
  obtain ⟨values, rfl, h⟩ := h
  exact ⟨values, rfl, h⟩

theorem Alike.decodeUncompressed (h : Alike d d') :
    Alike d.decodeUncompressed d'.decodeUncompressed := by
  have ⟨_, he, _⟩ := h
  subst he
  rw [IntegerDecoder.decodeUncompressed, IntegerDecoder.decodeUncompressed]
  dsimp only
  split
  case isTrue => exact h
  case isFalse =>
    split
    case isTrue => exact h.fail _
    case isFalse => exact h.store _

theorem Alike.decodePacked (h : Alike d d') :
    Alike (d.decodePacked s) (d'.decodePacked s) := by
  have ⟨values, he, hv⟩ := h
  subst he
  rw [IntegerDecoder.decodePacked, IntegerDecoder.decodePacked]
  dsimp only
  split
  case isTrue => exact h
  case isFalse =>
    split
    case isTrue => exact h.fail _
    case isFalse =>
      split
      case isTrue =>
        have h : Alike { d with first := false } { d with values, first := false } :=
          ⟨values, rfl, hv⟩
        exact h.store _
      case isFalse =>
        split
        case h_1 => exact h.store _
        case h_2 => exact (h.fail _).store _

theorem Alike.decodeRLE (h : Alike d d') (hr : d.encoding = 2) :
    Alike d.decodeRLE d'.decodeRLE := by
  have ⟨values, he, _⟩ := h
  subst he
  rw [IntegerDecoder.decodeRLE, IntegerDecoder.decodeRLE]
  dsimp only
  split
  case isTrue => exact h
  case isFalse =>
    split
    case isTrue => exact h.fail _
    case isFalse =>
      split
      case h_1 => exact h.fail _
      case h_2 =>
        split
        case h_1 => exact h.fail _
        case h_2 => exact ⟨values, rfl, fun hne => absurd hr hne⟩

theorem Alike.refill (h : Alike d d') : Alike (d.refill s) (d'.refill s) := by
  have ⟨_, he, _⟩ := h
  have hd : d'.encoding = d.encoding := he ▸ rfl
  rw [IntegerDecoder.refill, IntegerDecoder.refill, hd]
  split
  case isTrue => exact h.decodeUncompressed
  case isFalse =>
    split
    case isTrue => exact h.decodePacked
    case isFalse =>
      split
      case isTrue hr => exact h.decodeRLE hr
      case isFalse => exact h.fail _

theorem Alike.next (h : Alike d d') :
    Decoder.Alike Alike ((decoder s).next d) ((decoder s).next d') := by
  have ⟨values, he, hv⟩ := h
  subst he
  have hi : Alike { d with i := d.i + 1 } { d with values, i := d.i + 1 } := ⟨values, rfl, hv⟩
  dsimp only [decoder]
  rw [IntegerDecoder.next, IntegerDecoder.next]
  dsimp only
  split
  case isTrue => exact .inr ⟨_, _, _, rfl, rfl, h⟩
  case isFalse =>
    split
    case isFalse => exact .inr ⟨_, _, _, rfl, rfl, hi⟩
    case isTrue =>
      have hr := hi.refill (s := s)
      refine .inr ⟨_, _, _, rfl, ?_, hr⟩
      have ⟨_, hr, _⟩ := hr
      rw [hr]

theorem lt_of_next (h : (decoder s).next d = .ok (true, e)) : e.i < e.n := by
  have h := Except.ok.inj h
  rw [IntegerDecoder.next] at h
  split at h
  case isTrue => cases h
  case isFalse =>
    have ⟨hm, he⟩ := Prod.ext_iff.mp h
    subst he
    exact of_decide_eq_true (Bool.and_eq_true_iff.mp hm).right

theorem Alike.read (h : Alike d d') (hi : d.i < d.n) : Decoder.Alike Alike d.read d'.read := by
  have ⟨values, he, hv⟩ := h
  subst he
  rw [IntegerDecoder.read, IntegerDecoder.read]
  dsimp only
  split
  case isTrue => exact .inr ⟨_, _, _, rfl, rfl, h⟩
  case isFalse hr =>
    by_cases h0 : 0 ≤ d.i
    case neg =>
      rw [if_neg h0, if_neg h0]
      exact .inl ⟨_, rfl, rfl⟩
    case pos =>
      have hj : (d.i.toInt.toNat : Int) < d.n.toInt := by
        have h0 := Int64.le_iff_toInt_le.mp h0
        have hi := Int64.lt_iff_toInt_lt.mp hi
        rw [Int.toNat_of_nonneg h0]
        exact hi
      rw [if_pos h0, if_pos h0, hv hr _ hj]
      cases d.values[d.i.toInt.toNat]?
      case none => exact .inl ⟨_, rfl, rfl⟩
      case some x => exact .inr ⟨_, _, _, rfl, rfl, values, rfl, hv⟩

theorem agrees (d : IntegerDecoder) (b : Bytes) : (decoder s).Agrees d new b := by
  intro k
  have ha : Alike (d.setBytes b) (new.setBytes b) :=
    ⟨_, rfl, fun _ j hj => absurd hj <| by simp [setBytes]⟩
  refine Decoder.drain_congr ha (fun d d' h => ?_) (fun _ _ => Alike.next)
    (fun _ e e' hn h => h.read (lt_of_next hn)) k
  have ⟨_, he, _⟩ := h
  rw [he]
  rfl

end IntegerDecoder

namespace FloatDecoder

theorem agrees (d : FloatDecoder) (b : Bytes) : decoder.Agrees d new b := by
  cases b
  case cons c b => exact Decoder.agrees_of_init rfl
  case nil =>
    intro k
    have hd (d : FloatDecoder) := Decoder.drain_of_next (D := decoder)
      (d := ⟨uvnan, 0, 0, d.br, [], true, false, none⟩) rfl k
    exact (hd d).trans (hd new).symm

end FloatDecoder

-- The error of a boolean decoder is never cleared, and neither it nor the time decoder clears what
-- it knows when it gets no bytes. Nothing else is carried over.
theorem decoders_agree_iff (s : Simple8b) (snappy : Snappy) :
    (∀ d b, (decoder s).Agrees d .new b ↔
      b ≠ [] ∨ d.encoding ≠ compressedRLE ∨ d.n ≤ 1) ∧
    (∀ d b, (IntegerDecoder.decoder s).Agrees d .new b) ∧
    (∀ d b, FloatDecoder.decoder.Agrees d .new b) ∧
    (∀ d b, BooleanDecoder.decoder.Agrees d .new b ↔
      if b = [] then d.Exhausted else d.err = none ∨ BooleanDecoder.Uncounted b) ∧
    (∀ d b, (StringDecoder.decoder snappy).Agrees d .new b) :=
  ⟨fun _ _ => agrees_iff, IntegerDecoder.agrees, FloatDecoder.agrees,
    fun _ _ => BooleanDecoder.agrees_iff, fun _ _ => Decoder.agrees_of_init rfl⟩

-- A block that cannot be decoded takes the next one with it, and three timestamps come back as two
-- when there is no block.
theorem decoders_carry_over :
    (∃ d, (BooleanDecoder.new.setBytes [16] |> BooleanDecoder.decoder.rounds 1) = .ok d ∧
      BooleanDecoder.decoder.decode [16, 1, 128] 2 .new = .ok ([true], some none) ∧
      BooleanDecoder.decoder.decode [16, 1, 128] 2 d =
        .ok ([], some (some "BooleanDecoder: invalid count"))) ∧
    ∀ s : Simple8b, ∃ d, (new.init s [32, 0, 0, 0, 0, 0, 0, 0, 7, 5, 3] |>
        (decoder s).rounds 9) = .ok d ∧
      (decoder s).decode [] 9 .new = .ok ([], some none) ∧
      (decoder s).decode [] 9 d = .ok ([5, 10], some none) := by
  refine ⟨⟨_, rfl, rfl, rfl⟩, fun s => ⟨⟨22, 3, 3, [], none, 5, 2⟩, ?_, rfl, rfl⟩⟩
  have hi : new.init s [32, 0, 0, 0, 0, 0, 0, 0, 7, 5, 3] =
    ⟨2, -1, 3, [], none, 5, 2⟩ := rfl
  rw [hi]
  rfl

end Tsm1
