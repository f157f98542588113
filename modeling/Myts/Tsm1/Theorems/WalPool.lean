import Myts.Tsm1.Theorems.Recovery
import Myts.Tsm1.WalPool

open List

namespace Tsm1

open BufferPool

theorem DeleteRangeWALEntry.readKey_eq_ok (h : readKey b = .ok (k, rest)) :
    ∃ l : Bytes, l.length = 4 ∧ b = l ++ (k ++ rest) := by
  simp only [readKey, Go.bind_eq_ok] at h
  obtain ⟨_, _, ⟨l, b₁⟩, hl, _, _, hk⟩ := h
  obtain ⟨hll, hb⟩ := Bytes.slice_eq_ok.mp hl
  exact ⟨l, hll, hb.trans <| congrArg (l ++ ·) (Bytes.slice_eq_ok.mp hk).right⟩

namespace WalPool

inductive Laid (gap : Nat) : List Bytes → Bytes → Prop
  | nil : Laid gap [] b
  | last : Laid gap [k] (k ++ b)
  | cons : x.length = gap → Laid gap ks b → Laid gap (k :: ks) (k ++ (x ++ b))

theorem bytes_of_append (h : x.length = off) :
    (Span.mk off k.length).bytes (x ++ (k ++ rest)) = k := by
  subst h
  rw [Span.bytes, drop_left, List.take_left]

theorem Laid.map_spans (h : Laid gap ks b) {x : Bytes} (hx : x.length = off) :
    (spans gap off ks).map (·.bytes (x ++ (b ++ rest))) = ks := by
  induction h generalizing x off
  case nil => rfl
  case last =>
    rw [spans, spans, map_singleton, append_assoc, bytes_of_append hx]
  case cons ks b k y hy _ hi =>
    have hl : (x ++ (k ++ y)).length = off + k.length + gap := by
      rw [length_append, length_append, hx, hy, Nat.add_assoc]
    have ht := hi hl
    simp only [append_assoc] at ht ⊢
    rw [spans, map_cons, bytes_of_append hx, ht]

theorem laid_intercalate (ks : List Bytes) : Laid 1 ks ([10].intercalate ks) := by
  induction ks
  case nil => exact .nil
  case cons k ks hi =>
    cases ks
    case nil =>
      rw [intercalate_singleton, ← append_nil k]
      nth_rewrite 1 [append_nil]
      exact .last
    case cons k' ks =>
      rw [intercalate_cons_cons, append_assoc]
      exact .cons rfl hi

theorem laid_readKeys (h : DeleteRangeWALEntry.readKeys fuel b = .ok ks) :
    (ks ≠ [] → 4 ≤ b.length) ∧ Laid 4 ks (b.drop 4) := by
  induction fuel generalizing b ks
  case zero =>
    cases b <;> cases h <;> exact ⟨fun h => absurd rfl h, .nil⟩
  case succ fuel hi =>
    cases b
    case nil => cases h; exact ⟨fun h => absurd rfl h, .nil⟩
    case cons x b =>
      have ⟨⟨k, b'⟩, hr, h⟩ := Go.bind_eq_ok.mp h
      have ⟨ks', hs, h⟩ := Go.bind_eq_ok.mp h
      cases h
      have ⟨l, hl, hb⟩ := DeleteRangeWALEntry.readKey_eq_ok hr
      have ⟨hlen, hlaid⟩ := hi hs
      rw [hb]
      refine ⟨fun _ => by simp [hl], ?_⟩
      rw [← hl, drop_left]
      cases ks'
      case nil => exact .last
      case cons k' ks' =>
        rw [← take_append_drop 4 b', hl]
        exact .cons (length_take_of_le <| hlen <| cons_ne_nil _ _) hlaid

theorem map_spans_delete (rest : Bytes) :
    (spans 1 0 (DeleteWALEntry.unmarshalBinary b)).map (·.bytes (b ++ rest)) =
      DeleteWALEntry.unmarshalBinary b := by
  have hl := laid_intercalate (b.splitOn 10)
  rw [intercalate_splitOn] at hl
  exact hl.map_spans (x := []) rfl

theorem map_spans_deleteRange (h : DeleteRangeWALEntry.unmarshalBinary b = .ok (ks, lo, hi))
    (rest : Bytes) : (spans 4 20 ks).map (·.bytes (b ++ rest)) = ks := by
  simp only [DeleteRangeWALEntry.unmarshalBinary, Go.bind_eq_ok] at h
  obtain ⟨_, _, ⟨x, b₁⟩, hx, ⟨y, b₂⟩, hy, ks', hs, h⟩ := h
  cases h
  obtain ⟨hxl, hbx⟩ := Bytes.slice_eq_ok.mp hx
  obtain ⟨hyl, hby⟩ := Bytes.slice_eq_ok.mp hy
  obtain ⟨hlen, hlaid⟩ := laid_readKeys hs
  dsimp only at hby hlen hlaid
  cases ks
  case nil => rfl
  case cons k ks =>
    have ht : (b₂.take 4).length = 4 := length_take_of_le <| hlen <| cons_ne_nil _ _
    have hp : (x ++ (y ++ b₂.take 4)).length = 20 := by
      rw [length_append, length_append, hxl, hyl, ht]
    have hb : b ++ rest = x ++ (y ++ b₂.take 4) ++ (b₂.drop 4 ++ rest) := by
      rw [hbx, hby]
      simp only [append_assoc]
      rw [← append_assoc (b₂.take 4), take_append_drop]
    rw [hb]
    exact hlaid.map_spans hp

theorem Entry.view_unmarshalBinary {p : BufferPool} (h : unmarshalBinary type a b = .ok e)
    (hb : p.bytes a = b ++ rest) : WALEntry.unmarshalBinary type b = .ok (e.view p) := by
  obtain ⟨w, hw, he⟩ := Go.map_eq_ok.mp h
  subst he
  refine hw.trans <| congrArg Except.ok ?_
  rw [WALEntry.unmarshalBinary] at hw
  split_ifs at hw
  · obtain ⟨vs, _, hw⟩ := Go.map_eq_ok.mp hw
    subst hw
    rfl
  · cases hw
    exact congrArg WALEntry.delete <| hb ▸ (map_spans_delete rest).symm
  · obtain ⟨⟨ks, lo, hi⟩, hk, hw⟩ := Go.map_eq_ok.mp hw
    subst hw
    exact congrArg (WALEntry.deleteRange · lo hi) <| hb ▸ (map_spans_deleteRange hk rest).symm
  · cases hw

theorem Entry.error_of_unmarshalBinary (h : unmarshalBinary type a b = .error e) :
    WALEntry.unmarshalBinary type b = .error e := by
  rw [unmarshalBinary] at h
  cases hw : WALEntry.unmarshalBinary type b <;> rw [hw] at h <;> cases h
  rfl

theorem Entry.array_unmarshalBinary (h : unmarshalBinary type a b = .ok e)
    (hx : e.array = some x) : x = a := by
  have ⟨w, _, he⟩ := Go.map_eq_ok.mp h
  subst he
  cases w <;> cases hx <;> rfl

theorem Entry.view_congr {p p' : BufferPool} {e : Entry}
    (h : ∀ a, e.array = some a → p'.bytes a = p.bytes a) : e.view p' = e.view p := by
  cases e
  case write => rfl
  case delete a ks => rw [view, view, h a rfl]
  case deleteRange a ks min max => rw [view, view, h a rfl]

namespace Reader

variable {s : Snappy} {p p' : BufferPool} {rd rd' : Reader} {length : Nat}

theorem read_congr (hp : rd.phase.hasEntry) (hm : rd.more)
    (h : ∀ a, rd.Uses a → p'.bytes a = p.bytes a) : rd.read p' = rd.read p := by
  rw [read, read]
  split
  case h_1 => rfl
  case h_2 he =>
    cases hn : rd.entry
    case none => rfl
    case some e =>
      refine congrArg (Except.ok <| some ·) <| Entry.view_congr fun a ha => h a ⟨hp, hm, he, ?_⟩
      rw [hn, Option.bind_some, ha]

def Follows (s : Snappy) (p : BufferPool) (rd : Reader) : Prop :=
  match rd.phase with
  | .idle =>
    ∃ r, rd.alone = .ok (rd.more, r) ∧ r.r = rd.r ∧ (rd.more → rd.read p = r.read)
  | .took type length b =>
    length ≤ (p.bytes b).length ∧ ∃ r : WALSegmentReader, rd.alone =
      match readFull length rd.r with
      | .error e => return { r with r := [] }.fail e.text
      | .ok (x, rest) => { r with r := rest }.decompress s type (5 + length) x
  | .filled type length b =>
    ∃ r : WALSegmentReader, r.r = rd.r ∧
      rd.alone = r.decompress s type (5 + length) ((p.bytes b).take length)
  | .tookDec type length b _ =>
    ∃ r : WALSegmentReader, r.r = rd.r ∧
      rd.alone = r.decompress s type (5 + length) ((p.bytes b).take length) ∧
      ∃ n, s.decodedLen ((p.bytes b).take length) = .ok n
  | .decoded type size data _ _ =>
    size ≤ (p.bytes data).length ∧ ∃ (r : WALSegmentReader) (n : Nat), r.r = rd.r ∧ rd.alone =
      match WALEntry.unmarshalBinary type ((p.bytes data).take size) with
      | .error .panic => Go.panic
      | .error (.error e) => return r.fail e
      | .ok entry => return (true, { r with entry := some entry, n := n, err := none })
  | .returning _ =>
    rd.more ∧ ∃ r, rd.alone = .ok (true, r) ∧ r.r = rd.r ∧ rd.read p = r.read
  | .panicked => True

theorem Follows.frame (h : rd.Follows s p)
    (hb : ∀ a, a ∈ rd.phase.owned ∨ rd.Uses a → p'.bytes a = p.bytes a) : rd.Follows s p' := by
  have hu (a) (ha : rd.Uses a) := hb a <| .inr ha
  have ho (a) (ha : a ∈ rd.phase.owned) := hb a <| .inl ha
  rw [Follows] at h ⊢
  cases hp : rd.phase <;> rw [hp] at h ho <;> dsimp only at h ⊢
  case idle =>
    have ⟨r, ha, hr, hd⟩ := h
    exact ⟨r, ha, hr, fun hm => (read_congr (hp ▸ rfl) hm hu).trans (hd hm)⟩
  case took type length b => rwa [ho b mem_cons_self]
  case filled type length b => rwa [ho b mem_cons_self]
  case tookDec type length b decBuf => rwa [ho b <| .tail _ mem_cons_self]
  case decoded type size data b decBuf => rwa [ho data mem_cons_self]
  case returning deferred =>
    have ⟨hm, r, ha, hr, hd⟩ := h
    exact ⟨hm, r, ha, hr, (read_congr (hp ▸ rfl) hm hu).trans hd⟩

structure Apart (p : BufferPool) (rd : Reader) : Prop where
  valid : p.Valid
  nodup : rd.phase.held.Nodup
  lt : a ∈ rd.phase.owned → a < p.arrays.length
  free : a ∈ rd.phase.owned → a ∉ p.free

theorem follows_start (hp : rd.phase = .idle) (h : rd.Follows s p) :
    (rd.start s p choice).2.Follows s (rd.start s p choice).1 := by
  rw [Follows, hp] at h
  obtain ⟨r, ha, hr, _⟩ := h
  rw [start, ha, Go.ok_bind]
  dsimp only
  rw [WALSegmentReader.next, hr]
  dsimp only
  cases readFull 5 rd.r
  case ok x => exact ⟨le_length_get, r, rfl⟩
  case error e =>
    rw [Follows]
    cases e <;> dsimp only <;> rw [hp]
    case eof => exact ⟨_, rfl, rfl, fun h => absurd h Bool.false_ne_true⟩
    case unexpectedEOF => exact ⟨_, rfl, rfl, fun _ => rfl⟩

theorem follows_fill (ha : Apart p rd) (hp : rd.phase = .took type length b)
    (h : rd.Follows s p) :
    (rd.fill p type length b).2.Follows s (rd.fill p type length b).1 := by
  rw [Follows, hp] at h
  have ⟨hl, r, hr⟩ := h
  have hb : b < p.arrays.length := ha.lt <| hp ▸ mem_cons_self
  rw [fill]
  split
  case h_1 e he =>
    rw [he] at hr
    exact ⟨rfl, _, hr, rfl, rfl⟩
  case h_2 x rest he =>
    rw [he] at hr
    have hx : x.length = length := (readFull_eq_ok he).left
    refine ⟨{ r with r := rest }, rfl, hr.trans ?_⟩
    subst hx
    dsimp only
    rw [take_bytes_write hb hl]

theorem follows_getDec (ha : Apart p rd) (hp : rd.phase = .filled type length b)
    (h : rd.Follows s p) :
    (rd.getDec s p type length b choice).2.Follows s (rd.getDec s p type length b choice).1 := by
  rw [Follows, hp] at h
  have ⟨r, hr, hd⟩ := h
  rw [getDec]
  split
  case h_1 e he =>
    rw [WALSegmentReader.decompress, he] at hd
    exact ⟨rfl, _, hd, hr, rfl⟩
  case h_2 n hn =>
    have hg := got_get n choice ha.valid
    have hb := hg.bytes <| ha.lt (a := b) <| hp ▸ mem_cons_self
    refine ⟨r, hr, ?_, n, ?_⟩
    · dsimp only
      rw [hb, hd]
    · dsimp only
      rw [hb, hn]

theorem follows_decode (ha : Apart p rd) (hp : rd.phase = .tookDec type length b decBuf)
    (h : rd.Follows s p) :
    (rd.decode s p type length b decBuf garbage).2.Follows s
      (rd.decode s p type length b decBuf garbage).1 := by
  rw [Follows, hp] at h
  have ⟨r, hr, hd, n, hn⟩ := h
  have hl : decBuf < p.arrays.length := ha.lt <| hp ▸ mem_cons_self
  rw [WALSegmentReader.decompress, hn] at hd
  dsimp only at hd
  rw [decode]
  split
  case h_1 e he =>
    rw [he] at hd
    exact ⟨rfl, _, hd, hr, rfl⟩
  case h_2 data he =>
    rw [he] at hd
    split
    case isTrue hle =>
      have ht := take_bytes_write hl hle
      refine ⟨?_, r, r.n + (5 + length), hr, ?_⟩
      · have := congrArg List.length ht
        rw [length_take] at this
        dsimp only
        omega
      · dsimp only
        rw [ht]
        exact hd
    case isFalse =>
      have hb := bytes_alloc (p := p) (b := data)
      have ht : ((p.alloc data).2.bytes p.arrays.length).take data.length = data := by
        rw [hb, take_length]
      exact ⟨(congrArg List.length hb).ge, r, r.n + (5 + length), hr, hd.trans <| ht.symm ▸ rfl⟩

theorem follows_unmarshal (hp : rd.phase = .decoded type size data b decBuf)
    (h : rd.Follows s p) : (rd.unmarshal p type size data b decBuf).Follows s p := by
  rw [Follows, hp] at h
  have ⟨hl, r, n, hr, hd⟩ := h
  have hlen : ((p.bytes data).take size).length = size := length_take_of_le hl
  have hb := (take_append_drop size (p.bytes data)).symm
  rw [unmarshal]
  split
  case h_1 => trivial
  case h_2 e he =>
    rw [Entry.error_of_unmarshalBinary he] at hd
    exact ⟨rfl, _, hd, hr, rfl⟩
  case h_3 e he =>
    rw [Entry.view_unmarshalBinary he hb] at hd
    exact ⟨rfl, _, hd, hr, rfl⟩

theorem follows_act (ha : Apart p rd) (h : rd.Follows s p) (x : Action) :
    (rd.act s p x).2.Follows s (rd.act s p x).1 := by
  unfold act
  split
  case h_1 hp => exact follows_start hp h
  case h_2 hp => exact follows_fill ha hp h
  case h_3 hp => exact follows_getDec ha hp h
  case h_4 hp => exact follows_decode ha hp h
  case h_5 hp => exact follows_unmarshal hp h
  case h_6 hp =>
    rw [Follows, hp] at h
    exact h
  case h_7 hp =>
    rw [Follows, hp] at h
    have ⟨hm, r, ha, hr, hd⟩ := h
    exact ⟨r, hm ▸ ha, hr, fun _ => hd⟩
  case h_8 => exact h

theorem mem_owned_of_mem_held {ph : Phase} (h : a ∈ ph.held) : a ∈ ph.owned := by
  cases ph
  case decoded => exact .tail _ h
  all_goals exact h

theorem not_uses_fail : ¬(rd.fail e deferred).Uses a :=
  fun h => nomatch h.right.right.left

theorem not_uses_of_phase (h : rd.phase.hasEntry = false) : ¬rd.Uses a :=
  fun hu => Bool.false_ne_true <| h.symm.trans hu.left

theorem Apart.nodup_got (ha : Apart p rd) (hg : p.Got choice b p') :
    (b :: rd.phase.held).Nodup := by
  refine nodup_cons.mpr ⟨fun hm => ?_, ha.nodup⟩
  have hm := mem_owned_of_mem_held hm
  rcases hg.taken with he | ⟨hf, _⟩
  · exact Nat.lt_irrefl _ <| he ▸ ha.lt hm
  · exact ha.free hm hf

structure Effect (p : BufferPool) (rd : Reader) (choice : Option Nat) (p' : BufferPool)
    (rd' : Reader) : Prop where
  apart : Apart p' rd'
  le : p.arrays.length ≤ p'.arrays.length
  bytes : x < p.arrays.length → x ∉ rd.phase.owned → p'.bytes x = p.bytes x
  owned : x ∈ rd'.phase.owned →
    x ∈ rd.phase.owned ∨ p.arrays.length ≤ x ∨ x ∈ p.free ∧ choice = some x
  free : x ∈ p'.free → x ∈ p.free ∨ x ∈ rd.phase.owned
  uses : rd'.Uses x → rd.Uses x ∨ x ∈ rd.phase.owned

namespace Effect

theorem keep (ha : Apart p rd) (hv : p'.Valid) (hl : p'.arrays.length = p.arrays.length)
    (hf : p'.free = p.free) (hb : ∀ x ∉ rd.phase.owned, p'.bytes x = p.bytes x)
    (hn : rd'.phase.held.Nodup) (ho : ∀ x ∈ rd'.phase.owned, x ∈ rd.phase.owned)
    (hu : ∀ x, rd'.Uses x → rd.Uses x ∨ x ∈ rd.phase.owned) : Effect p rd choice p' rd' where
  apart := {
    valid := hv
    nodup := hn
    lt hx := hl ▸ ha.lt (ho _ hx)
    free hx := hf ▸ ha.free (ho _ hx)
  }
  le := hl.ge
  bytes _ := hb _
  owned hx := .inl <| ho _ hx
  free hx := .inl <| hf ▸ hx
  uses := hu _

theorem write (ha : Apart p rd) (hb : b ∈ rd.phase.owned) (hn : rd'.phase.held.Nodup)
    (ho : ∀ x ∈ rd'.phase.owned, x ∈ rd.phase.owned) (hu : ∀ x, ¬rd'.Uses x) :
    Effect p rd choice (p.write b y) rd' := by
  refine keep ha ha.valid.write length_write rfl (fun x hx => ?_) hn ho ?_
  · exact bytes_write_of_ne fun he => hx <| he ▸ hb
  · exact fun x hx => absurd hx (hu x)

theorem same (ha : Apart p rd) (hn : rd'.phase.held.Nodup)
    (ho : ∀ x ∈ rd'.phase.owned, x ∈ rd.phase.owned)
    (hu : ∀ x, rd'.Uses x → rd.Uses x ∨ x ∈ rd.phase.owned) : Effect p rd choice p rd' :=
  keep ha ha.valid rfl rfl (fun _ _ => rfl) hn ho hu

theorem get (ha : Apart p rd) (hg : p.Got choice b p') (ho : rd'.phase.owned = b :: rd.phase.owned)
    (hn : rd'.phase.held.Nodup) (hu : ∀ x, ¬rd'.Uses x) : Effect p rd choice p' rd' where
  apart := {
    valid := hg.valid
    nodup := hn
    lt hx := by
      rw [ho] at hx
      rcases mem_cons.mp hx with rfl | hx
      · exact hg.lt
      · exact (ha.lt hx).trans_le hg.le
    free hx := by
      rw [ho] at hx
      rcases mem_cons.mp hx with rfl | hx
      · exact hg.notMem
      · exact fun hf => ha.free hx <| hg.free hf
  }
  le := hg.le
  bytes h _ := hg.bytes h
  owned hx := by
    rw [ho] at hx
    rcases mem_cons.mp hx with rfl | hx
    · exact .inr <| hg.taken.imp_left Eq.ge
    · exact .inl hx
  free hx := .inl <| hg.free hx
  uses hx := absurd hx (hu _)

end Effect

theorem effect_start (ha : Apart p rd) (hp : rd.phase = .idle) :
    Effect p rd choice (rd.start s p choice).1 (rd.start s p choice).2 := by
  rw [start]
  split
  case h_1 =>
    exact .same ha ha.nodup (fun _ => id) fun x hx => nomatch hx.right.left
  case h_2 =>
    exact .same ha ha.nodup (fun _ => id) fun x hx => nomatch hx.right.right.left
  case h_3 lv r _ =>
    have hg := got_get (Bytes.uint32 (lv.drop 1)) choice ha.valid
    refine .get ha hg ?_ ?_ fun x => not_uses_of_phase rfl
    · rw [hp]; rfl
    · have hn := ha.nodup_got hg
      rw [hp] at hn
      exact hn

theorem effect_fill (ha : Apart p rd) (hp : rd.phase = .took type length b) :
    Effect p rd choice (rd.fill p type length b).1 (rd.fill p type length b).2 := by
  have hb : b ∈ rd.phase.owned := hp ▸ mem_cons_self
  rw [fill]
  split
  case h_1 =>
    exact .write ha hb (nodup_singleton b) (fun _ => hp ▸ id) fun _ => not_uses_fail
  case h_2 =>
    exact .write ha hb (nodup_singleton b) (fun _ => hp ▸ id) fun _ => not_uses_of_phase rfl

theorem effect_getDec (ha : Apart p rd) (hp : rd.phase = .filled type length b) :
    Effect p rd choice (rd.getDec s p type length b choice).1
      (rd.getDec s p type length b choice).2 := by
  rw [getDec]
  split
  case h_1 =>
    exact .same ha (nodup_singleton b) (fun _ => hp ▸ id) fun _ hx => absurd hx not_uses_fail
  case h_2 n _ =>
    have hg := got_get n choice ha.valid
    refine .get ha hg ?_ ?_ fun x => not_uses_of_phase rfl
    · rw [hp]; rfl
    · have hn := ha.nodup_got hg
      rw [hp] at hn
      exact hn

theorem effect_decode (ha : Apart p rd) (hp : rd.phase = .tookDec type length b decBuf) :
    Effect p rd choice (rd.decode s p type length b decBuf garbage).1
      (rd.decode s p type length b decBuf garbage).2 := by
  have hd : decBuf ∈ rd.phase.owned := hp ▸ mem_cons_self
  have hn : [decBuf, b].Nodup := by simpa [hp, Phase.held] using ha.nodup
  rw [decode]
  split
  case h_1 => exact .write ha hd hn (fun _ => hp ▸ id) fun _ => not_uses_fail
  case h_2 =>
    split
    case isTrue =>
      refine .write ha hd hn (fun x hx => ?_) fun _ => not_uses_of_phase rfl
      rcases mem_cons.mp hx with rfl | hx
      · exact hd
      · exact hp ▸ hx
    case isFalse =>
      refine .get ha (got_alloc ha.valid) ?_ hn fun _ => not_uses_of_phase rfl
      rw [hp]
      rfl

theorem effect_unmarshal (ha : Apart p rd) (hp : rd.phase = .decoded type size data b decBuf) :
    Effect p rd choice p (rd.unmarshal p type size data b decBuf) := by
  have hn : [decBuf, b].Nodup := by simpa [hp, Phase.held] using ha.nodup
  have ho (x) (hx : x ∈ [decBuf, b]) : x ∈ rd.phase.owned := hp ▸ .tail _ hx
  rw [unmarshal]
  split
  case h_1 => exact .same ha .nil nofun fun _ hx => absurd hx (not_uses_of_phase rfl)
  case h_2 => exact .same ha hn ho fun _ hx => absurd hx not_uses_fail
  case h_3 e he =>
    refine .same ha hn ho fun x hx => .inr ?_
    rw [Entry.array_unmarshalBinary he hx.right.right.right, hp]
    exact mem_cons_self

theorem effect_act (ha : Apart p rd) (x : Action) :
    Effect p rd x.choice (rd.act s p x).1 (rd.act s p x).2 := by
  unfold act
  split
  case h_1 hp => exact effect_start ha hp
  case h_2 hp => exact effect_fill ha hp
  case h_3 hp => exact effect_getDec ha hp
  case h_4 hp => exact effect_decode ha hp
  case h_5 hp => exact effect_unmarshal ha hp
  case h_6 b deferred hp =>
    have hn : (b :: deferred).Nodup := by simpa [hp, Phase.held] using ha.nodup
    have ho (x) (hx : x ∈ b :: deferred) : x ∈ rd.phase.owned := hp ▸ hx
    have hb := ho b mem_cons_self
    exact {
      apart := {
        valid := ha.valid.put (ha.lt hb) (ha.free hb)
        nodup := hn.of_cons
        lt hx := ha.lt <| ho _ <| .tail _ hx
        free hx := by
          refine not_mem_cons_of_ne_of_not_mem ?_ <| ha.free <| ho _ <| .tail _ hx
          exact fun he => (nodup_cons.mp hn).left <| he ▸ hx
      }
      le := le_rfl
      bytes := fun _ _ => rfl
      owned hx := .inl <| ho _ <| .tail _ hx
      free hx := by
        rcases mem_cons.mp hx with rfl | hx
        · exact .inr hb
        · exact .inl hx
      uses hx := .inl ⟨hp ▸ rfl, hx.right⟩
    }
  case h_7 hp => exact .same ha .nil nofun fun _ hx => .inl ⟨hp ▸ rfl, hx.right⟩
  case h_8 => exact .same ha ha.nodup (fun _ => id) fun _ => .inl

end Reader

variable {n : Nat} {w : WalPool n} {s : Snappy}

structure Sound (s : Snappy) (w : WalPool n) : Prop where
  apart : ∀ i, Reader.Apart w.pool (w.readers i)
  disjoint : i ≠ j → a ∈ (w.readers i).phase.owned → a ∉ (w.readers j).phase.owned
  lt : (w.readers i).Uses a → a < w.pool.arrays.length
  uses : i ≠ j → (w.readers i).Uses a → a ∉ (w.readers j).phase.owned
  follows : (w.readers i).Follows s w.pool

namespace Sound

theorem init (files : Fin n → Bytes) : (init files).Sound s where
  apart _ := ⟨⟨.nil, nofun⟩, .nil, nofun, nofun⟩
  disjoint _ h := nomatch h
  lt h := nomatch h.right.left
  uses _ h := nomatch h.right.left
  follows := ⟨_, rfl, rfl, nofun⟩

theorem drop (h : w.Sound s) (a : Nat) : ({ w with pool := w.pool.drop a } : WalPool n).Sound s where
  apart i := {
    valid := (h.apart i).valid.drop
    nodup := (h.apart i).nodup
    lt := (h.apart i).lt
    free hx := fun hf => (h.apart i).free hx <| mem_of_mem_erase hf
  }
  disjoint := h.disjoint
  lt := h.lt
  uses := h.uses
  follows := h.follows.frame fun _ _ => rfl

theorem act (h : w.Sound s) {i : Fin n} {x : Action} (hu : w.Unshared (.act i x)) :
    (w.step s (.act i x)).Sound s := by
  have he := Reader.effect_act (s := s) (h.apart i) x
  have hf := Reader.follows_act (h.apart i) h.follows x
  have hs : w.step s (.act i x) = {
      pool := ((w.readers i).act s w.pool x).1
      readers := Function.update w.readers i ((w.readers i).act s w.pool x).2 } := rfl
  rw [hs]
  generalize (w.readers i).act s w.pool x = y at he hf
  -- An array that the reader owns now is not one of the others.
  have hown {j a} (hj : j ≠ i) (ha : a ∈ y.2.phase.owned) :
      a ∉ (w.readers j).phase.owned ∧ ¬(w.readers j).Uses a := by
    rcases he.owned ha with ha | ha | ⟨ha, hc⟩
    · exact ⟨h.disjoint hj.symm ha, fun hx => h.uses hj hx ha⟩
    · exact ⟨fun hx => absurd ((h.apart j).lt hx) ha.not_gt, fun hx => absurd (h.lt hx) ha.not_gt⟩
    · exact ⟨fun hx => (h.apart j).free hx ha, hu j hj a hc⟩
  have hbytes {j a} (hj : j ≠ i) (ha : a ∈ (w.readers j).phase.owned ∨ (w.readers j).Uses a) :
      y.1.bytes a = w.pool.bytes a := by
    rcases ha with ha | ha
    · exact he.bytes ((h.apart j).lt ha) (h.disjoint hj ha)
    · exact he.bytes (h.lt ha) (h.uses hj ha)
  constructor
  case apart =>
    intro j
    by_cases hj : j = i
    case pos => subst hj; simpa using he.apart
    case neg =>
      simp only [Function.update_of_ne hj]
      exact {
        valid := he.apart.valid
        nodup := (h.apart j).nodup
        lt hx := ((h.apart j).lt hx).trans_le he.le
        free hx := fun hf => (he.free hf).elim ((h.apart j).free hx) (h.disjoint hj hx)
      }
  case disjoint =>
    intro j k a hjk ha
    simp only [Function.update_apply] at ha ⊢
    split at ha <;> split
    case isTrue.isTrue hj hk => exact absurd (hj.trans hk.symm) hjk
    case isTrue.isFalse hk => exact (hown hk ha).left
    case isFalse.isTrue hj _ => exact fun hx => (hown hj hx).left ha
    case isFalse.isFalse => exact h.disjoint hjk ha
  case lt =>
    intro j a ha
    simp only [Function.update_apply] at ha
    split at ha
    case isTrue => exact ((he.uses ha).elim h.lt (h.apart i).lt).trans_le he.le
    case isFalse => exact (h.lt ha).trans_le he.le
  case uses =>
    intro j k a hjk ha
    simp only [Function.update_apply] at ha ⊢
    split at ha <;> split
    case isTrue.isTrue hj hk => exact absurd (hj.trans hk.symm) hjk
    case isTrue.isFalse hk =>
      exact (he.uses ha).elim (h.uses (Ne.symm hk)) (h.disjoint (Ne.symm hk))
    case isFalse.isTrue hj _ => exact fun hx => (hown hj hx).right ha
    case isFalse.isFalse => exact h.uses hjk ha
  case follows =>
    intro j
    by_cases hj : j = i
    case pos => subst hj; simpa using hf
    case neg =>
      simp only [Function.update_of_ne hj]
      exact h.follows.frame fun a ha => hbytes hj ha

theorem step (h : w.Sound s) {x : Step n} (hu : w.Unshared x) : (w.step s x).Sound s := by
  cases x
  case drop a => exact h.drop a
  case act i x => exact h.act hu

theorem intact (h : w.Sound s) : w.Intact := by
  intro i hp hm
  have hf := h.follows (i := i)
  rw [Reader.Follows, hp] at hf
  have ⟨r, ha, _, hd⟩ := hf
  exact ⟨r, hm ▸ ha, hd hm⟩

end Sound

theorem intact_of_unshared {files : Fin n → Bytes}
    (h : Run (step s) Unshared (init files) w) : w.Intact :=
  (h.invariant (Sound.init files) fun h hu => h.step hu).intact

def twoDeletes : Fin 2 → Bytes :=
  ![[2, 0, 0, 0, 5, 3, 8, 97, 98, 99], [2, 0, 0, 0, 3, 1, 0, 100]]

def takes (choice : Option Nat) : List (Step 2) :=
  ([.start none, .fill, .getDec none, .decode [], .unmarshal, .putBuf, .putBuf, .putBuf].map
    (.act (Fin.last 0).castSucc)) ++ [.start choice, .fill].map (.act (Fin.last 1))

theorem intact_compressed_taken :
    Run (step literals.toSnappy) Unshared (init twoDeletes)
      ((takes (some 0)).foldl (step literals.toSnappy) (init twoDeletes)) ∧
    ((takes (some 0)).foldl (step literals.toSnappy) (init twoDeletes)).Intact :=
  have h := Run.foldl (by decide)
  ⟨h, intact_of_unshared h⟩

-- The buffer that the keys of the first entry are in was in the pool.
theorem key_overwritten_by_next :
    ∃ w : WalPool 2, Run (step literals.toSnappy) (fun _ _ => True) (init twoDeletes) w ∧ ¬w.Intact ∧
      (w.readers 0).read w.pool = .ok (some (.delete [[1, 0, 100]])) := by
  refine ⟨(takes (some 1)).foldl (step literals.toSnappy) (init twoDeletes), .foldl (by decide),
    ?_, rfl⟩
  intro h
  obtain ⟨r, ha, hr⟩ := h 0 rfl rfl
  cases ha
  exact absurd hr (by decide)

end WalPool

end Tsm1
