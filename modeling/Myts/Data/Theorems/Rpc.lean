import Myts.Data.Rpc

open List

namespace Rpc

@[simp]
theorem Stream.bytes_tag : Stream.bytes (Stream.tag k b) = b := by
  rw [Stream.bytes, Stream.tag, map_map]
  exact map_id b

@[simp]
theorem Stream.length_tag : (Stream.tag k b).length = b.length :=
  length_map _

theorem Stream.bytes_take (s : Stream) : Stream.bytes (s.take n) = (Stream.bytes s).take n :=
  map_take

abbrev Log := List (Nat × Request × Option String)

def Conn.Quiet (c : Conn) : Prop := c.toPeer = [] ∧ c.toClient = []

inductive Carries (C : Codec) (log : Log) (k : Nat) (req : Request) : Stream → Stream → Prop
  | asked : C.marshal req = some buf → Carries C log k req (.tag k <| Tlv.writeTLV req.typ buf) []
  | silent : Carries C log k req [] []
  | answered : (k, req, result) ∈ log → C.marshalResponse (response result) = some b →
    Carries C log k req [] ((Stream.tag k <| Tlv.writeTLV writeShardResponseMessage b).take n)

theorem Carries.append (h : Carries C log k req p c) : Carries C (log ++ log') k req p c := by
  cases h
  case asked hm => exact .asked hm
  case silent => exact .silent
  case answered hh hb => exact .answered (mem_append_left _ hh) hb

theorem Carries.of_cons (h : Carries C log k req ((typ, j) :: bytes) c) :
    c = [] ∧ typ = req.typ ∧ j = k ∧
      ∃ buf, C.marshal req = some buf ∧ bytes = Stream.tag k (Tlv.writeLV buf) := by
  generalize hp : (typ, j) :: bytes = p at h
  cases h
  case silent => cases hp
  case answered => cases hp
  case asked buf hb =>
    cases hp
    exact ⟨rfl, rfl, rfl, buf, hb, rfl⟩

theorem Carries.read (hC : C.Laws) (h : Carries C log k req p c)
    (hr : Tlv.readTLV (Stream.bytes c) = .ok (typ, buf) n) : p = [] ∧ c.drop n = [] ∧
      ∃ result, (k, req, result) ∈ log ∧ C.unmarshalResponse buf = some (response result) := by
  cases h
  case asked => cases hr
  case silent => cases hr
  case answered hh hb =>
    rw [Stream.bytes_take, Stream.bytes_tag] at hr
    obtain ⟨-, rfl, rfl⟩ := Tlv.of_readTLV_take (hC.lengthResponse hb) hr
    refine ⟨rfl, ?_, _, hh, hC.unmarshalResponse hb⟩
    rw [drop_eq_nil_iff, length_take, Stream.length_tag]
    exact min_le_right _ _

structure Serves (C : Codec) (log log' : Log) (c c' : Conn) : Prop where
  owner : c'.owner = c.owner
  poolID : c'.poolID = c.poolID
  quiet : c.Quiet → c'.Quiet
  carries : ∀ {k req}, Carries C log k req c.toPeer c.toClient →
    Carries C log' k req c'.toPeer c'.toClient

section Peer

variable {C : Codec} {s : System} {c : Conn}

theorem Conn.answer_eq (c : Conn) : ∃ toClient writable,
    c.answer C k result n = { c with toClient, writable } := by
  unfold Conn.answer
  split
  case h_1 => exact ⟨c.toClient, c.writable, rfl⟩
  case h_2 =>
    split
    case isTrue => exact ⟨_, _, rfl⟩
    case isFalse => exact ⟨c.toClient, c.writable, rfl⟩

theorem Conn.carries_answer (hp : c.toPeer = []) (hc : c.toClient = [])
    (hh : (k, req, result) ∈ log) :
    Carries C log k req (c.answer C k result n).toPeer (c.answer C k result n).toClient := by
  unfold Conn.answer
  split
  case h_1 =>
    rw [hp, hc]
    exact .silent
  case h_2 hb =>
    split
    case isFalse =>
      rw [hp, hc]
      exact .silent
    case isTrue =>
      dsimp only
      rw [hp, hc, nil_append]
      exact .answered hh hb

theorem Serves.close : Serves C log log c { c with peerOpen := false } where
  owner := rfl
  poolID := rfl
  quiet := id
  carries := id

theorem Serves.skip (hp : c.toPeer = (typ, k) :: bytes)
    (ht : ¬(typ = writeShardRequestMessage ∨ typ = executeStatementRequestMessage)) :
    Serves C log log c { c with toPeer := bytes } where
  owner := rfl
  poolID := rfl
  quiet h := absurd (h.left.symm.trans hp) (cons_ne_nil _ _).symm
  carries h := by
    rename_i req
    obtain ⟨-, rfl, -⟩ := (hp ▸ h).of_cons
    cases req
    case writeShard => exact absurd (.inl rfl) ht
    case executeStatement => exact absurd (.inr rfl) ht

theorem Serves.answer (hC : C.Laws) (hp : c.toPeer = (typ, j) :: bytes)
    (hr : Tlv.readLV (Stream.bytes bytes) = .ok buf l)
    (he : ∀ req, C.unmarshal typ buf = .ok req → log' = log ++ [(j, req, result)]) :
    Serves C log log' c (Conn.answer C { c with toPeer := bytes.drop l } j result n) := by
  obtain ⟨toClient, writable, ha⟩ : ∃ toClient writable,
      Conn.answer C { c with toPeer := bytes.drop l } j result n =
        { c with toPeer := _, toClient, writable } :=
    Conn.answer_eq _
  refine ⟨by rw [ha], by rw [ha], fun h => ?_, fun {k req} h => ?_⟩
  · exact absurd (h.left.symm.trans hp) (cons_ne_nil _ _).symm
  · rw [hp] at h
    obtain ⟨hc, rfl, rfl, b, hb, rfl⟩ := h.of_cons
    rw [Stream.bytes_tag, ← take_length (l := Tlv.writeLV b)] at hr
    obtain ⟨rfl, rfl⟩ := Tlv.of_readLV_take (hC.length hb) hr
    rw [he req (hC.unmarshal hb)]
    refine Conn.carries_answer ?_ hc (mem_append_right _ (mem_singleton_self _))
    exact drop_eq_nil_iff.mpr Stream.length_tag.le

theorem System.handle_eq (hC : C.Laws) (hc : s.conns i = some c) : s.handle C i w n = s ∨
    ∃ c' l, s.handle C i w n = setConn { s with handled := s.handled ++ l } i c' ∧
      Serves C s.handled (s.handled ++ l) c c' := by
  unfold handle
  rw [hc]
  dsimp only
  split
  case isFalse => exact .inl rfl
  case isTrue =>
    split
    case h_1 => exact .inl rfl
    case h_2 typ k bytes hp =>
      split
      case isTrue =>
        split
        case h_1 => exact .inl rfl
        case h_2 | h_3 => exact .inr ⟨_, [], by rw [append_nil], by simpa using .close⟩
        case h_4 hr =>
          split
          case h_1 hu =>
            refine .inr ⟨_, [], by rw [append_nil], .answer hC hp hr fun req h => ?_⟩
            cases hu.symm.trans h
          case h_2 hu =>
            refine .inr ⟨_, _, rfl, .answer hC hp hr fun req h => ?_⟩
            cases hu.symm.trans h
            rfl
      case isFalse ht =>
        split
        case isTrue => exact .inr ⟨_, [], by rw [append_nil], by simpa using .close⟩
        case isFalse => exact .inr ⟨_, [], by rw [append_nil], by simpa using .skip hp ht⟩

end Peer

namespace System

variable {C : Codec} {s : System} {T : Kind → Prop}

def Safe (C : Codec) (T : Kind → Prop) (s : System) (k : Nat) (call : Call) : Prop :=
  match call.phase with
  | .waiting => True
  | .dialed i => ∃ c, s.conns i = some c ∧ c.owner = .call k ∧ c.poolID = call.poolID ∧
      (T call.args.kind → c.Quiet)
  | .sent i req => ∃ c, s.conns i = some c ∧ c.owner = .call k ∧ c.poolID = call.poolID ∧
      (∃ database retentionPolicy, req = call.args.request database retentionPolicy) ∧
      (T call.args.kind → Carries C s.handled k req c.toPeer c.toClient)
  | .returned _ => T call.args.kind → s.Paired k call

structure Inv (C : Codec) (T : Kind → Prop) (s : System) : Prop where
  pools : ∀ {i c}, s.conns i = some c → c.owner = .pool → T c.poolID.1 → c.Quiet
  calls : ∀ {k call}, s.calls k = some call → s.Safe C T k call

theorem inv_init : init.Inv C T where
  pools h := by cases h
  calls h := by cases h

theorem Inv.serve (h : s.Inv C T) (hc : s.conns i = some c)
    (hs : Serves C s.handled (s.handled ++ l) c c') :
    (setConn { s with handled := s.handled ++ l } i c').Inv C T where
  pools {j d} hd ho ht := by
    by_cases hj : j = i
    case neg => exact h.pools (by simpa [setConn, hj] using hd) ho ht
    case pos =>
      subst hj
      cases (by simpa [setConn] using hd : c' = d)
      exact hs.quiet <| h.pools hc (hs.owner ▸ ho) (hs.poolID ▸ ht)
  calls {k call} hk := by
    have hk := h.calls hk
    unfold Safe at hk ⊢
    split at hk
    case h_1 => trivial
    case h_2 j hp =>
      obtain ⟨d, hd, ho, hi, hq⟩ := hk
      by_cases hj : j = i
      case neg => exact ⟨d, by simpa [setConn, hj] using hd, ho, hi, hq⟩
      case pos =>
        subst hj
        cases hc.symm.trans hd
        exact ⟨c', by simp [setConn], hs.owner.trans ho, hs.poolID.trans hi, hs.quiet ∘ hq⟩
    case h_3 j req hp =>
      obtain ⟨d, hd, ho, hi, hr, hq⟩ := hk
      by_cases hj : j = i
      case neg => exact ⟨d, by simpa [setConn, hj] using hd, ho, hi, hr, fun ht => (hq ht).append⟩
      case pos =>
        subst hj
        cases hc.symm.trans hd
        exact ⟨c', by simp [setConn], hs.owner.trans ho, hs.poolID.trans hi, hr,
          fun ht => hs.carries (hq ht)⟩
    case h_4 =>
      intro ht req r ho
      obtain ⟨hr, result, hh, he⟩ := hk ht req r ho
      exact ⟨hr, result, mem_append_left _ hh, he⟩

theorem conns_set : (s.setConn i c |>.setCall k call).conns i = some c :=
  Function.update_self ..

theorem Inv.set (h : s.Inv C T) (hc : ∀ {c j}, s.conns i = some c → c.owner = .call j → j = k)
    (hq : c'.owner = .pool → T c'.poolID.1 → c'.Quiet)
    (hk : (s.setConn i c' |>.setCall k call').Safe C T k call') :
    (s.setConn i c' |>.setCall k call').Inv C T where
  pools {j d} hd ho ht := by
    by_cases hj : j = i
    case neg => exact h.pools (by simpa [setConn, setCall, hj] using hd) ho ht
    case pos =>
      subst hj
      cases (by simpa [setConn, setCall] using hd : c' = d)
      exact hq ho ht
  calls {j call} hj := by
    by_cases he : j = k
    case pos =>
      subst he
      cases (by simpa [setConn, setCall] using hj : call' = call)
      exact hk
    case neg =>
      have hj := h.calls (by simpa [setConn, setCall, he] using hj)
      have hi {x d} (hd : s.conns x = some d) (ho : d.owner = .call j) :
          (s.setConn i c' |>.setCall k call').conns x = some d := by
        have hx : x ≠ i := by
          rintro rfl
          exact he (hc hd ho)
        simpa [setConn, setCall, hx] using hd
      unfold Safe at hj ⊢
      split at hj
      case h_1 => trivial
      case h_2 =>
        obtain ⟨d, hd, ho, hj⟩ := hj
        exact ⟨d, hi hd ho, ho, hj⟩
      case h_3 =>
        obtain ⟨d, hd, ho, hj⟩ := hj
        exact ⟨d, hi hd ho, ho, hj⟩
      case h_4 => exact hj

section Finish

variable {c c' : Conn} {call : Call} {i k : Nat} (h : s.Inv C T) (hc : s.conns i = some c)
  (ho : c.owner = .call k) (hi : c'.poolID = call.poolID)
include h hc ho hi

theorem Inv.finish
    (hq : T call.args.kind → closeConn call.args.kind unusable room = .pool → c'.Quiet)
    (hp : T call.args.kind → (s.finish k call i c' unusable room o).Paired k
      { call with phase := .returned o }) :
    (s.finish k call i c' unusable room o).Inv C T := by
  refine h.set ?_ (fun hw ht => ?_) hp
  · intro d j hd hj
    cases hc.symm.trans hd
    cases ho.symm.trans hj
    rfl
  · have ht : T c'.poolID.1 := ht
    rw [hi] at ht
    exact hq ht hw

theorem Inv.abort (hq : T call.args.kind → closeConn call.args.kind unusable room = .pool → c'.Quiet)
    (ha : o = .failed ∨ o = .unknownShard) : (s.finish k call i c' unusable room o).Inv C T := by
  refine h.finish hc ho hi hq fun _ req r hr => ?_
  cases hr
  cases ha <;> contradiction

end Finish

theorem closeConn_ne_pool (h : kind = .executeOnNode → room = false) :
    closeConn kind true room ≠ .pool := by
  cases kind
  case writeShard => exact nofun
  case executeOnNode =>
    cases h rfl
    exact nofun

theorem Inv.onDialed (h : s.Inv C T) {f : Call → Nat → Conn → System}
    (hf : ∀ {call i c}, s.calls k = some call → s.conns i = some c → c.owner = .call k →
      c.poolID = call.poolID → (T call.args.kind → c.Quiet) → (f call i c).Inv C T) :
    (s.onDialed k f).Inv C T := by
  unfold System.onDialed
  split
  case h_1 => exact h
  case h_2 call hk =>
    split
    case h_2 => exact h
    case h_1 i hp =>
      have hs := h.calls hk
      unfold Safe at hs
      rw [hp] at hs
      obtain ⟨c, hc, ho, hi, hq⟩ := hs
      rw [hc]
      exact hf hk hc ho hi hq

theorem Inv.onSent (h : s.Inv C T) {f : Call → Nat → Request → Conn → System}
    (hf : ∀ {call i req c}, s.calls k = some call → s.conns i = some c → c.owner = .call k →
      c.poolID = call.poolID →
      (∃ database retentionPolicy, req = call.args.request database retentionPolicy) →
      (T call.args.kind → Carries C s.handled k req c.toPeer c.toClient) →
      (f call i req c).Inv C T) :
    (s.onSent k f).Inv C T := by
  unfold System.onSent
  split
  case h_1 => exact h
  case h_2 call hk =>
    split
    case h_2 => exact h
    case h_1 i req hp =>
      have hs := h.calls hk
      unfold Safe at hs
      rw [hp] at hs
      obtain ⟨c, hc, ho, hi, hr, hq⟩ := hs
      rw [hc]
      exact hf hk hc ho hi hr hq

theorem inv_unknownShard (h : s.Inv C T) : (s.unknownShard k room).Inv C T := by
  refine h.onDialed fun hk hc ho hi hq => ?_
  split
  case isFalse => exact h
  case isTrue => exact h.abort hc ho hi (fun ht _ => hq ht) (.inr rfl)

theorem inv_send (h : s.Inv C T) : (s.send C k database retentionPolicy room).Inv C T := by
  refine h.onDialed fun {call i c} hk hc ho hi hq => ?_
  dsimp only
  split
  case h_1 => exact h.abort hc ho hi (fun ht _ => hq ht) (.inl rfl)
  case h_2 buf hb =>
    refine h.set (fun hd hj => ?_) (fun hp => ?_)
      ⟨_, conns_set, ho, hi, ⟨_, _, rfl⟩, fun ht => ?_⟩
    · cases hc.symm.trans hd
      cases ho.symm.trans hj
      rfl
    · cases ho.symm.trans hp
    · dsimp only
      rw [(hq ht).left, (hq ht).right, nil_append]
      exact .asked hb

theorem inv_sendFail (h : s.Inv C T)
    (hr : T .executeOnNode → s.Orderly (.sendFail k database retentionPolicy n room)) :
    (s.sendFail C k database retentionPolicy n room).Inv C T := by
  refine h.onDialed fun {call i c} hk hc ho hi hq => ?_
  dsimp only
  split
  case h_1 => exact h
  case h_2 =>
    apply h.abort hc ho
    case hi => exact hi
    case ha => exact .inl rfl
    case hq =>
      intro ht hp
      exact absurd hp <| closeConn_ne_pool fun hw => hr (hw ▸ ht) call hk hw

theorem inv_receive (hC : C.Laws) (h : s.Inv C T) : (s.receive C k room).Inv C T := by
  refine h.onSent fun {call i req c} hk hc ho hi hr hq => ?_
  split
  case h_2 => exact h
  case h_1 buf n hb =>
    have hd (ht : T call.args.kind) : Conn.Quiet { c with toClient := c.toClient.drop n } :=
      have hd := (hq ht).read hC hb
      ⟨hd.left, hd.right.left⟩
    dsimp only
    split
    case h_1 =>
      apply h.abort hc ho
      case hi => exact hi
      case ha => exact .inl rfl
      case hq => exact fun ht _ => hd ht
    case h_2 r hu =>
      apply h.finish hc ho
      case hi => exact hi
      case hq => exact fun ht _ => hd ht
      case hp =>
        intro ht req' r' ha
        cases ha
        obtain ⟨-, -, result, hh, hv⟩ := (hq ht).read hC hb
        cases hu.symm.trans hv
        exact ⟨hr, result, hh, rfl⟩

theorem inv_receiveFail (h : s.Inv C T)
    (hr : T .executeOnNode → s.Orderly (.receiveFail k n room)) :
    (s.receiveFail k n room).Inv C T := by
  refine h.onSent fun {call i req c} hk hc ho hi _ _ => ?_
  apply h.abort hc ho
  case hi => exact hi
  case ha => exact .inl rfl
  case hq =>
    intro ht hp
    exact absurd hp <| closeConn_ne_pool fun hw => hr (hw ▸ ht) call hk hw

theorem inv_get (h : s.Inv C T) : (s.get k i).Inv C T := by
  unfold get
  split
  case h_2 => exact h
  case h_1 call c hk hc =>
    split
    case isFalse => exact h
    case isTrue hp =>
      refine h.set (fun hd hj => ?_) (fun ho => ?_) ⟨_, conns_set, rfl, hp.2.2, fun ht => ?_⟩
      · cases hc.symm.trans hd
        cases hp.2.1.symm.trans hj
      · cases ho
      · have hq : c.Quiet := h.pools hc hp.2.1 (hp.2.2 ▸ ht)
        exact hq

theorem inv_dial (h : s.Inv C T) : (s.dial k i).Inv C T := by
  unfold dial
  split
  case h_2 => exact h
  case h_1 call hk hc =>
    split
    case isFalse => exact h
    case isTrue hp =>
      refine h.set (fun hd _ => ?_) (fun ho => ?_) ⟨_, conns_set, rfl, rfl, fun _ => ⟨rfl, rfl⟩⟩
      · cases hc.symm.trans hd
      · cases ho

theorem Inv.setCall (h : s.Inv C T) (hs : (s.setCall k call).Safe C T k call) :
    (s.setCall k call).Inv C T where
  pools := h.pools
  calls {j call'} hj := by
    by_cases he : j = k
    case neg => exact h.calls (by simpa [System.setCall, he] using hj)
    case pos =>
      subst he
      cases (by simpa [System.setCall] using hj : call = call')
      exact hs

theorem inv_start (h : s.Inv C T) : (s.start k args node).Inv C T := by
  unfold start
  split
  case h_1 => exact h.setCall trivial
  case h_2 => exact h

theorem inv_getFail (h : s.Inv C T) : (s.getFail k).Inv C T := by
  unfold getFail
  split
  case h_1 => exact h
  case h_2 =>
    split
    case isTrue => exact h.setCall fun _ _ _ => nofun
    case isFalse => exact h

theorem inv_step (hC : C.Laws) (h : s.Inv C T) (ho : T .executeOnNode → s.Orderly e) :
    (s.step C e).Inv C T := by
  cases e
  case start => exact inv_start h
  case get => exact inv_get h
  case dial => exact inv_dial h
  case getFail => exact inv_getFail h
  case unknownShard => exact inv_unknownShard h
  case send => exact inv_send h
  case sendFail => exact inv_sendFail h ho
  case receive => exact inv_receive hC h
  case receiveFail => exact inv_receiveFail h ho
  case handle i w n =>
    cases hc : s.conns i
    case none =>
      rw [step, handle, hc]
      exact h
    case some c =>
      rw [step]
      obtain he | ⟨c', l, he, hs⟩ := handle_eq (w := w) (n := n) hC hc <;> rw [he]
      · exact h
      · exact h.serve hc hs
  case peerClose i =>
    cases hc : s.conns i
    case none =>
      rw [step, peerClose, hc]
      exact h
    case some c =>
      rw [step, peerClose, hc]
      simpa using h.serve (l := []) hc (by simpa using .close)

theorem written_of_paired (h : call.args.kind = .writeShard → s.Paired k call) :
    s.Written k call := by
  intro shardID points outcome ha hp hn
  have h := h (by rw [ha]; rfl)
  cases outcome
  case failed => cases hn
  case unknownShard => exact .inl rfl
  case answered req r =>
    obtain ⟨⟨database, retentionPolicy, rfl⟩, result, hh, rfl⟩ := h req r hp
    rw [ha] at hh
    cases result
    case none => exact .inr ⟨database, retentionPolicy, hh⟩
    case some e => cases hn

theorem Safe.paired (h : s.Safe C T k call) (ht : T call.args.kind) : s.Paired k call := by
  intro req r hp
  unfold Safe at h
  rw [hp] at h
  exact h ht req r hp

-- The answers of writes are always their own, those of statements are as long as no connection is
-- given back after an error.
theorem answers_paired (hC : C.Laws) :
    (∀ s, Run (step C) (fun _ _ => True) init s → ∀ k call, s.calls k = some call →
      (call.args.kind = .writeShard → s.Paired k call) ∧ s.Written k call) ∧
    ∀ s, Run (step C) Orderly init s → ∀ k call, s.calls k = some call → s.Paired k call := by
  refine ⟨fun s h k call hk => ?_, fun s h k call hk => ?_⟩
  · have hi : s.Inv C (· = .writeShard) := h.invariant inv_init fun hi _ => inv_step hC hi nofun
    have hp : call.args.kind = .writeShard → s.Paired k call := (hi.calls hk).paired
    exact ⟨hp, written_of_paired hp⟩
  · have hi : s.Inv C (fun _ => True) := h.invariant inv_init fun hi ho => inv_step hC hi fun _ => ho
    exact (hi.calls hk).paired trivial

def dropDatabase (name : UInt8) : Bytes :=
  [10, 15, 68, 82, 79, 80, 32, 68, 65, 84, 65, 66, 65, 83, 69, 32, name, 18, 0]

def timeout : Bytes :=
  [8, 1, 18, 7, 116, 105, 109, 101, 111, 117, 116]

def codec : Codec where
  marshal
    | .executeStatement "DROP DATABASE a" "" => some (dropDatabase 97)
    | .executeStatement "DROP DATABASE b" "" => some (dropDatabase 98)
    | _ => none
  unmarshal typ b :=
    if typ = 3 ∧ b = dropDatabase 97 then .ok (.executeStatement "DROP DATABASE a" "")
    else if typ = 3 ∧ b = dropDatabase 98 then .ok (.executeStatement "DROP DATABASE b" "")
    else .error "unexpected EOF"
  marshalResponse r :=
    if r = ⟨0, ""⟩ then some [8, 0] else if r = ⟨1, "timeout"⟩ then some timeout else none
  unmarshalResponse b :=
    if b = [8, 0] then some ⟨0, ""⟩ else if b = timeout then some ⟨1, "timeout"⟩ else none

theorem marshalResponse_codec (h : codec.marshalResponse r = some b) :
    (r = ⟨0, ""⟩ ∧ b = [8, 0]) ∨ (r = ⟨1, "timeout"⟩ ∧ b = timeout) := by
  unfold codec at h
  dsimp only at h
  split_ifs at h with h₁ h₂
  · exact .inl ⟨h₁, (Option.some.inj h).symm⟩
  · exact .inr ⟨h₂, (Option.some.inj h).symm⟩

theorem laws_codec : codec.Laws where
  unmarshal h := by
    unfold codec at h
    dsimp only at h
    split at h <;> cases h <;> rfl
  length h := by
    unfold codec at h
    dsimp only at h
    split at h <;> cases h <;> decide
  unmarshalResponse h := by
    rcases marshalResponse_codec h with ⟨rfl, rfl⟩ | ⟨rfl, rfl⟩ <;> rfl
  lengthResponse h := by
    rcases marshalResponse_codec h with ⟨_, rfl⟩ | ⟨_, rfl⟩ <;> decide

theorem answers_paired_drop :
    let s := [.start 0 (.executeOnNode "DROP DATABASE a" "") 1, .dial 0 0, .send 0 "" "" true,
      .handle 0 ⟨⟨none, none, none, none, none⟩, none⟩ 11, .receive 0 true,
      .start 1 (.executeOnNode "DROP DATABASE b" "") 1, .get 1 0, .send 1 "" "" true,
      .handle 0 ⟨⟨none, none, none, none, none⟩, some "timeout"⟩ 20, .receive 1 true,
      .start 2 (.executeOnNode "DROP DATABASE b" "") 1, .get 2 0, .send 2 "" "" true,
      .receiveFail 2 0 false].foldl (step codec) init
    [0, 1, 2].map (fun k => (s.calls k).map (·.phase)) =
      [some (.returned (.answered (.executeStatement "DROP DATABASE a" "") ⟨0, ""⟩)),
        some (.returned (.answered (.executeStatement "DROP DATABASE b" "") ⟨1, "timeout"⟩)),
        some (.returned .failed)] ∧
    ∀ k call, s.calls k = some call → s.Paired k call :=
  ⟨by decide +kernel, (answers_paired laws_codec).right _ (.foldl (by decide +kernel))⟩

-- The first statement times out before it is answered. The second one gets the connection and takes
-- the answer to the first one for its own, before the peer has got to it.
theorem answer_of_another_call :
    let s := [.start 0 (.executeOnNode "DROP DATABASE a" "") 1, .dial 0 0, .send 0 "" "" true,
      .receiveFail 0 0 true, .start 1 (.executeOnNode "DROP DATABASE b" "") 1, .get 1 0,
      .send 1 "" "" true, .handle 0 ⟨⟨none, none, none, none, none⟩, none⟩ 11,
      .receive 1 true].foldl (step codec) init
    codec.Laws ∧ s.handled = [(0, .executeStatement "DROP DATABASE a" "", none)] ∧
    ∃ call, s.calls 1 = some call ∧
      call.phase = .returned (.answered (.executeStatement "DROP DATABASE b" "") ⟨0, ""⟩) ∧
      ¬s.Paired 1 call := by
  refine ⟨laws_codec, rfl, _, rfl, rfl, fun hp => ?_⟩
  obtain ⟨-, result, hh, -⟩ := hp _ _ rfl
  have hh : (1, Request.executeStatement "DROP DATABASE b" "", result)
      ∈ [(0, Request.executeStatement "DROP DATABASE a" "", none)] := hh
  cases mem_singleton.mp hh

end System

end Rpc
