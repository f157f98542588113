import Myts.Data.Protobuf

open List

namespace DataService

open Internal (Message Unmarshal)

section Decode

variable {X : External}

theorem required_of_unmarshal [Message α] {u : Unmarshal α} (h : unmarshal u buf = .ok pb) :
    Message.Required pb :=
  u.required <| Go.ofExcept_eq_ok.mp h

theorem safe_parseOption {parse : String → Except String α} : (parseOption parse o).Safe := by
  cases o
  case none => trivial
  case some s =>
    rw [parseOption]
    cases parse s <;> trivial

theorem safe_decodeMeasurement (h : pb.isSome) : (decodeMeasurement X pb).Safe := by
  refine (Go.safe_deref.mpr h).bind fun pb _ => ?_
  split
  case h_1 => trivial
  case h_2 => split <;> trivial

theorem safe_decodeIteratorOptions (h : pb.isSome) : (decodeIteratorOptions X pb).Safe := by
  refine (Go.safe_deref.mpr h).bind fun pb _ => ?_
  refine safe_parseOption.bind fun _ _ => safe_parseOption.bind fun _ _ => ?_
  refine (Go.Safe.mapM fun _ _ => safe_decodeMeasurement rfl).bind fun _ _ => ?_
  exact safe_parseOption.bind fun _ _ => trivial

theorem FieldDimensionsRequest.safe_unmarshalBinary :
    (FieldDimensionsRequest.unmarshalBinary X data).Safe :=
  Go.safe_ofExcept.bind fun _ _ => trivial

theorem MapTypeRequest.safe_unmarshalBinary : (MapTypeRequest.unmarshalBinary X data).Safe :=
  Go.safe_ofExcept.bind fun _ _ => trivial

theorem IteratorCostRequest.safe_unmarshalBinary :
    (IteratorCostRequest.unmarshalBinary X data).Safe := by
  refine Go.safe_ofExcept.bind fun pb hpb => ?_
  have ⟨hm, opt, ho, _⟩ := required_of_unmarshal hpb
  refine (safe_decodeMeasurement hm).bind fun _ _ => ?_
  exact (safe_decodeIteratorOptions (Option.isSome_of_mem ho)).bind fun _ _ => trivial

theorem CreateIteratorResponse.safe_unmarshalBinary :
    (CreateIteratorResponse.unmarshalBinary X data).Safe :=
  Go.safe_ofExcept.bind fun _ _ => trivial

theorem FieldDimensionsResponse.safe_unmarshalBinary :
    (FieldDimensionsResponse.unmarshalBinary X data).Safe := by
  refine Go.safe_ofExcept.bind fun pb hpb => ?_
  refine (Go.Safe.mapM fun s hs => ?_).bind fun _ _ => trivial
  have ⟨hn, ht⟩ := required_of_unmarshal hpb s hs
  exact (Go.safe_deref.mpr hn).bind fun _ _ => (Go.safe_deref.mpr ht).bind fun _ _ => trivial

theorem MapTypeResponse.safe_unmarshalBinary : (MapTypeResponse.unmarshalBinary X data).Safe := by
  refine Go.safe_ofExcept.bind fun pb hpb => ?_
  have ht : pb.type.isSome := required_of_unmarshal hpb
  exact (Go.safe_deref.mpr ht).bind fun _ _ => trivial

theorem IteratorCostResponse.safe_unmarshalBinary :
    (IteratorCostResponse.unmarshalBinary X data).Safe := by
  refine Go.safe_ofExcept.bind fun pb hpb => ?_
  have ⟨c, hc, h₁, h₂, h₃, h₄, h₅, h₆⟩ := required_of_unmarshal hpb
  refine (Go.safe_deref.mpr (Option.isSome_of_mem hc)).bind fun c' hc' => ?_
  obtain rfl := Option.mem_unique hc <| Go.deref_eq_ok.mp hc'
  refine (Go.safe_deref.mpr h₁).bind fun _ _ => (Go.safe_deref.mpr h₂).bind fun _ _ => ?_
  refine (Go.safe_deref.mpr h₃).bind fun _ _ => (Go.safe_deref.mpr h₄).bind fun _ _ => ?_
  exact (Go.safe_deref.mpr h₅).bind fun _ _ => (Go.safe_deref.mpr h₆).bind fun _ _ => trivial

theorem safe_unmarshalPoints_iff :
    (unmarshalPoints X points).Safe ↔ ∀ p ∈ points, ∃ pt, X.newPointFromBytes p = .ok pt := by
  refine (Go.safe_mapM_iff fun p _ h => ?_).trans <| forall₂_congr fun p _ => ?_
  · cases hp : X.newPointFromBytes p <;> rw [hp] at h
    case ok pt => exact ⟨pt, rfl⟩
    case error e => exact h.elim
  · cases X.newPointFromBytes p <;> simp

end Decode

section Reading

theorem readLV_eq_negative_iff : Tlv.readLV b = .negative ↔ NegativeSize b := by
  simp only [Tlv.readLV, NegativeSize]
  split_ifs <;> simp only [true_iff, false_iff] <;> omega

theorem safe_readLV_iff : (readLV b).Safe ↔ ¬NegativeSize b := by
  rw [← readLV_eq_negative_iff, readLV]
  split
  case h_4 h => rw [h]; split <;> simp
  all_goals simp [*]

theorem readLV_eq_ok_iff :
    readLV b = .ok (buf, rest) ↔ ∃ n, Tlv.readLV b = .ok buf n ∧ rest = b.drop n := by
  rw [readLV]
  split
  case h_1 h =>
    rw [h]
    constructor
    case mp =>
      intro hr
      cases hr
      exact ⟨_, rfl, rfl⟩
    case mpr =>
      rintro ⟨n, hn, rfl⟩
      cases hn
      rfl
  case h_4 h => rw [h]; split <;> simp [Go.fail]
  all_goals simp [*, Go.panic, Go.fail]

theorem safe_decodeLV_iff {u : Bytes → Go α} (hu : ∀ buf, (u buf).Safe) :
    (decodeLV u b).Safe ↔ ¬NegativeSize b := by
  rw [decodeLV, Go.safe_bind_iff, safe_readLV_iff]
  exact and_iff_left fun _ _ => hu _

theorem safe_decodeTLV_iff {u : Bytes → Go α} (hu : ∀ buf, (u buf).Safe) :
    (decodeTLV u b).Safe ↔ ¬NegativeSize b.tail := by
  cases b
  case nil => exact iff_of_true trivial (by decide)
  case cons typ b =>
    rw [tail_cons, ← safe_decodeLV_iff hu]
    change (decodeLV u b >>= fun v => pure (typ, v)).Safe ↔ _
    exact Go.safe_bind_iff.trans <| and_iff_left fun _ _ => trivial

theorem decodes_iff : Decodes X b ↔ ¬NegativeSize b.tail where
  mp h := (safe_decodeTLV_iff fun _ => Go.safe_ofExcept).mp h.writeShard
  mpr h := {
    writeShard := (safe_decodeTLV_iff fun _ => Go.safe_ofExcept).mpr h
    createIterator := (safe_decodeTLV_iff fun _ => CreateIteratorResponse.safe_unmarshalBinary).mpr h
    fieldDimensions := (safe_decodeTLV_iff fun _ => FieldDimensionsResponse.safe_unmarshalBinary).mpr h
    mapType := (safe_decodeTLV_iff fun _ => MapTypeResponse.safe_unmarshalBinary).mpr h
    iteratorCost := (safe_decodeTLV_iff fun _ => IteratorCostResponse.safe_unmarshalBinary).mpr h }

end Reading

section Handlers

variable {X : External} {S : TSDBStore X}

theorem safe_orElse_iff {x : Go α} {respond : String → α} : (orElse x respond).Safe ↔ x.Safe := by
  cases x
  case ok => rfl
  case error e => cases e <;> rfl

theorem safe_shardGroup : (Go.deref (S.shardGroup ids)).Safe :=
  Go.safe_deref.mpr (S.isSome_shardGroup ids)

theorem safe_decodeLV_bind_iff {u : Bytes → Go α} {f : α → Go β} (hu : ∀ buf, (u buf).Safe)
    (hf : ∀ a, (f a).Safe) : (decodeLV u b >>= f).Safe ↔ ¬NegativeSize b := by
  rw [Go.safe_bind_iff, safe_decodeLV_iff hu]
  exact and_iff_left fun a _ => hf a

theorem safe_processFieldDimensionsRequest_iff :
    (processFieldDimensionsRequest S b).Safe ↔ ¬NegativeSize b := by
  refine safe_orElse_iff.trans <| safe_decodeLV_bind_iff
    (fun _ => FieldDimensionsRequest.safe_unmarshalBinary) fun req => ?_
  exact safe_shardGroup.bind fun _ _ => Go.safe_ofExcept.bind fun _ _ => trivial

theorem safe_processMapTypeRequest_iff :
    (processMapTypeRequest S b).Safe ↔ ¬NegativeSize b := by
  refine safe_orElse_iff.trans <| safe_decodeLV_bind_iff
    (fun _ => MapTypeRequest.safe_unmarshalBinary) fun req => ?_
  exact safe_shardGroup.bind fun _ _ => trivial

theorem safe_processIteratorCostRequest_iff :
    (processIteratorCostRequest S b).Safe ↔ ¬NegativeSize b := by
  refine safe_orElse_iff.trans <| safe_decodeLV_bind_iff
    (fun _ => IteratorCostRequest.safe_unmarshalBinary) fun req => ?_
  split
  case h_1 => trivial
  case h_2 => exact Go.safe_ofExcept.bind fun _ _ => trivial

theorem safe_processExecuteStatementRequest : (processExecuteStatementRequest S buf).Safe :=
  Go.safe_ofExcept.bind fun _ _ => Go.safe_ofExcept.bind fun _ _ => Go.safe_ofError

theorem safe_processWriteShardRequest_iff :
    (processWriteShardRequest S buf).Safe ↔ ∀ req, X.writeShardRequest.run buf = .ok req →
      ∀ p ∈ req.points, ∃ pt, X.newPointFromBytes p = .ok pt := by
  refine Go.safe_bind_iff.trans <| (and_iff_right Go.safe_ofExcept).trans ?_
  refine forall_congr' fun req => imp_congr Go.ofExcept_eq_ok ?_
  rw [← safe_unmarshalPoints_iff]
  exact Go.safe_bind_iff.trans <| and_iff_left fun _ _ => Go.safe_ofError

theorem CreateIteratorRequest.unmarshalBinary_eq_ok_iff :
    CreateIteratorRequest.unmarshalBinary X data = .ok req ↔
      ∃ pb opt mm, X.createIteratorRequest.run data = .ok pb ∧
        X.iteratorOptions (pb.opt.getD []) = .ok opt ∧
        X.measurement.run (pb.measurement.getD []) = .ok mm ∧
        req = ⟨(decodeMeasurement X (some mm)).toOption, opt, pb.shardIDs⟩ := by
  have hm (mm) : Go.dropError (decodeMeasurement X (some mm)) = _ :=
    Go.dropError_of_safe (safe_decodeMeasurement rfl)
  simp only [unmarshalBinary, Go.bind_eq_ok, unmarshal, Go.ofExcept_eq_ok, hm]
  constructor
  case mp =>
    rintro ⟨pb, hpb, opt, ho, mm, hmm, _, hd, hr⟩
    cases hd
    cases hr
    exact ⟨pb, opt, mm, hpb, ho, hmm, rfl⟩
  case mpr =>
    rintro ⟨pb, opt, mm, hpb, ho, hmm, rfl⟩
    exact ⟨pb, hpb, opt, ho, mm, hmm, _, rfl, rfl⟩

theorem safe_processCreateIteratorRequest_iff :
    (processCreateIteratorRequest S b).Safe ↔ ∃ pb opt mm, Creates S b pb opt mm := by
  have hc : (processCreateIteratorRequest S b).Safe ↔ ∃ itr,
      (do
        let req ← decodeLV (CreateIteratorRequest.unmarshalBinary X) b
        let sg ← Go.deref (S.shardGroup req.shardIDs)
        Go.ofExcept (sg.createIterator req.measurement req.opt)) = .ok itr := by
    rw [processCreateIteratorRequest]
    split
    case h_1 h => exact iff_of_true trivial ⟨_, h⟩
    case h_2 h => simp [h]
    case h_3 h =>
      rw [h]
      refine iff_of_false id fun ⟨_, hitr⟩ => ?_
      cases hitr
  simp only [hc, decodeLV, Go.bind_eq_ok, Go.deref_eq_ok, Go.ofExcept_eq_ok, Prod.exists,
    readLV_eq_ok_iff, CreateIteratorRequest.unmarshalBinary_eq_ok_iff]
  constructor
  case mp =>
    rintro ⟨itr, req, ⟨buf, _, ⟨n, hr, rfl⟩, pb, opt, mm, hpb, ho, hmm, rfl⟩, sg, hsg, hitr⟩
    exact ⟨pb, opt, mm, ⟨buf, n, hr, hpb⟩, ho, hmm, sg, hsg, itr, hitr⟩
  case mpr =>
    rintro ⟨pb, opt, mm, ⟨buf, n, hr, hpb⟩, ho, hmm, sg, hsg, itr, hitr⟩
    exact ⟨itr, _, ⟨buf, _, ⟨n, hr, rfl⟩, pb, opt, mm, hpb, ho, hmm, rfl⟩, sg, hsg, hitr⟩

theorem Creates.not_negativeSize (h : Creates S b pb opt mm) : ¬NegativeSize b := by
  obtain ⟨buf, n, hr, _⟩ := h.read
  rw [← readLV_eq_negative_iff, hr]
  intro h
  cases h

end Handlers

section Connection

variable {X : External} {S : Nat → TSDBStore X}

theorem Handled.of_eq_returned_iff {x : Go α} : Handled.of x = .returned ↔ x.Safe := by
  cases x
  case ok => exact iff_of_true rfl trivial
  case error e => cases e <;> simp [Handled.of, Go.Safe]

theorem handleNext_eq_returned_iff :
    handleNext (readLV b) process following = .returned ↔ ¬NegativeSize b ∧
      ∀ buf n, Tlv.readLV b = .ok buf n →
        (process buf).Safe ∧ following (b.drop n) = .returned := by
  rw [← safe_readLV_iff]
  unfold handleNext
  have hok {buf n} (h : Tlv.readLV b = .ok buf n) : readLV b = .ok (buf, b.drop n) :=
    readLV_eq_ok_iff.mpr ⟨n, h, rfl⟩
  split
  case h_1 h => simp [h, Go.Safe]
  case h_2 h =>
    refine iff_of_true rfl ⟨by rw [h]; trivial, fun buf n hr => ?_⟩
    cases h.symm.trans (hok hr)
  case h_3 buf rest h =>
    obtain ⟨n, hn, rfl⟩ := readLV_eq_ok_iff.mp h
    rw [h, hn]
    have hr : (Go.Safe (.ok (buf, b.drop n)) ∧ ∀ buf' n',
        Tlv.Read.ok buf n = .ok buf' n' → (process buf').Safe ∧ following (b.drop n') = .returned) ↔
        (process buf).Safe ∧ following (b.drop n) = .returned := by
      constructor
      case mp => exact fun hr => hr.2 buf n rfl
      case mpr =>
        refine fun hr => ⟨trivial, fun buf' n' he => ?_⟩
        cases he
        exact hr
    rw [hr]
    split
    case h_1 hp => simp [hp, Go.Safe]
    case h_2 hp =>
      refine (and_iff_right ?_).symm
      cases hx : process buf
      case ok => trivial
      case error e => cases e <;> trivial

theorem forall_requestsIn_iff {P : Request → Prop} (ht : typ = Rpc.writeShardRequestMessage ∨
    typ = Rpc.executeStatementRequestMessage) :
    (∀ r ∈ requestsIn i (k + 1) (typ :: b), P r) ↔ P ⟨i, typ, b⟩ ∧
      ∀ buf n, Tlv.readLV b = .ok buf n → ∀ r ∈ requestsIn (i + 1) k (b.drop n), P r := by
  rw [requestsIn, if_pos ht]
  split
  case h_1 buf n h =>
    rw [forall_mem_cons]
    refine and_congr_right fun _ => ?_
    constructor
    case mp =>
      intro hr buf' n' he
      cases h.symm.trans he
      exact hr
    case mpr => exact fun hr => hr buf n h
  case h_2 h =>
    rw [forall_mem_singleton]
    exact (and_iff_left fun buf n he => absurd he (h buf n)).symm

theorem harmless_of_other (hw : typ ≠ Rpc.writeShardRequestMessage)
    (hc : typ ≠ Rpc.createIteratorRequestMessage) :
    Harmless S ⟨i, typ, b⟩ ↔ ¬NegativeSize b :=
  ⟨Harmless.size, fun h => ⟨h, fun hw' => absurd hw' hw, fun hc' => absurd hc' hc⟩⟩

theorem handleConn_eq_returned_iff (hk : b.length < k) :
    handleConn S i k b = .returned ↔ ∀ r ∈ requestsIn i k b, Harmless S r := by
  induction k generalizing i b
  case zero => cases hk
  case succ k hi =>
    cases b
    case nil => exact iff_of_true rfl fun r hr => absurd hr not_mem_nil
    case cons typ b =>
      have hb : b.length < k := Nat.lt_of_succ_lt_succ hk
      have hd (n : Nat) : (b.drop n).length < k := lt_of_le_of_lt (by simp) hb
      rw [handleConn]
      simp only [readType, pure, Except.pure]
      split_ifs with hw he hc hf hm hci
      case pos =>
        rw [forall_requestsIn_iff (.inl hw), handleNext_eq_returned_iff]
        simp only [safe_processWriteShardRequest_iff, hi (hd _)]
        constructor
        case mp =>
          rintro ⟨hs, h⟩
          refine ⟨⟨hs, fun _ buf n req hr => (h buf n hr).1 req, fun hc => ?_⟩, ?_⟩
          · cases hw.symm.trans hc
          · exact fun buf n hr => (h buf n hr).2
        case mpr =>
          rintro ⟨h, hr⟩
          exact ⟨h.size, fun buf n he =>
            ⟨fun req => h.points hw buf n req he, hr buf n he⟩⟩
      case pos =>
        rw [forall_requestsIn_iff (.inr he), handleNext_eq_returned_iff,
          harmless_of_other hw (by rw [he]; decide)]
        simp only [safe_processExecuteStatementRequest, true_and, hi (hd _)]
      case neg =>
        rw [hi hb, requestsIn, if_neg (not_or.mpr ⟨hw, he⟩), if_neg]
        simp only [mem_cons, not_mem_nil, or_false, not_or]
        exact ⟨hc, hf, hm, hci⟩
      all_goals
        rw [requestsIn, if_neg (not_or.mpr ⟨hw, he⟩), if_pos (by simp [*]),
          forall_mem_singleton, Handled.of_eq_returned_iff]
      case pos =>
        rw [safe_processCreateIteratorRequest_iff]
        constructor
        case mp =>
          rintro ⟨pb, opt, mm, h⟩
          exact ⟨h.not_negativeSize, fun hw' => absurd hw' hw, fun _ => ⟨pb, opt, mm, h⟩⟩
        case mpr => exact fun h => h.create hc
      case pos => rw [safe_processFieldDimensionsRequest_iff, harmless_of_other hw hc]
      case pos => rw [safe_processMapTypeRequest_iff, harmless_of_other hw hc]
      case pos => rw [safe_processIteratorCostRequest_iff, harmless_of_other hw hc]

theorem hostile_bytes_iff (X : External) (S : Nat → TSDBStore X) (b : Bytes) :
    (handleConn S 0 (b.length + 1) b = .returned ↔ ∀ r ∈ requests b, Harmless S r) ∧
    (Decodes X b ↔ ¬NegativeSize b.tail) :=
  ⟨handleConn_eq_returned_iff (Nat.lt_succ_self _), decodes_iff⟩

end Connection

section Counterexample

def emptyStore : TSDBStore textual where
  write := fun _ _ => ⟨none, none, none, none, none⟩
  deleteDatabase := fun _ => none
  deleteMeasurement := fun _ _ => none
  deleteSeries := fun _ _ _ => none
  deleteRetentionPolicy := fun _ _ => none
  shardGroup := fun _ => some {
    createIterator := fun _ _ => .ok none
    fieldDimensions := fun _ => .ok (∅, ∅)
    mapType := fun _ _ => 0
    measurementsByRegex := fun _ => []
    iteratorCost := fun _ _ => (noCost, none) }
  isSome_shardGroup := fun _ => rfl

-- A size of -1, a write to shard 1 of a point `x`, and a request for an iterator that is cut off
-- after its type. A size of -1 in a response.
theorem hostile_bytes_panic :
    handleConn (fun _ => emptyStore) 0 10 (1 :: List.replicate 8 255) = .panicked ∧
    handleConn (fun _ => emptyStore) 0 15 (1 :: Tlv.writeLV [8, 1, 18, 1, 120]) = .panicked ∧
    handleConn (fun _ => emptyStore) 0 10 [5] = .panicked ∧
    ¬Decodes textual (2 :: List.replicate 8 255) := by
  refine ⟨by decide +kernel, by decide +kernel, by decide +kernel, fun h => ?_⟩
  exact absurd h.mapType (by decide +kernel)

end Counterexample

end DataService
