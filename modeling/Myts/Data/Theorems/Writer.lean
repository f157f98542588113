import Myts.Data.Theorems.Mapping
import Myts.Data.Writer

open List

open Influx (Package Point ShardInfo ShardOwner ShardGroupInfo)
open Arrival (senders)

namespace PointsWriter

section Loops

variable {ι : Type}

theorem writeLocal_eq_none_iff {a : Attempt} : writeLocal a = none ↔ a.writeToShard = none
    ∨ a.writeToShard = some .shardNotFound ∧ a.createShard = none ∧ a.writeToShardAgain = none := by
  rw [writeLocal]
  split
  case h_1 h => simp [h]
  case h_2 h => split <;> simp_all
  case h_3 h => simp_all

theorem writeRemote_eq_none_iff {a : Attempt} : writeRemote level a = none ↔
    a.writeShard = none ∨ level = .any ∧ a.hintedHandoff = some none := by
  rw [writeRemote]
  split
  case h_1 h => simp [h]
  case h_2 h => split <;> simp_all

theorem writeToOwner_eq_none_iff :
    writeToOwner node level owner a = none ↔ Succeeds node level owner a := by
  rw [writeToOwner, Succeeds]
  split
  case isTrue => exact writeLocal_eq_none_iff
  case isFalse => exact writeRemote_eq_none_iff

theorem awaitOwners_sound {result : ι → Option WriteError}
    (h : awaitOwners need result owners wrote writeError l = some none) :
    need ≤ wrote + ((senders l).filter (result · = none)).length := by
  fun_induction awaitOwners need result owners wrote writeError l
  case case7 i l e he hi =>
    have hs : senders (.sent i :: l) = i :: senders l := rfl
    rw [hs, filter_cons_of_neg (by simp [he])]
    exact hi h
  case case8 i l he hw =>
    have hs : senders (.sent i :: l) = i :: senders l := rfl
    rw [hs, filter_cons_of_pos (by simp [he]), length_cons]
    omega
  case case9 i l he hw hi =>
    have hs : senders (.sent i :: l) = i :: senders l := rfl
    rw [hs, filter_cons_of_pos (by simp [he]), length_cons]
    have hi := hi h
    omega
  all_goals cases h

theorem awaitOwners_of_forall {result : ι → Option WriteError} {is : List ι}
    (hl : is.length = owners) (h : ∀ i ∈ is, result i = none) (hw : wrote < need)
    (hn : need ≤ wrote + owners) :
    awaitOwners need result owners wrote writeError (is.map .sent) = some none := by
  subst hl
  induction is generalizing wrote
  case nil => exact (hn.not_gt hw).elim
  case cons i is hi =>
    obtain ⟨he, h⟩ := forall_mem_cons.mp h
    rw [length_cons] at hn
    rw [length_cons, map_cons, awaitOwners]
    simp only [he]
    split
    case isTrue => rfl
    case isFalse hw => exact hi h (by omega) (by omega)

theorem awaitShards_sound {result : ι → Option (Option WriteError)}
    (h : awaitShards result err shards l = some none) : err = none ∧
      ∃ is : List ι, is.Sublist (senders l) ∧ is.length = shards
        ∧ ∀ i ∈ is, result i = some none := by
  fun_induction awaitShards result err shards l
  case case1 => exact ⟨Option.some.inj h, [], nil_sublist _, rfl, nofun⟩
  case case7 shards i l he hi =>
    obtain ⟨hr, is, hs, hl, hn⟩ := hi h
    exact ⟨hr, i :: is, hs.cons_cons i, congrArg (· + 1) hl, forall_mem_cons.mpr ⟨he, hn⟩⟩
  all_goals cases h

theorem awaitShards_of_forall {result : ι → Option (Option WriteError)} {is : List ι}
    (hl : is.length = shards) (h : ∀ i ∈ is, result i = some none) :
    awaitShards result err shards (is.map .sent) = some err := by
  subst hl
  induction is
  case nil => rfl
  case cons i is hi =>
    obtain ⟨he, h⟩ := forall_mem_cons.mp h
    rw [length_cons, map_cons, awaitShards]
    simp only [he]
    exact hi h

end Loops

theorem required_pos (h : 0 < n) : 0 < required level n := by
  cases level <;> simp [required, h]

theorem required_le (h : 0 < n) : required level n ≤ n := by
  cases level <;> simp only [required] <;> omega

theorem writeToShard_sound (h : writeToShard node level W s = some none) :
    required level s.owners.length ≤ (successes node level W s).card := by
  have hs := awaitOwners_sound h
  rw [Nat.zero_add] at hs
  refine hs.trans <| (Arrivals.length_filter_senders_le _).trans_eq ?_
  simp only [writeToOwner_eq_none_iff, successes]

theorem writeToShard_of_succeeds (ho : s.owners ≠ [])
    (hs : ∀ i, Succeeds node level (s.owners.get i) (W.attempt s i)) (hc : (W.owners s).Complete) :
    writeToShard node level W s = some none := by
  have hp := length_pos_iff.mpr ho
  have hl := hc.length_senders.trans (Fintype.card_fin _)
  rw [writeToShard, hc.list_eq]
  refine awaitOwners_of_forall hl (fun i _ => writeToOwner_eq_none_iff.mpr (hs i))
    (required_pos hp) ?_
  rw [Nat.zero_add]
  exact required_le hp

section WritePoints

variable {I : Package} {shardFor : ShardGroupInfo → UInt64 → Option ShardInfo}
variable {m m' : ShardMapping P}

theorem writeShards_sound (h : writeShards node level W m = some none) :
    m.dropped = [] ∧ ∀ id ∈ m.points.keys, ∃ s, m.shards.lookup id = some s
      ∧ required level s.owners.length ≤ (successes node level W s).card := by
  obtain ⟨he, is, hs, hl, hn⟩ := awaitShards_sound h
  constructor
  case left =>
    split at he
    case isTrue => cases he
    case isFalse hd => exact length_eq_zero_iff.mp <| by omega
  case right =>
    intro id hid
    have hi := Arrivals.mem_of_card_le (by rw [hl, Fintype.card_coe]) hs ⟨id, hid⟩
    have hw := hn _ hi
    rw [writeMapped] at hw
    split at hw
    case h_1 => cases hw
    case h_2 s hlk => exact ⟨s, hlk, writeToShard_sound hw⟩

theorem writeShards_of_succeeds (hd : m.dropped = []) (hk : m.points.keys = m.shards.keys)
    (hc : (W.shards m.points.keys).Complete)
    (hs : m.shards.Forall fun s => s.owners ≠ []
      ∧ (∀ i, Succeeds node level (s.owners.get i) (W.attempt s i)) ∧ (W.owners s).Complete) :
    writeShards node level W m = some none := by
  have hl := hc.length_senders.trans (Fintype.card_coe _)
  rw [writeShards, hd, hc.list_eq]
  refine awaitShards_of_forall hl fun ⟨id, hid⟩ _ => ?_
  rw [hk, Finmap.mem_keys] at hid
  obtain ⟨s, hlk⟩ := Finmap.mem_iff.mp hid
  obtain ⟨ho, hs, hc⟩ := hs.of_lookup hlk
  simp only [writeMapped, hlk]
  exact writeToShard_of_succeeds ho hs hc

variable [Point P]

theorem write_acknowledged (W : World) (now : GoTime) (c : MetaClient)
    (database retentionPolicy : String) (level : ConsistencyLevel) (points : List P) :
    (writePointsPrivileged I shardFor node W now c database retentionPolicy level points = some none →
      ∃ policy m c', retentionPolicyOr c database retentionPolicy = .ok policy
        ∧ mapShards I shardFor now ⟨database, policy, points⟩ c = .ok m c'
        ∧ m.dropped = [] ∧ ∀ id ∈ m.points.keys, ∃ s, m.shards.lookup id = some s
          ∧ required level s.owners.length ≤ (successes node level W s).card)
    ∧ ∀ policy m c', retentionPolicyOr c database retentionPolicy = .ok policy →
      mapShards I shardFor now ⟨database, policy, points⟩ c = .ok m c' →
      m.dropped = [] →
      (W.shards m.points.keys).Complete →
      (m.shards.Forall fun s => s.owners ≠ []
        ∧ (∀ i, Succeeds node level (s.owners.get i) (W.attempt s i)) ∧ (W.owners s).Complete) →
      writePointsPrivileged I shardFor node W now c database retentionPolicy level points
        = some none := by
  constructor
  case left =>
    intro h
    rw [writePointsPrivileged] at h
    split at h
    case h_1 => cases h
    case h_2 policy hp =>
      split at h
      case h_1 => cases h
      case h_2 m c' hm => exact ⟨policy, m, c', hp, hm, writeShards_sound h⟩
  case right =>
    intro policy m c' hp hm hd hc hs
    simp only [writePointsPrivileged, hp, hm]
    exact writeShards_of_succeeds hd (keys_of_mapShards hm) hc hs

end WritePoints

section Standard

open Influx.Standard

theorem write_acknowledged_two_shards :
    let c := client (policy 20) [groupOf 1 0 10 [1, 2, 3], groupOf 2 10 20 [3, 4, 5]]
    let points := (write [3, 11]).points
    (∃ policy m c', retentionPolicyOr c "db" "rp" = .ok policy
      ∧ mapShards byEndTime shardFor 21 ⟨"db", policy, points⟩ c = .ok m c'
      ∧ m.dropped = [] ∧ ∀ id ∈ m.points.keys, ∃ s, m.shards.lookup id = some s
        ∧ required .quorum s.owners.length ≤ (successes 1 .quorum (world [3]) s).card)
    ∧ writePointsPrivileged byEndTime shardFor 1 (world []) 21 c "db" "rp" .all points
      = some none := by
  intro c points
  refine ⟨(write_acknowledged _ _ _ _ _ _ _).left (by decide +kernel), ?_⟩
  have hm : ∃ mc ∈ Frame.ok? (mapShards byEndTime shardFor 21 ⟨"db", "rp", points⟩ c),
      mc.1.dropped = [] ∧ ((world []).shards mc.1.points.keys).Complete
        ∧ mc.1.shards.Forall fun s => s.owners ≠ []
          ∧ (∀ i, Succeeds 1 .all (s.owners.get i) ((world []).attempt s i))
          ∧ ((world []).owners s).Complete := by
    decide +kernel
  obtain ⟨mc, hmc, hd, hc, hs⟩ := hm
  exact (write_acknowledged _ _ _ _ _ _ _).right "rp" mc.1 mc.2 rfl (Frame.of_mem_ok? hmc) hd hc hs

-- Every owner succeeds, but the second point is too old, or the shard has no owner at all.
theorem write_not_acknowledged :
    let W := world []
    let c (nodes : List UInt64) := client (policy 20) [groupOf 1 1 10 nodes]
    let result (nodes : List UInt64) (times : List GoTime) :=
      writePointsPrivileged byEndTime shardFor 1 W 21 (c nodes) "db" "rp" .all (write times).points
    (∀ nodes ∈ [[], [1, 2]], ∀ times ∈ [[3], [3, 0]],
      ∃ mc ∈ Frame.ok? (mapShards byEndTime shardFor 21 (write times) (c nodes)),
        (W.shards mc.1.points.keys).Complete
          ∧ mc.1.shards.Forall fun s =>
            (∀ i, Succeeds 1 .all (s.owners.get i) (W.attempt s i)) ∧ (W.owners s).Complete)
    ∧ result [1, 2] [3, 0] = some (some (.partialWriteError "points beyond retention policy" 1))
    ∧ result [] [3] = some (some errWriteFailed) := by
  decide +kernel

end Standard

end PointsWriter
