import Myts.Meta.Requests
import Myts.Meta.Theorems.Marshal

def Influx.Package.only (op : Op) : Package :=
  { Package.standard with
    run := fun op' d =>
      (if op' = op then { d with clusterID := d.clusterID + 1 } else d, none) }

namespace Influx.Specs

def standard : Specs where
  minRetentionPolicyDuration := Standard.hour
  newRetentionPolicyInfo spec := {
    name := spec.name
    replicaN := spec.replicaN.getD 1
    duration := spec.duration.getD 0
    shardGroupDuration :=
      Standard.normalisedShardDuration spec.shardGroupDuration (spec.duration.getD 0)
    shardGroups := []
    subscriptions := [] }
  retentionPolicy db name := db.retentionPolicies.find? (·.name = name)

theorem standard_laws : standard.Laws where
  replicaN _ := rfl
  shardGroups _ := rfl
  subscriptions _ := rfl

end Influx.Specs

namespace Meta

open Influx (Package Specs RetentionPolicySpec RetentionPolicyUpdate RetentionPolicyInfo)

namespace Data

variable {I : Package} {d : Data} {l : Log} {op : Influx.Op}

theorem apply_eq_applyMethod (h : dispatch I E l.cmd = .update m) :
    d.apply I E l = d.applyMethod l m := by
  rw [apply, h]
  rfl

theorem applyMethod_onInflux :
    d.applyMethod l (onInflux I op) =
      match I.run op d.data with
      | (data, none) => some (DataOf.stamp l { d with data }, none)
      | (_, some e) => some (d.stamp l, some (.external e)) := by
  rw [applyMethod, onInflux]
  obtain ⟨data, _ | e⟩ := I.run op d.data
  case none => rfl
  case some =>
    have : d.leaked { d with data } = d.shardStatus := by
      rw [leaked]
      cases d.shardStatus <;> rfl
    simp [this]

theorem applyCreateDatabaseCommand_eq :
    applyCreateDatabaseCommand I autoCreate name (some pb) =
      (onInflux I (.createDatabase name) >>= fun _ =>
        onInflux I (.createRetentionPolicy name (policyOfPb pb) true)) := by
  rw [applyCreateDatabaseCommand]
  congr 1
  funext _ d
  rw [applyCreateDatabaseCommand.createPolicy, onInflux]
  obtain ⟨data, _ | e⟩ := I.run _ d.data <;> rfl

end Data

theorem applyMethod_only :
    Data.empty.applyMethod l (Data.onInflux (.only op) op') =
      some (DataOf.stamp l { Data.empty with data.clusterID := if op' = op then 1 else 0 }, none) := by
  rw [Data.applyMethod_onInflux]
  by_cases h : op' = op <;> simp [Package.only, h, Data.empty]

theorem eq_of_applyMethod_only
    (h : Data.empty.applyMethod l (Data.onInflux (.only op) op')
      = Data.empty.applyMethod l (Data.onInflux (.only op) op)) : op' = op := by
  by_contra hn
  rw [applyMethod_only, applyMethod_only, if_neg hn, if_pos rfl] at h
  have := congrArg (fun r => r.map fun r => r.1.data.clusterID) h
  simp [DataOf.stamp] at this

namespace Client

variable {I : Package} {S : Specs} {cacheData : Data} {spec : RetentionPolicySpec}

theorem fitsReplicaN_iff_map :
    FitsReplicaN replicaN ↔
      (replicaN.map fun n => UInt32.ofNat (n % 2 ^ 32).toNat).map (fun n => (n.toNat : Int))
        = replicaN := by
  cases replicaN
  case none => simp [FitsReplicaN]
  case some n => simpa [FitsReplicaN] using (toNat_replicaN_iff n).symm

theorem policyOfPb_marshal_iff (hS : S.Laws) :
    policyOfPb (marshalRetentionPolicyInfo I (S.newRetentionPolicyInfo spec))
        = S.newRetentionPolicyInfo spec
      ↔ FitsReplicaN spec.replicaN := by
  rw [Influx.RetentionPolicyInfo.ext_iff]
  simp only [policyOfPb, marshalRetentionPolicyInfo, toNat_replicaN_iff, hS.replicaN,
    hS.shardGroups, hS.subscriptions, true_and, and_true]
  cases spec.replicaN <;> simp [FitsReplicaN]

theorem createRetentionPolicy_command?
    (h : cmd ∈ (createRetentionPolicy I S cacheData db spec makeDefault).command?) :
    cmd = .createRetentionPolicy db
        (marshalRetentionPolicyInfo I (S.newRetentionPolicyInfo spec)) makeDefault
      ∧ ¬spec.DurationTooLow S := by
  simp only [createRetentionPolicy] at h
  split at h
  case isTrue => cases h
  case isFalse hd =>
    split at h
    case h_1 => cases h
    case h_2 =>
      cases h
      exact ⟨rfl, hd⟩

theorem createDatabaseWithRetentionPolicy_command?
    (h : cmd ∈ (createDatabaseWithRetentionPolicy I S cacheData name (some spec)).command?) :
    cmd = .createDatabase name
        (some (marshalRetentionPolicyInfo I (S.newRetentionPolicyInfo spec)))
      ∧ ¬spec.DurationTooLow S := by
  simp only [createDatabaseWithRetentionPolicy] at h
  split at h
  case isTrue => cases h
  case isFalse hd =>
    split at h
    case h_1 => split at h <;> cases h
    case h_2 =>
      cases h
      exact ⟨rfl, hd⟩

theorem createRetentionPolicy_empty (hd : ¬spec.DurationTooLow S) :
    (createRetentionPolicy I S .empty db spec makeDefault).command? =
      some (.createRetentionPolicy db
        (marshalRetentionPolicyInfo I (S.newRetentionPolicyInfo spec)) makeDefault) := by
  rw [createRetentionPolicy, if_neg hd]
  rfl

theorem createDatabaseWithRetentionPolicy_empty (hd : ¬spec.DurationTooLow S) :
    (createDatabaseWithRetentionPolicy I S .empty name (some spec)).command? =
      some (.createDatabase name
        (some (marshalRetentionPolicyInfo I (S.newRetentionPolicyInfo spec)))) := by
  simp only [createDatabaseWithRetentionPolicy, if_neg hd]
  rfl

namespace Wish

def sampleEnv : Env := .follower (.ascending .zero) []
def sampleLog (cmd : Command) : Log := { term := 1, index := 1, cmd }

theorem granted_updateRetentionPolicy_iff :
    Granted S (.updateRetentionPolicy db name rpu makeDefault)
      ↔ rpu.shardGroupDuration = none ∧ FitsReplicaN rpu.replicaN := by
  let sent : RetentionPolicyUpdate := { rpu with
    replicaN := (rpu.replicaN.map fun n => UInt32.ofNat (n % 2 ^ 32).toNat).map (·.toNat)
    shardGroupDuration := none }
  have hs : sent = rpu ↔ rpu.shardGroupDuration = none ∧ FitsReplicaN rpu.replicaN := by
    obtain ⟨_, _, _, _⟩ := rpu
    rw [fitsReplicaN_iff_map]
    simp [sent, eq_comm, and_comm]
  rw [← hs]
  constructor
  case mp =>
    intro h
    have h := h (.only (.updateRetentionPolicy db name rpu makeDefault)) .empty _ rfl sampleEnv
      (sampleLog _) .empty rfl
    rw [Data.apply_eq_applyMethod rfl] at h
    injection eq_of_applyMethod_only h
  case mpr =>
    rintro h I cacheData cmd ⟨⟩ E l d hl
    refine Data.apply_eq_applyMethod ?_
    rw [hl]
    change Effect.update (Data.onInflux I (.updateRetentionPolicy db name sent makeDefault)) = _
    rw [h]
    rfl

theorem granted_createRetentionPolicy_iff (hS : S.Laws) :
    Granted S (.createRetentionPolicy db spec makeDefault)
      ↔ spec.DurationTooLow S ∨ FitsReplicaN spec.replicaN := by
  constructor
  case mp =>
    intro h
    refine or_iff_not_imp_left.mpr fun hd => ?_
    let asked := Influx.Op.createRetentionPolicy db (S.newRetentionPolicyInfo spec) makeDefault
    have h := h (.only asked) .empty _ (createRetentionPolicy_empty hd) sampleEnv (sampleLog _)
      .empty rfl
    rw [Data.apply_eq_applyMethod rfl] at h
    injection eq_of_applyMethod_only h with _ h
    exact (policyOfPb_marshal_iff hS).mp h
  case mpr =>
    rintro h I cacheData cmd hc E l d hl
    have ⟨hc, hd⟩ := createRetentionPolicy_command? hc
    refine Data.apply_eq_applyMethod ?_
    rw [hl, hc, dispatch, (policyOfPb_marshal_iff hS).mpr (h.resolve_left hd)]
    rfl

theorem granted_createDatabaseWithRetentionPolicy_iff (hS : S.Laws) :
    Granted S (.createDatabaseWithRetentionPolicy name spec)
      ↔ spec.DurationTooLow S ∨ FitsReplicaN spec.replicaN := by
  constructor
  case mp =>
    intro h
    refine or_iff_not_imp_left.mpr fun hd => ?_
    let asked := Influx.Op.createRetentionPolicy name (S.newRetentionPolicyInfo spec) true
    have h := h (.only asked) .empty _ (createDatabaseWithRetentionPolicy_empty hd) sampleEnv
      (sampleLog _) .empty rfl
    rw [Data.apply_eq_applyMethod rfl, Data.applyCreateDatabaseCommand_eq] at h
    injection eq_of_applyMethod_only h with _ h
    exact (policyOfPb_marshal_iff hS).mp h
  case mpr =>
    rintro h I cacheData cmd hc E l d hl
    have ⟨hc, hd⟩ := createDatabaseWithRetentionPolicy_command? hc
    refine Data.apply_eq_applyMethod ?_
    rw [hl, hc, dispatch, Data.applyCreateDatabaseCommand_eq,
      (policyOfPb_marshal_iff hS).mpr (h.resolve_left hd)]
    rfl

theorem granted_iff (hS : S.Laws) (w : Wish) : w.Granted S ↔ w.Carried S := by
  cases w
  case createDatabaseWithRetentionPolicy =>
    exact granted_createDatabaseWithRetentionPolicy_iff hS
  case createRetentionPolicy => exact granted_createRetentionPolicy_iff hS
  case updateRetentionPolicy => exact granted_updateRetentionPolicy_iff

def renamed : Wish :=
  .updateRetentionPolicy "db" "rp"
    { name := some "raw", duration := none, replicaN := some 2, shardGroupDuration := none } true

theorem renamed_granted : Specs.standard.Laws ∧ renamed.Granted .standard :=
  ⟨Specs.standard_laws, (granted_iff Specs.standard_laws renamed).mpr (by decide)⟩

def weekly : Data :=
  { Data.empty with data.databases := [{
      name := "db"
      defaultRetentionPolicy := "rp"
      retentionPolicies := [Package.standard.newRetentionPolicyInfo "rp"]
      continuousQueries := [] }] }

def daily : Wish :=
  .updateRetentionPolicy "db" "rp"
    { name := none, duration := none, replicaN := none, shardGroupDuration := some Influx.Standard.day }
    false

def durations (r : Option (Data × Option Error)) : Option (List Int × Option Error) :=
  r.map fun (d, err) => (d.data.policies.map (·.shardGroupDuration), err)

theorem shardGroupDuration_dropped :
    (daily.command? .standard .standard weekly).map
        (fun cmd => durations (weekly.apply .standard sampleEnv (sampleLog cmd)))
      = some (some ([7 * Influx.Standard.day], none))
    ∧ ∀ cmd, durations (weekly.applyMethod (sampleLog cmd) (daily.method .standard .standard))
      = some ([Influx.Standard.day], none) := by
  refine ⟨by decide +kernel, fun cmd => ?_⟩
  rfl

end Wish
end Client
end Meta
