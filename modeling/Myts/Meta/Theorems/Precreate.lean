import Myts.Meta.Precreate
import Myts.Meta.Standard

open List

namespace Meta.Client

open Influx (Package RetentionPolicyInfo DatabaseInfo)

variable {I : Package} {env : Nat → Exec} {tmin tmax : GoTime}

theorem createShardGroup_eq_none_iff {x : Exec} {c : Creation} :
    createShardGroup I x c.database c.policy c.timestamp = .ok none ↔ YieldsNothing I x c := by
  constructor
  case mp =>
    intro h
    rw [createShardGroup] at h
    split at h
    case h_1 => cases h
    case h_2 hb =>
      split at h
      case h_1 => cases h
      case h_2 he =>
        split at h
        case h_1 => cases h
        case h_2 => cases h
        case h_3 rpi hr => exact ⟨hb, he, rpi, hr, Except.ok.inj h⟩
  case mpr =>
    rintro ⟨hb, he, rpi, hr, hn⟩
    simp only [createShardGroup, hb, he, hr, hn]

theorem dueOf_cons (database : String) (rp : RetentionPolicyInfo) (rps : List RetentionPolicyInfo) :
    dueOf tmin tmax database (rp :: rps) =
      ((nextShardGroupTime tmin tmax rp).map (⟨database, rp.name, ·⟩)).toList ++
        dueOf tmin tmax database rps := by
  rw [dueOf, flatMap_cons, ← dueOf, nextShardGroupTime]
  congr 1
  cases rp.shardGroups.getLast?
  case none => rfl
  case some g =>
    by_cases h : ¬g.Deleted ∧ g.endTime < tmax ∧ tmin < g.endTime
    case pos => simp [h]
    case neg =>
      have h' : ¬(¬g.Deleted ∧ tmin < g.endTime ∧ g.endTime < tmax) := fun ⟨h₁, h₂, h₃⟩ =>
        h ⟨h₁, h₃, h₂⟩
      simp only [if_neg h, Option.toList_some, filter_singleton, decide_eq_false h']
      rfl

theorem precreatePolicies_iff (database : String) (rps : List RetentionPolicyInfo) (k : Nat) :
    (precreatePolicies I env tmin tmax database rps k).panicked = false ↔
      ∀ n, ∀ c ∈ (dueOf tmin tmax database rps)[n]?, ¬YieldsNothing I (env (k + n)) c := by
  induction rps generalizing k
  case nil => simp [precreatePolicies, dueOf]
  case cons rp rps hi =>
    rw [precreatePolicies]
    cases ht : nextShardGroupTime tmin tmax rp
    case none =>
      have hd : dueOf tmin tmax database (rp :: rps) = dueOf tmin tmax database rps := by
        simp [dueOf_cons, ht]
      rw [hd]
      exact hi k
    case some t =>
      have hd : dueOf tmin tmax database (rp :: rps)
          = ⟨database, rp.name, t⟩ :: dueOf tmin tmax database rps := by
        simp [dueOf_cons, ht]
      rw [hd]
      dsimp only
      split
      case h_1 hc =>
        have hy := createShardGroup_eq_none_iff (c := ⟨database, rp.name, t⟩).mp hc
        exact iff_of_false nofun fun h => h 0 _ rfl hy
      case h_2 hc =>
        have hy : ¬YieldsNothing I (env k) ⟨database, rp.name, t⟩ :=
          fun h => hc <| createShardGroup_eq_none_iff.mpr h
        refine (hi (k + 1)).trans ⟨fun h n c hn => ?_, fun h n c hn => ?_⟩
        · cases n
          case zero => cases hn; exact hy
          case succ n =>
            have := h n c hn
            rwa [Nat.add_assoc, Nat.add_comm 1 n] at this
        · rw [Nat.add_assoc, Nat.add_comm 1 n]
          exact h (n + 1) c hn

theorem calls_precreatePolicies {database : String} {rps : List RetentionPolicyInfo}
    (h : (precreatePolicies I env tmin tmax database rps k).panicked = false) :
    (precreatePolicies I env tmin tmax database rps k).calls = dueOf tmin tmax database rps := by
  induction rps generalizing k
  case nil => rfl
  case cons rp rps hi =>
    rw [precreatePolicies] at h ⊢
    cases ht : nextShardGroupTime tmin tmax rp
    case none =>
      rw [ht] at h
      simpa [dueOf_cons, ht] using hi h
    case some t =>
      rw [ht] at h
      dsimp only at h ⊢
      split at h
      case h_1 => cases h
      case h_2 => simpa [dueOf_cons, ht] using hi h

theorem precreatesAll_iff (I : Package) (env : Nat → Exec) (tmin tmax : GoTime) (d : Data) :
    PrecreatesAll tmin tmax d (precreateShardGroups I env tmin tmax d)
      ↔ OnlyFirstDue I env tmin tmax d := by
  rw [precreateShardGroups]
  cases hd : d.data.databases
  case nil =>
    exact iff_of_true ⟨by rw [hd]; rfl, rfl⟩ ⟨by simp [hd], by simp [hd]⟩
  case cons di dis =>
    have hp : (precreatePolicies I env tmin tmax di.name di.retentionPolicies 0).panicked = false ↔
        ∀ n, ∀ c ∈ (dueCreations tmin tmax di)[n]?, ¬YieldsNothing I (env n) c := by
      simpa [dueCreations] using precreatePolicies_iff di.name di.retentionPolicies 0
    constructor
    case mp =>
      intro h
      have hc := h.calls
      rw [calls_precreatePolicies h.alive, hd, flatMap_cons] at hc
      refine ⟨?_, ?_⟩
      · rw [hd]
        exact flatMap_eq_nil_iff.mp <| self_eq_append_right.mp hc
      · rw [hd]
        rintro _ ⟨⟩
        exact hp.mp h.alive
    case mpr =>
      intro h
      have ha := hp.mpr <| h.yields di (by rw [hd]; rfl)
      refine ⟨?_, ha⟩
      have ho := h.others
      rw [hd, tail_cons] at ho
      rw [calls_precreatePolicies ha, hd, flatMap_cons, flatMap_eq_nil_iff.mpr ho,
        append_nil]
      rfl

def twoDatabases : Data :=
  { Data.empty with data := { Data.empty.data with databases := ["a", "b"].map database } }
where
  database (name : String) : DatabaseInfo := {
    name
    defaultRetentionPolicy := "rp"
    continuousQueries := []
    retentionPolicies := [{
      name := "rp"
      replicaN := 1
      duration := 0
      shardGroupDuration := 10
      subscriptions := []
      shardGroups := [{
        id := 1
        startTime := 0
        endTime := 10
        deletedAt := .zero
        truncatedAt := .zero
        shards := [] }] }] }

-- Nothing is created for the second database, and a creation without nodes yields nothing.
theorem precreate_first_only :
    let d := twoDatabases
    d.data.databases.flatMap (dueCreations 5 20) = [⟨"a", "rp", 11⟩, ⟨"b", "rp", 11⟩]
      ∧ (precreateShardGroups .standard (fun _ => ⟨d, some "timeout", d⟩) 5 20 d).calls
        = [⟨"a", "rp", 11⟩]
      ∧ (precreateShardGroups .standard (fun _ => ⟨d, none, d⟩) 5 20 d).panicked = true := by
  decide +kernel

end Meta.Client
