import Myts.Meta.Planning
import Myts.Meta.Theorems.Rebalance

open List

namespace Meta

open Influx (NodeInfo ShardOwner ShardInfo)

theorem choose_of_ne (h : node ≠ o.nodeID) :
    choose node [o] 1 5 index [] = ([{ nodeID := node }], index + 1) := by
  rw [choose, if_neg (by simpa using h.symm)]
  rfl

theorem choose_of_eq : (choose o.nodeID [o] 1 5 index []).1 = [] := by
  rcases choose_eq o.nodeID [o] 5 index with h | ⟨_, h⟩
  case inl => exact h
  case inr => exact absurd (mem_singleton_self o) h

namespace Data

variable {getAdminHost : String → String} {d : Data}

theorem foldl_add_of_ne {nodes : List NodeInfo} (h : ∀ n ∈ nodes, n.id ≠ node) :
    nodes.foldl (ownerAddress.add getAdminHost node) m = m := by
  induction nodes
  case nil => rfl
  case cons n nodes hi =>
    have ⟨hn, hr⟩ := forall_mem_cons.mp h
    rw [foldl_cons, ownerAddress.add, if_neg hn]
    exact hi hr

theorem lookup_foldl_add {nodes : List NodeInfo} (hd : (nodes.map (·.id)).Nodup) (hn : n ∈ nodes) :
    (nodes.foldl (ownerAddress.add getAdminHost n.id) m).lookup n.id
      = some (getAdminHost n.tcpHost) := by
  induction nodes generalizing m
  case nil => cases hn
  case cons x nodes hi =>
    have ⟨hx, hd⟩ := nodup_cons.mp hd
    rw [foldl_cons]
    rcases mem_cons.mp hn with rfl | hn
    case inr => exact hi hd hn
    case inl =>
      rw [ownerAddress.add, if_pos rfl, foldl_add_of_ne, Finmap.lookup_insert]
      exact fun y hy he => hx <| mem_map.mpr ⟨y, hy, he⟩

theorem restores_task_iff (getAdminHost : String → String) {s : LocatedShard} {n : NodeInfo}
    (hd : (d.dataNodes.map (·.id)).Nodup)
    (hl : s.shard.owners.length < defaultReplicaN)
    (hn : d.dataNodes[index % d.dataNodes.length]? = some n) :
    let r := choose n.id s.shard.owners (defaultReplicaN - s.shard.owners.length) 5 index []
    (d.Restores getAdminHost s (d.task getAdminHost s r.1) ↔ d.OwnedElsewhere index s)
      ∧ (d.OwnedElsewhere index s → r.2 = index + 1) := by
  obtain ⟨db, rp, id, owners⟩ := s
  match owners, hl with
  | [], _ =>
    have he : ¬d.OwnedElsewhere index ⟨db, rp, id, []⟩ := by simp [OwnedElsewhere]
    refine ⟨iff_of_false (fun h => ?_) he, fun h => absurd h he⟩
    have hr : [ShardOwner.mk n.id, ShardOwner.mk n.id].Nodup := h.nodup
    simp at hr
  | [o], _ =>
    have hi : d.OwnedElsewhere index ⟨db, rp, id, [o]⟩ ↔ n.id ≠ o.nodeID := by
      simp [OwnedElsewhere, hn]
    rw [hi]
    by_cases he : n.id = o.nodeID
    case pos =>
      refine ⟨iff_of_false (fun h => ?_) (not_not.mpr he), fun h => absurd he h⟩
      have hr : (choose n.id [o] 1 5 index []).1.length = 1 := h.length
      rw [he, choose_of_eq] at hr
      cases hr
    case neg =>
      have hr : choose n.id [o] (defaultReplicaN - [o].length) 5 index []
        = ([{ nodeID := n.id }], index + 1) := choose_of_ne he
      simp only [hr]
      refine ⟨iff_of_true ?_ he, fun _ => trivial⟩
      have hm := mem_of_getElem? hn
      refine ⟨rfl, rfl, rfl, rfl, rfl, nodup_singleton _, fun x hx hx' => ?_, fun x hx => ?_⟩
      · cases mem_singleton.mp hx
        exact he <| congrArg ShardOwner.nodeID <| mem_singleton.mp hx'
      · cases mem_singleton.mp hx
        exact ⟨n, hm, rfl, lookup_foldl_add hd hm⟩

theorem forall₂_plan_iff (getAdminHost : String → String) (hd : (d.dataNodes.map (·.id)).Nodup)
    (hn : d.dataNodes ≠ []) (shards : List LocatedShard) (index : Nat) :
    List.Forall₂ (d.Restores getAdminHost)
        (shards.filter (·.shard.owners.length < defaultReplicaN)) (d.plan getAdminHost shards index)
      ↔ ∀ k, ∀ s ∈ (shards.filter (·.shard.owners.length < defaultReplicaN))[k]?,
        d.OwnedElsewhere (index + k) s := by
  induction shards generalizing index
  case nil => simp [plan]
  case cons s shards hi =>
    by_cases hl : s.shard.owners.length < defaultReplicaN
    case neg =>
      rw [plan, if_neg hl, filter_cons_of_neg (by simpa using hl)]
      exact hi index
    case pos =>
      have hp := length_pos_iff.mpr hn
      have ⟨n, hx⟩ : ∃ n, d.dataNodes[index % d.dataNodes.length]? = some n :=
        ⟨_, getElem?_eq_getElem (Nat.mod_lt _ hp)⟩
      have ⟨h₁, h₂⟩ := restores_task_iff getAdminHost hd hl hx
      rw [plan, if_pos hl, filter_cons_of_pos (by simpa using hl), hx]
      simp only [Option.elim_some, forall₂_cons, h₁, hi]
      constructor
      case mp =>
        rintro ⟨hs, hr⟩ (_ | k) s' hs'
        case zero => cases hs'; exact hs
        case succ =>
          rw [h₂ hs] at hr
          have := hr k s' hs'
          rwa [Nat.add_assoc, Nat.add_comm 1 k] at this
      case mpr =>
        intro h
        have hs := h 0 s rfl
        refine ⟨hs, fun k s' hs' => ?_⟩
        rw [h₂ hs, Nat.add_assoc, Nat.add_comm 1 k]
        exact h (k + 1) s' hs'

theorem ownedElsewhere_mod :
    d.OwnedElsewhere (index % d.dataNodes.length + k) s ↔ d.OwnedElsewhere (index + k) s := by
  rw [OwnedElsewhere, OwnedElsewhere, Nat.mod_add_mod]

theorem map_shard_locatedShards (d : Data) : d.locatedShards.map (·.shard) = d.data.shards := by
  simp [locatedShards, Influx.Data.shards, Influx.Data.groups, Influx.DatabaseInfo.groups,
    map_flatMap, flatMap_assoc, Function.comp_def]

theorem map_plan (shards : List LocatedShard) (index : Nat) :
    (d.plan getAdminHost shards index).map (·.toShardRestoreTask) =
      needRebalance.go d (shards.map (·.shard)) index := by
  induction shards generalizing index
  case nil => rfl
  case cons s shards hi =>
    rw [plan, map_cons, needRebalance.go]
    split
    case isTrue => exact congrArg _ (hi _)
    case isFalse => exact hi index

theorem map_planRebalance (getAdminHost : String → String) (d : Data) :
    (d.planRebalance getAdminHost true).2.map (·.toShardRestoreTask) = d.needRebalance := by
  rw [planRebalance, needRebalance]
  by_cases hn : d.dataNodes = []
  case pos => simp [hn]
  case neg =>
    rw [if_neg (by simp [hn]), if_neg hn, ← map_shard_locatedShards]
    exact map_plan _ _

theorem planRebalance_complete_iff (hn : defaultReplicaN ≤ d.dataNodes.length)
    (hd : d.nodeIDs.Nodup) :
    d.CompletePlan getAdminHost (d.planRebalance getAdminHost true) ↔ d.TurnsFit := by
  have hn : d.dataNodes ≠ [] := length_pos_iff.mp <| Nat.lt_of_lt_of_le (by decide) hn
  have hr : d.planRebalance getAdminHost true =
      (decide (d.plan getAdminHost d.locatedShards (d.data.index.toNat % d.dataNodes.length) ≠ []),
        d.plan getAdminHost d.locatedShards (d.data.index.toNat % d.dataNodes.length)) := by
    rw [planRebalance, if_neg (by simp [hn])]
  have hf := forall₂_plan_iff getAdminHost hd hn d.locatedShards
    (d.data.index.toNat % d.dataNodes.length)
  simp only [ownedElsewhere_mod] at hf
  rw [hr]
  constructor
  case mp => exact fun h => hf.mp h.tasks
  case mpr =>
    intro h
    have ht := hf.mpr h
    refine ⟨?_, ht⟩
    rw [decide_eq_true_iff, ← length_pos_iff, ← length_pos_iff, underReplicated,
      ht.length_eq]

def oneOwnerEach (index : UInt64) : Data where
  data := { Data.empty.data with
    index := index
    databases := [{
      name := "db"
      defaultRetentionPolicy := "rp"
      continuousQueries := []
      retentionPolicies := [{
        name := "rp"
        replicaN := 1
        duration := 0
        shardGroupDuration := 604800000000000
        subscriptions := []
        shardGroups := [{
          id := 1
          startTime := 0
          endTime := 604800000000000
          deletedAt := .zero
          truncatedAt := .zero
          shards := [⟨1, [⟨1⟩]⟩, ⟨2, [⟨2⟩]⟩] }] }] }] }
  metaNodes := []
  dataNodes := [⟨1, "h1", "t1"⟩, ⟨2, "h2", "t2"⟩]
  shardStatus := none
  maxNodeID := 2

theorem planRebalance_complete_other_turn :
    (oneOwnerEach 1).CompletePlan id ((oneOwnerEach 1).planRebalance id true) := by
  refine (planRebalance_complete_iff (by decide) (by decide)).mpr fun k s hs => ?_
  have hu : (oneOwnerEach 1).underReplicated
      = [⟨"db", "rp", 1, [⟨1⟩]⟩, ⟨"db", "rp", 2, [⟨2⟩]⟩] := rfl
  rw [hu] at hs
  match k with
  | 0 => cases hs; exact ⟨⟨1⟩, rfl, rfl, by decide⟩
  | 1 => cases hs; exact ⟨⟨2⟩, rfl, rfl, by decide⟩
  | _ + 2 => cases hs

theorem planRebalance_own_turn :
    let d := oneOwnerEach 0
    defaultReplicaN ≤ d.dataNodes.length ∧ d.nodeIDs.Nodup
      ∧ (d.planRebalance id true).2.map (fun t => (t.shardID, t.newOwners)) = [(1, []), (2, [⟨1⟩])]
      ∧ ¬d.CompletePlan id (d.planRebalance id true) := by
  refine ⟨by decide, by decide, rfl, fun h => ?_⟩
  cases h.tasks
  case cons hs _ => exact absurd hs.length (by decide)

end Data
end Meta
