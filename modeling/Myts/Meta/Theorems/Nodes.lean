import Myts.Meta.Nodes
import Myts.Meta.Theorems.Isolation
import Myts.Meta.Theorems.Standard

open List

namespace Meta

open Influx (Package NodeInfo)
open Frame (Within Keeps final)

namespace Identified

variable {ns ms : List NodeInfo}

theorem symm (h : Identified ns ms maxID) : Identified ms ns maxID where
  nodup_left := h.nodup_right
  nodup_right := h.nodup_left
  shared m hm n hn := fun he => (h.shared n hn m hm he.symm).symm
  le_left := h.le_right
  le_right := h.le_left

theorem sublist (h : Identified ns ms maxID) (hs : ns'.Sublist ns) : Identified ns' ms maxID where
  nodup_left := h.nodup_left.sublist <| hs.map _
  nodup_right := h.nodup_right
  shared n hn := h.shared n <| hs.subset hn
  le_left n hn := h.le_left n <| hs.subset hn
  le_right := h.le_right

theorem add (h : Identified ns ms maxID) (hp : ns'.Perm (ns ++ [n])) (hi : ∀ n' ∈ ns, n'.id ≠ n.id)
    (hs : ∀ m ∈ ms, n.id = m.id → n.tcpHost = m.tcpHost) (hn : n.id ≤ maxID') (hm : maxID ≤ maxID') :
    Identified ns' ms maxID' where
  nodup_left := by
    rw [(hp.map _).nodup_iff, map_append, nodup_append]
    refine ⟨h.nodup_left, by simp, ?_⟩
    simpa using hi
  nodup_right := h.nodup_right
  shared n' hn' m hm := by
    cases mem_append.mp <| hp.mem_iff.mp hn'
    case inl hn' => exact h.shared n' hn' m hm
    case inr hn' => exact mem_singleton.mp hn' ▸ hs m hm
  le_left n' hn' := by
    cases mem_append.mp <| hp.mem_iff.mp hn'
    case inl hn' => exact UInt64.le_trans (h.le_left n' hn') hm
    case inr hn' => exact mem_singleton.mp hn' ▸ hn
  le_right m hm' := UInt64.le_trans (h.le_right m hm') hm

end Identified

namespace Data

variable {d d' : Data} {I : Package} {E : Env} {l : Log}

theorem lt_maxNodeID_succ (h : d.HasIDs 1) : ∀ node ≤ d.maxNodeID, node < d.maxNodeID + 1 := by
  intro node hn
  rw [HasIDs, UInt64.size] at h
  rw [UInt64.le_iff_toNat_le] at hn
  rw [UInt64.lt_iff_toNat_lt, UInt64.toNat_add, UInt64.toNat_one]
  omega

theorem nodeID_eq (d : Data) (nodes : List NodeInfo) (tcpHost : String) :
    d.nodeID nodes tcpHost = (d.maxNodeID + 1, d.maxNodeID + 1)
      ∨ ∃ n ∈ nodes, n.tcpHost = tcpHost ∧ d.nodeID nodes tcpHost = (n.id, d.maxNodeID) := by
  rw [nodeID]
  cases hf : nodes.find? (·.tcpHost == tcpHost)
  case none => exact .inl rfl
  case some n =>
    have hn : n.tcpHost = tcpHost := by simpa using find?_some hf
    by_cases h₀ : n.id = 0
    case pos => exact .inl <| by simp [h₀]
    case neg => exact .inr ⟨n, mem_of_find?_eq_some hf, hn, by simp [h₀]⟩

theorem add_nodeID {ns ms : List NodeInfo} (h : Meta.Identified ns ms d.maxNodeID) (hd : d.HasIDs 1)
    (hf : ∀ m ∈ ms, m.tcpHost = tcpHost → ∀ n ∈ ns, n.id ≠ m.id)
    (hp : ns'.Perm (ns ++ [{ id := (d.nodeID ms tcpHost).1, host, tcpHost }])) :
    Meta.Identified ns' ms (d.nodeID ms tcpHost).2 := by
  obtain hi | ⟨m, hm, ht, hi⟩ := d.nodeID_eq ms tcpHost <;> rw [hi] at hp ⊢
  case inl =>
    have hlt := lt_maxNodeID_succ hd
    refine h.add hp (fun n hn => UInt64.ne_of_lt (hlt _ <| h.le_left n hn)) (fun m hm he => ?_)
      (UInt64.le_refl _) (UInt64.le_of_lt <| hlt _ <| UInt64.le_refl _)
    exact (UInt64.ne_of_lt (hlt _ <| h.le_right m hm) he.symm).elim
  case inr =>
    refine h.add hp (hf m hm ht) (fun m' hm' he => ?_) (h.le_right m hm) (UInt64.le_refl _)
    have he : m = m' := inj_on_of_nodup_map h.nodup_right hm hm' he
    exact he ▸ ht.symm

theorem createMetaNode_ok (hI : I.SortLaws) (he : createMetaNode I httpAddr tcpAddr d = .ok () d') :
    d'.dataNodes = d.dataNodes ∧ (d.HasIDs 2 → d'.HasIDs 1)
      ∧ ∃ m, d'.metaNodes.Perm (d.metaNodes ++ [m]) ∧ m.tcpHost = tcpAddr := by
  rw [createMetaNode] at he
  split at he <;> cases he
  refine ⟨rfl, fun hd => ?_, _, hI.nodes_perm _, rfl⟩
  change (d.nodeID d.dataNodes tcpAddr).2.toNat + 1 < UInt64.size
  rw [HasIDs] at hd
  obtain hi | ⟨_, _, _, hi⟩ := d.nodeID_eq d.dataNodes tcpAddr <;> rw [hi]
  case inl =>
    rw [UInt64.toNat_add, UInt64.toNat_one, Nat.mod_eq_of_lt] <;> rw [UInt64.size] at * <;> omega
  case inr => exact Nat.lt_of_succ_lt hd

section Methods

variable (h : d.Identified)

include h

theorem createDataNode_identified (hI : I.SortLaws) (hd : d.HasIDs 1) :
    (final (createDataNode I host tcpHost d)).Identified := by
  rw [createDataNode]
  split
  case isTrue => exact h
  case isFalse hn =>
    refine add_nodeID h hd (fun m hm ht n hn' hi => hn ?_) (hI.nodes_perm _)
    simp only [any_eq_true, beq_iff_eq]
    exact ⟨n, hn', (h.shared n hn' m hm hi).trans ht⟩

theorem createMetaNode_identified (hI : I.SortLaws) (hd : d.HasIDs 1) (hf : d.FreeForMeta tcpAddr) :
    (final (createMetaNode I httpAddr tcpAddr d)).Identified := by
  rw [createMetaNode]
  split
  case isTrue => exact h
  case isFalse => exact (add_nodeID h.symm hd hf (hI.nodes_perm _)).symm

theorem setDataNode_identified (hm : m ∈ d.metaNodes) (ht : m.tcpHost = tcpHost)
    (hf : ∀ n ∈ d.dataNodes, n.id ≠ m.id) :
    (final (setDataNode m.id host tcpHost d)).Identified := by
  rw [setDataNode]
  split
  case isTrue => exact h
  case isFalse =>
    refine h.add (.refl _) hf (fun m' hm' he => ?_) (h.le_right m hm) (UInt64.le_refl _)
    have he : m = m' := inj_on_of_nodup_map h.nodup_right hm hm' he
    exact he ▸ ht.symm

theorem setMetaNode_identified (hI : I.SortLaws) (hd : d.HasIDs 1)
    (hf : d.metaNodes.length = 1 →
      ∀ n ∈ d.dataNodes, ∀ m ∈ d.metaNodes, n.id = m.id → n.tcpHost = tcpAddr) :
    (final (setMetaNode I httpAddr tcpAddr d)).Identified := by
  rw [setMetaNode]
  split
  case h_1 hm =>
    refine createMetaNode_identified h hI hd fun n _ _ m hm' => ?_
    simp [hm] at hm'
  case h_2 m hm =>
    rw [Identified, hm] at h
    simp only [hm, length_singleton, mem_singleton, forall_eq, forall_const] at hf
    exact {
      nodup_left := h.nodup_left
      nodup_right := by simp
      shared := by simpa using hf
      le_left := h.le_left
      le_right := by simpa using h.le_right m }
  case h_3 => exact h

theorem deleteMetaNode_identified : (final (deleteMetaNode node d)).Identified := by
  simp only [deleteMetaNode]
  split
  case isTrue => exact h
  case isFalse =>
    split
    case isTrue => exact h
    case isFalse => exact (h.symm.sublist filter_sublist).symm

theorem deleteDataNode_identified : (final (deleteDataNode M node d)).Identified := by
  simp only [deleteDataNode]
  split
  case isTrue => exact h
  case isFalse =>
    split <;> exact h.sublist filter_sublist

theorem setClusterID_identified : (final (setClusterID rand d)).Identified := by
  change Identified (if _ then _ else _)
  split <;> exact h

theorem applyCreateNodeCommand_createDataNode_identified (hI : I.SortLaws) (hd : d.HasIDs 1)
    (hm : d.OnlyMetaIs host) :
    (final (applyCreateNodeCommand.createDataNode I host d)).Identified := by
  rw [applyCreateNodeCommand.createDataNode]
  split
  case h_1 m hs =>
    simp only [OnlyMetaIs, hs, length_singleton, mem_singleton, forall_eq,
      forall_const] at hm
    exact setDataNode_identified h (by simp [hs]) hm.left hm.right
  case h_2 => exact createDataNode_identified h hI hd

theorem applyCreateNodeCommand_identified (hI : I.SortLaws) (hd : d.HasIDs 2)
    (hf : if host ∈ peers then
        d.FreeForMeta host ∧ (d.metaNodes = [] → ∀ n ∈ d.dataNodes, n.tcpHost ≠ host)
      else d.OnlyMetaIs host) :
    (final (applyCreateNodeCommand I host rand peers d)).Identified := by
  have h₁ : d.HasIDs 1 := Nat.lt_of_succ_lt hd
  rw [applyCreateNodeCommand, applyCreateNodeCommand.createMetaNode]
  split at hf
  case isFalse hp =>
    rw [if_neg hp]
    refine Frame.final_bind h ?_
    rintro _ _ ⟨⟩ _
    exact Frame.final_bind (applyCreateNodeCommand_createDataNode_identified h hI h₁ hf)
      fun _ _ _ h => setClusterID_identified h
  case isTrue hp =>
    rw [if_pos hp]
    refine Frame.final_bind (createMetaNode_identified h hI h₁ hf.left) fun _ d' he h' => ?_
    obtain ⟨hn, hi, m, hm, ht⟩ := createMetaNode_ok hI he
    refine Frame.final_bind (applyCreateNodeCommand_createDataNode_identified h' hI (hi hd) ?_)
      fun _ _ _ h => setClusterID_identified h
    intro hl m' hm'
    have hd : d.metaNodes = [] := by simpa [hl] using hm.length_eq
    rw [hd, nil_append, perm_singleton] at hm
    obtain rfl : m' = m := by simpa [hm] using hm'
    refine ⟨ht, fun n hn' he => hf.right hd n (hn ▸ hn') ?_⟩
    exact (h'.shared n hn' m' hm' he).trans ht

theorem applyCreateDataNodeCommand_identified (hI : I.SortLaws) (hd : d.HasIDs 1)
    (hf : d.dataNodes = [] → d.OnlyMetaIs tcpAddr) :
    (final (applyCreateDataNodeCommand I httpAddr tcpAddr d)).Identified := by
  rw [applyCreateDataNodeCommand]
  split
  case h_1 m hm hn =>
    have hf := hf hn
    simp only [OnlyMetaIs, hm, length_singleton, mem_singleton, forall_eq,
      forall_const] at hf
    exact setDataNode_identified h (by simp [hm]) hf.left hf.right
  case h_2 =>
    rw [final_ignore]
    exact createDataNode_identified h hI hd

theorem applyDeleteMetaNodeCommand_identified :
    (final (applyDeleteMetaNodeCommand E node d)).Identified := by
  rw [applyDeleteMetaNodeCommand]
  split
  case h_1 => exact h
  case h_2 =>
    split
    case h_3 => exact h
    all_goals exact deleteMetaNode_identified h

end Methods

def nodes (d : Data) : List NodeInfo × List NodeInfo × UInt64 :=
  (d.dataNodes, d.metaNodes, d.maxNodeID)

theorem Identified.of_nodes_eq (h : d.Identified) (hn : d'.nodes = d.nodes) : d'.Identified := by
  simp only [nodes, Prod.mk.injEq] at hn
  rw [Identified, hn.left, hn.right.left, hn.right.right]
  exact h

theorem keeps_nodes_createShardGroup : Within (Keeps nodes) (createShardGroup I db policy ts) := by
  intro d
  rw [createShardGroup]
  split <;> rfl

theorem keeps_nodes_applyUpdateShardCommand :
    Within (Keeps nodes) (applyUpdateShardCommand shard owners status?) := by
  intro d
  have ⟨m, hm⟩ := final_applyUpdateShardCommand shard owners status? d
  rw [Keeps, hm]
  rfl

theorem dispatch_identified (hI : I.SortLaws) (h : d.Identified) (hk : d.KeepsIdentity I E cmd)
    (hm : dispatch I E cmd = .update m) : (final (m d)).Identified := by
  by_cases hc : cmd.OnNodes
  case neg =>
    exact final_dispatch hm hc h
      (fun _ _ h => h.of_nodes_eq <| keeps_onInflux (p := nodes) (fun _ _ => rfl) _)
      (fun _ _ _ _ => h.of_nodes_eq <| keeps_nodes_createShardGroup d)
      (fun _ _ => deleteDataNode_identified h)
      fun _ _ _ _ => h.of_nodes_eq <| keeps_nodes_applyUpdateShardCommand d
  cases cmd <;> simp only [Command.OnNodes] at hc
  all_goals simp only [dispatch, Effect.update.injEq] at hm
  case createNode =>
    split at hm <;> cases hm
    case h_2 hp =>
      exact applyCreateNodeCommand_identified h hI hk.left <|
        hk.right _ (by simp [hp, Except.toOption])
  all_goals subst hm
  case createMetaNode =>
    refine Frame.final_bind ?_ fun _ _ _ h => setClusterID_identified h
    rw [final_ignore]
    exact createMetaNode_identified h hI hk.left hk.right
  case setMetaNode =>
    refine Frame.final_bind ?_ fun _ _ _ h => setClusterID_identified h
    rw [final_ignore]
    exact setMetaNode_identified h hI hk.left hk.right
  case deleteMetaNode => exact applyDeleteMetaNodeCommand_identified h
  case createDataNode => exact applyCreateDataNodeCommand_identified h hI hk.left hk.right

theorem apply_identified (hI : I.SortLaws) (h : d.Identified) (hk : d.KeepsIdentity I E l.cmd)
    (ha : d.apply I E l = some (d', err)) : d'.Identified := by
  refine apply_preserves ha id h (fun hc => ?_) (fun hm he => ?_) fun _ _ _ => h
  · rwa [hc] at hk
  · have hi := dispatch_identified hI h hk hm
    rwa [he] at hi

end Data

namespace Store

theorem nodes_identified (hI : I.SortLaws)
    (h : Run (step I) (fun s i => ∀ s' ∈ s, s'.live.KeepsIdentity I i.1 i.2.cmd) (some init) (some s)) :
    s.live.Identified := by
  refine invariant_live h ?_ fun h hk ha => Data.apply_identified hI h hk ha
  rw [init, live_ofData]
  decide

theorem nodes_identified_two_machines :
    let s := after (.follower (.ascending 1) []) [
      .setMetaNode "h1" "t1" 5,
      .createDataNode "h1" "t1",
      .createDataNode "h2" "t2",
      .createMetaNode "h2" "t2" 5,
      .deleteMetaNode 1]
    s.live.metaNodes ≠ [] ∧ s.live.dataNodes ≠ [] ∧ s.live.Identified :=
  ⟨by decide +kernel, by decide +kernel, nodes_identified Influx.standard_sortLaws <|
    run_after (by decide +kernel) (by decide +kernel)⟩

theorem nodes_identified_mixed_up :
    let s := after (.follower (.ascending 1) []) [.setMetaNode "h1" "t1" 5, .createDataNode "h2" "t2"]
    ¬s.live.Identified := by
  decide +kernel

end Store
end Meta
