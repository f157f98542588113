import Myts.Lib.Frame
import Myts.Meta.Isolation

open List

namespace Meta

open Influx (Package ShardInfo ShardGroupInfo)
open Frame (Within Keeps final)

namespace StatusMap

variable {m : StatusMap}

@[simp]
theorem lookup_modify_self : (m.modify s f).lookup s = (m.lookup s).map f := by
  cases hs : m.lookup s <;> simp [modify, hs]

@[simp]
theorem lookup_modify_ne (h : s' ≠ s) : (m.modify s f).lookup s' = m.lookup s' := by
  cases hs : m.lookup s <;> simp [modify, hs, h]

@[simp]
theorem mem_modify : s' ∈ m.modify s f ↔ s' ∈ m := by
  rw [← Finmap.lookup_isSome, ← Finmap.lookup_isSome]
  by_cases hs : s' = s
  case pos => rw [hs, lookup_modify_self, Option.isSome_map]
  case neg => rw [lookup_modify_ne hs]

theorem modify_eq_self (h : ∀ owners ∈ m.lookup s, f owners = owners) : m.modify s f = m := by
  refine Finmap.ext_lookup fun s' => ?_
  by_cases hs : s' = s
  case neg => rw [lookup_modify_ne hs]
  case pos =>
    rw [hs, lookup_modify_self]
    cases ho : m.lookup s
    case none => rfl
    case some owners => rw [Option.map_some, h owners ho]

theorem has_set (h : s ∈ m) : (m.set s n v).Has s' n' ↔ m.Has s' n' ∨ s' = s ∧ n' = n := by
  have ⟨owners, ho⟩ := Finmap.mem_iff.mp h
  by_cases hs : s' = s
  case pos => subst hs; simp [Has, set, ho, or_comm]
  case neg => simp [Has, set, hs]

theorem has_delete : (m.delete s n).Has s' n' ↔ m.Has s' n' ∧ ¬(s' = s ∧ n' = n) := by
  by_cases hs : s' = s
  case pos => subst hs; cases ho : m.lookup s' <;> simp [Has, delete, ho, and_comm, Finmap.notMem_empty]
  case neg => simp [Has, delete, hs]

theorem delete_of_not_has (h : ¬m.Has s n) : m.delete s n = m := by
  refine modify_eq_self fun owners ho => Finmap.ext_lookup fun n' => ?_
  rw [Has, ho, Option.getD_some] at h
  by_cases hn : n' = n
  case pos => rw [hn, Finmap.lookup_erase, Finmap.lookup_eq_none.mpr h]
  case neg => rw [Finmap.lookup_erase_ne hn]

def deleteAll (m : StatusMap) (n : UInt64) (ss : List UInt64) : StatusMap :=
  ss.foldl (fun m s => m.delete s n) m

@[simp]
theorem mem_deleteAll : s' ∈ m.deleteAll n ss ↔ s' ∈ m := by
  induction ss generalizing m
  case nil => rfl
  case cons s ss hi => rw [deleteAll, foldl_cons, ← deleteAll, hi, delete, mem_modify]

theorem has_deleteAll : (m.deleteAll n ss).Has s' n' ↔ m.Has s' n' ∧ ¬(s' ∈ ss ∧ n' = n) := by
  induction ss generalizing m
  case nil => simp [deleteAll]
  case cons s ss hi =>
    rw [deleteAll, foldl_cons, ← deleteAll, hi, has_delete, mem_cons]
    tauto

theorem deleteAll_eq_self_iff : m.deleteAll n ss = m ↔ ∀ s ∈ ss, ¬m.Has s n where
  mp h s hs hm := by
    rw [← h, has_deleteAll] at hm
    exact hm.right ⟨hs, rfl⟩
  mpr h := by
    induction ss
    case nil => rfl
    case cons s ss hi =>
      obtain ⟨hs, hss⟩ := forall_mem_cons.mp h
      rw [deleteAll, foldl_cons, delete_of_not_has hs, ← deleteAll, hi hss]

def setAll (m : StatusMap) (s : UInt64) (ns : List UInt64) : StatusMap :=
  ns.foldl (fun m n => m.set s n shardWrite) m

@[simp]
theorem mem_setAll : s' ∈ m.setAll s ns ↔ s' ∈ m := by
  induction ns generalizing m
  case nil => rfl
  case cons n ns hi => rw [setAll, foldl_cons, ← setAll, hi, set, mem_modify]

theorem setAll_of_not_mem (h : s ∉ m) : m.setAll s ns = m := by
  have hs : ∀ n, m.set s n shardWrite = m :=
    fun n => modify_eq_self fun o ho => (h <| Finmap.mem_of_lookup_eq_some ho).elim
  induction ns
  case nil => rfl
  case cons n ns hi => rw [setAll, foldl_cons, hs, ← setAll, hi]

theorem has_setAll (h : s ∈ m) :
    (m.setAll s ns).Has s' n' ↔ m.Has s' n' ∨ s' = s ∧ n' ∈ ns := by
  induction ns generalizing m
  case nil => simp [setAll]
  case cons n ns hi =>
    have hs : s ∈ m.set s n shardWrite := by simpa [set] using h
    rw [setAll, foldl_cons, ← setAll, hi hs, has_set h, mem_cons]
    tauto

end StatusMap

namespace ShardGroupInfo

def ownedShards (node : UInt64) (g : ShardGroupInfo) : List UInt64 :=
  (g.shards.filter (ShardInfo.ownedBy node)).map (·.id)

theorem deleteStatus_some :
    deleteStatus node (some m) g = some (m.deleteAll node (ownedShards node g)) := by
  simp only [deleteStatus, StatusMap.deleteAll, ownedShards, foldl_map, foldl_filter,
    Option.map_some]

theorem foldl_deleteStatus_some (gs : List ShardGroupInfo) :
    gs.foldl (deleteStatus node) (some m)
      = some (m.deleteAll node (gs.flatMap (ownedShards node))) := by
  induction gs generalizing m
  case nil => rfl
  case cons g gs hi =>
    rw [foldl_cons, deleteStatus_some, hi, flatMap_cons]
    simp only [StatusMap.deleteAll, foldl_append]

theorem foldl_deleteStatus_none (gs : List ShardGroupInfo) :
    gs.foldl (deleteStatus node) none = none := by
  induction gs
  case nil => rfl
  case cons g gs hi => exact hi

end ShardGroupInfo

-- The commands that change the nodes, but do not remove a data node.
def Command.OnNodes : Command → Prop
  | .createNode .. | .createMetaNode .. | .setMetaNode .. | .deleteMetaNode _
  | .createDataNode .. => True
  | _ => False

namespace Data

variable {d : Data} {I : Package} {M : Machine}

theorem flatMap_groups (dbs : List Influx.DatabaseInfo) :
    dbs.flatMap Influx.DatabaseInfo.groups
      = (dbs.flatMap (·.retentionPolicies)).flatMap (·.shardGroups) := by
  rw [flatMap_assoc]
  rfl

theorem eachGroup_flat (f : ShardGroupInfo → σ → Slice.Loop ShardGroupInfo σ Error)
    (dbs : List Influx.DatabaseInfo) (s : σ) :
    (eachGroup f dbs s).map (·.flatMap Influx.DatabaseInfo.groups)
      = Slice.each f (dbs.flatMap Influx.DatabaseInfo.groups) s := by
  let g : Influx.RetentionPolicyInfo → σ → Slice.Loop Influx.RetentionPolicyInfo σ Error :=
    Slice.nested (·.shardGroups) withGroups f
  have h₁ : (eachGroup f dbs s).map (·.flatMap (·.retentionPolicies))
      = Slice.each g (dbs.flatMap (·.retentionPolicies)) s :=
    Slice.each_nested (fun _ _ => rfl) _ _
  have h₂ : (Slice.each g (dbs.flatMap (·.retentionPolicies)) s).map (·.flatMap (·.shardGroups))
      = Slice.each f ((dbs.flatMap (·.retentionPolicies)).flatMap (·.shardGroups)) s :=
    Slice.each_nested (fun _ _ => rfl) _ _
  rw [flatMap_groups, ← h₂, ← h₁]
  simp only [Slice.Loop.map, flatMap_groups]

section CreateShardGroup

theorem groupToCreate_ok (h : d.groupToCreate I db policy t = .ok (some (i, j, g))) :
    d.dataNodes ≠ [] ∧ ∃ rpi, I.retentionPolicy d.data db policy = .ok (some (i, j))
      ∧ d.data.policy? i j = some rpi ∧ I.shardGroupByTimestamp rpi t = none
      ∧ g = d.newShardGroup rpi t (d.newShards (d.replicaN rpi).toNat
        ((d.dataNodes.length : Int).tdiv (d.replicaN rpi)).toNat) := by
  rw [groupToCreate] at h
  split at h
  case isTrue => cases h
  case isFalse hn =>
    refine ⟨hn, ?_⟩
    split at h
    case h_1 => cases h
    case h_2 => cases h
    case h_3 i j hr =>
      split at h
      case h_1 => cases h
      case h_2 rpi hp =>
        split at h
        case isTrue => cases h
        case isFalse hs =>
          simp only at h
          split at h
          case isTrue => cases h
          case isFalse =>
            cases h
            exact ⟨rpi, hr, hp, Option.not_isSome_iff_eq_none.mp hs, rfl⟩

theorem groupToCreate_none (hn : d.dataNodes ≠ []) (h : d.groupToCreate I db policy t = .ok none) :
    ∃ i j rpi, I.retentionPolicy d.data db policy = .ok (some (i, j))
      ∧ d.data.policy? i j = some rpi ∧ (I.shardGroupByTimestamp rpi t).isSome := by
  rw [groupToCreate, if_neg hn] at h
  split at h
  case h_1 => cases h
  case h_2 => cases h
  case h_3 i j hr =>
    split at h
    case h_1 => cases h
    case h_2 rpi hp =>
      split at h
      case isTrue hs => exact ⟨i, j, rpi, hr, hp, hs⟩
      case isFalse =>
        simp only at h
        split at h <;> cases h

theorem groups_addShardGroup (hI : I.SortLaws) (h : d.data.policy? i j = some rpi) :
    (d.addShardGroup I i j g).data.groups.Perm (d.data.groups ++ [g]) := by
  obtain ⟨db, hd, hr⟩ := Option.bind_eq_some_iff.mp h
  refine Slice.flatMap_modify_perm hd ?_
  refine Slice.flatMap_modify_perm (h := (·.shardGroups)) hr ?_
  exact hI.groups_perm _

theorem shards_addShardGroup (hI : I.SortLaws) (h : d.data.policy? i j = some rpi) :
    (d.addShardGroup I i j g).data.shards.Perm (d.data.shards ++ g.shards) := by
  have hp := (groups_addShardGroup (g := g) hI h).flatMap_right (·.shards)
  simpa [Influx.Data.shards] using hp

theorem replicaN_le (h : d.dataNodes ≠ []) (rpi : Influx.RetentionPolicyInfo) :
    d.replicaN rpi ≤ d.dataNodes.length := by
  have hl : 0 < d.dataNodes.length := length_pos_iff.mpr h
  rw [replicaN]
  split
  case isTrue => omega
  case isFalse => split <;> omega

theorem shardN_le : ((d.dataNodes.length : Int).tdiv r).toNat ≤ d.dataNodes.length := by
  have ha : ((d.dataNodes.length : Int).tdiv r).natAbs = d.dataNodes.length / r.natAbs :=
    Int.natAbs_tdiv _ _
  have hl := Nat.div_le_self d.dataNodes.length r.natAbs
  omega

theorem mem_newShards (h : s ∈ d.newShards r n) :
    ∃ i < n, s.id = d.data.maxShardID + .ofNat (i + 1) ∧ s.owners = d.shardOwners r i := by
  obtain ⟨i, hi, rfl⟩ := mem_map.mp h
  exact ⟨i, List.mem_range.mp hi, rfl, rfl⟩

theorem toNat_newShards_id (h : d.data.maxShardID.toNat + n < UInt64.size) (hi : i < n) :
    (d.data.maxShardID + .ofNat (i + 1)).toNat = d.data.maxShardID.toNat + (i + 1) := by
  rw [UInt64.size] at h
  rw [UInt64.toNat_add, UInt64.toNat_ofNat']
  omega

theorem nodup_newShards (h : d.data.maxShardID.toNat + n < UInt64.size) :
    ((d.newShards r n).map (·.id)).Nodup := by
  rw [newShards, map_map]
  refine nodup_range.map_on fun i hi j hj he => ?_
  have he := congrArg UInt64.toNat he
  simp only [Function.comp_apply, toNat_newShards_id h (List.mem_range.mp hi),
    toNat_newShards_id h (List.mem_range.mp hj)] at he
  omega

end CreateShardGroup

section DeleteDataNode

theorem length_dataNodes_eq_iff :
    (d.dataNodes.filter (·.id ≠ node)).length = d.dataNodes.length ↔ d.dataNode node = none := by
  simp [dataNode]

theorem deleteDataNode_not_found (h : d.dataNode node = none) :
    deleteDataNode M node d = .error .nodeNotFound d := by
  rw [deleteDataNode, if_pos (length_dataNodes_eq_iff.mpr h)]

theorem shardStatus_deleteDataNode (h : (d.dataNode node).isSome) :
    (final (deleteDataNode M node d)).shardStatus
      = (d.visitedGroups M node).foldl (ShardGroupInfo.deleteStatus node) d.shardStatus := by
  have hn := length_dataNodes_eq_iff.not.mpr <| Option.isSome_iff_ne_none.mp h
  have hf := congrArg (·.state) <| eachGroup_flat (deleteNodeFrom M node) d.data.databases d.shardStatus
  simp only [Slice.Loop.map_state, deleteNodeFrom, Slice.each_separate_state] at hf
  simp only [deleteDataNode, if_neg hn]
  split <;> exact hf

def withoutNode (M : Machine) (node : UInt64) (d : Data) : Data :=
  let r := eachGroup (deleteNodeFrom M node) d.data.databases d.shardStatus
  { d with
    data := { d.data with databases := r.value }
    dataNodes := d.dataNodes.filter (·.id ≠ node)
    shardStatus := r.state }

theorem deleteDataNode_eq_ok : deleteDataNode M node d = .ok () d' ↔
    (d.dataNode node).isSome ∧ (∀ g ∈ d.data.groups, (ShardGroupInfo.deleteNode node M g).2 = none)
      ∧ d' = d.withoutNode M node := by
  have hf := eachGroup_flat (deleteNodeFrom M node) d.data.databases d.shardStatus
  have he : (eachGroup (deleteNodeFrom M node) d.data.databases d.shardStatus).err = none ↔
      ∀ g ∈ d.data.groups, (ShardGroupInfo.deleteNode node M g).2 = none := by
    rw [← findSome?_eq_none_iff]
    exact ((congrArg (·.err) hf).trans Slice.each_separate_err).congr_left
  by_cases hn : (d.dataNode node).isSome
  case neg =>
    rw [deleteDataNode_not_found <| Option.not_isSome_iff_eq_none.mp hn]
    exact iff_of_false nofun fun h => hn h.left
  case pos =>
    simp only [deleteDataNode, hn, ← he, true_and,
      if_neg (length_dataNodes_eq_iff.not.mpr <| Option.isSome_iff_ne_none.mp hn)]
    split
    case h_1 e h => simp [h]
    case h_2 h => simp [h, withoutNode, eq_comm]

theorem groups_withoutNode (h : ∀ g ∈ d.data.groups, (ShardGroupInfo.deleteNode node M g).2 = none) :
    (d.withoutNode M node).data.groups
      = d.data.groups.map fun g => (ShardGroupInfo.deleteNode node M g).1 := by
  have hf := eachGroup_flat (deleteNodeFrom M node) d.data.databases d.shardStatus
  exact (congrArg (·.value) hf).trans <| Slice.each_separate_value h

theorem losesStatus_iff :
    d.LosesStatus node g ↔ ∃ s ∈ ShardGroupInfo.ownedShards node g, d.HasStatus s node := by
  simp only [LosesStatus, ShardGroupInfo.ownedShards, mem_map, mem_filter]
  exact ⟨fun ⟨s, hs, ho, hh⟩ => ⟨s.id, ⟨s, ⟨hs, ho⟩, rfl⟩, hh⟩,
    fun ⟨_, ⟨s, ⟨hs, ho⟩, rfl⟩, hh⟩ => ⟨s, hs, ho, hh⟩⟩

theorem foldl_deleteStatus_eq_self_iff {gs : List ShardGroupInfo} :
    gs.foldl (ShardGroupInfo.deleteStatus node) d.shardStatus = d.shardStatus
      ↔ ¬∃ g ∈ gs, d.LosesStatus node g := by
  cases hs : d.shardStatus
  case none => simp [ShardGroupInfo.foldl_deleteStatus_none, losesStatus_iff, HasStatus, hs,
    StatusMap.Has, Finmap.notMem_empty]
  case some m =>
    rw [ShardGroupInfo.foldl_deleteStatus_some, Option.some.injEq, StatusMap.deleteAll_eq_self_iff]
    simp only [losesStatus_iff, HasStatus, hs, Option.getD_some, mem_flatMap]
    exact ⟨fun h ⟨g, hg, s, hm, hh⟩ => h s ⟨g, hg, hm⟩ hh,
      fun h s ⟨g, hg, hm⟩ hh => h ⟨g, hg, s, hm, hh⟩⟩

end DeleteDataNode

section UpdateShard

def addStates (m : StatusMap) (id : UInt64) (owners : List UInt64) (found : List ShardInfo) :
    StatusMap :=
  found.foldl (fun m _ => m.setAll id owners) m

theorem shardStatus_updateShard : (final (updateShard node owners d)).shardStatus
    = d.shardStatus.map (addStates · node owners (d.data.shards.filter (·.id = node))) :=
  rfl

@[simp]
theorem mem_addStates : s ∈ addStates m node owners found ↔ s ∈ m := by
  induction found generalizing m
  case nil => rfl
  case cons s found hi =>
    rw [addStates, foldl_cons, ← addStates, hi, StatusMap.mem_setAll]

theorem addStates_of_not_mem (h : node ∉ m) : addStates m node owners found = m := by
  induction found
  case nil => rfl
  case cons s found hi =>
    rw [addStates, foldl_cons, StatusMap.setAll_of_not_mem h, ← addStates, hi]

theorem has_addStates (h : node ∈ m) (hf : found ≠ []) :
    (addStates m node owners found).Has s n ↔ m.Has s n ∨ s = node ∧ n ∈ owners := by
  induction found generalizing m
  case nil => exact (hf rfl).elim
  case cons s found hi =>
    rw [addStates, foldl_cons, ← addStates]
    cases found
    case nil => exact StatusMap.has_setAll h
    case cons =>
      rw [hi (StatusMap.mem_setAll.mpr h) (by simp), StatusMap.has_setAll h]
      tauto

theorem addStates_nil : addStates m node [] found = m := by
  simp [addStates, StatusMap.setAll]

theorem updateShard_nil : updateShard node [] d = .ok () d := by
  have hs : updateShard.onShard node [] = id := by
    funext s
    simp [updateShard.onShard]
  have hg : updateShard.onGroup node [] = id := by
    funext g
    simp [updateShard.onGroup, hs]
  have hp : updateShard.onPolicy node [] = id := by
    funext rp
    simp [updateShard.onPolicy, hg]
  have hd : updateShard.onDatabase node [] = id := by
    funext db
    simp [updateShard.onDatabase, hp]
  have hm : d.shardStatus.map (addStates · node [] (d.data.shards.filter (·.id = node)))
      = d.shardStatus := by
    simp [addStates_nil]
  change EStateM.Result.ok () { d with
    data.databases := d.data.databases.map (updateShard.onDatabase node [])
    shardStatus := d.shardStatus.map (addStates · node [] _) } = _
  rw [hd, map_id, hm]

theorem applyUpdateShardCommand_run : applyUpdateShardCommand node owners status? d =
    applyUpdateShardCommand.setStatus node status? (final (updateShard node owners d)) := by
  have ha : applyUpdateShardCommand.addOwners node owners d = updateShard node owners d := by
    rw [applyUpdateShardCommand.addOwners]
    split
    case isTrue h => rw [h, updateShard_nil]; rfl
    case isFalse h => rfl
  exact Frame.bind_ok ha

theorem final_applyUpdateShardCommand (node : UInt64) (owners : List UInt64)
    (status? : Option (Option UInt64 × Option ShardStatus)) (d : Data) :
    ∃ m, final (applyUpdateShardCommand node owners status? d)
      = { final (updateShard node owners d) with shardStatus := m } := by
  rw [applyUpdateShardCommand_run]
  unfold applyUpdateShardCommand.setStatus
  split
  case h_2 => split <;> exact ⟨_, rfl⟩
  all_goals exact ⟨_, rfl⟩

end UpdateShard

theorem final_ignore : final (ignore m d) = final (m d) := by
  rw [ignore]
  split <;> simp [*]

theorem within_ignore (h : Within R m) : Within R (ignore m) := by
  intro d
  rw [final_ignore]
  exact h d

-- The methods that change nodes leave everything else alone.
section Nodes

-- A relation that holds if the nodes change, as long as no data node gets lost.
structure AllowsNodes (I : Package) (R : Data → Data → Prop) : Prop where
  metaNodes : ∀ d ms id, R d { d with metaNodes := ms, maxNodeID := id }
  dataNodes : ∀ d ns id, (I.SortLaws → d.dataNodes.map (·.id) ⊆ ns.map (·.id)) →
    R d { d with dataNodes := ns, maxNodeID := id }
  clusterID : ∀ d c, R d { d with data.clusterID := c }

section Allowed

variable {R : Data → Data → Prop} [Std.Refl R] (hR : AllowsNodes I R)

include hR

theorem within_createDataNode : Within R (createDataNode I host tcpHost) := by
  intro d
  rw [createDataNode]
  split
  case isTrue => exact refl_of R d
  case isFalse =>
    refine hR.dataNodes d _ _ fun hI => List.Subset.trans ?_ ((hI.nodes_perm _).map _).symm.subset
    rw [map_append]
    exact subset_append_left _ _

theorem within_setDataNode : Within R (setDataNode node host tcpHost) := by
  intro d
  rw [setDataNode]
  split
  case isTrue => exact refl_of R d
  case isFalse =>
    refine hR.dataNodes d _ _ fun _ => ?_
    rw [map_append]
    exact subset_append_left _ _

theorem within_createMetaNode : Within R (createMetaNode I httpAddr tcpAddr) := by
  intro d
  rw [createMetaNode]
  split
  case isTrue => exact refl_of R d
  case isFalse => exact hR.metaNodes d _ _

theorem within_setMetaNode : Within R (setMetaNode I httpAddr tcpAddr) := by
  intro d
  rw [setMetaNode]
  split
  case h_1 => exact within_createMetaNode hR d
  case h_2 => exact hR.metaNodes d _ _
  case h_3 => exact refl_of R d

theorem within_deleteMetaNode : Within R (deleteMetaNode node) := by
  intro d
  simp only [deleteMetaNode]
  split
  case isTrue => exact refl_of R d
  case isFalse =>
    split
    case isTrue => exact refl_of R d
    case isFalse => exact hR.metaNodes d _ _

theorem within_setClusterID : Within R (setClusterID rand) := by
  refine .modify fun d => ?_
  split
  case isTrue => exact hR.clusterID d _
  case isFalse => exact refl_of R d

variable [IsTrans Data R]

theorem within_applyCreateNodeCommand : Within R (applyCreateNodeCommand I host rand peers) := by
  refine .bind ?createMeta fun _ => .bind ?createData fun _ => within_setClusterID hR
  case createMeta =>
    rw [applyCreateNodeCommand.createMetaNode]
    split
    case isTrue => exact within_createMetaNode hR
    case isFalse => exact .pure ()
  case createData =>
    intro d
    rw [applyCreateNodeCommand.createDataNode]
    split
    case h_1 => exact within_setDataNode hR d
    case h_2 => exact within_createDataNode hR d

theorem within_nodes (hm : dispatch I E cmd = .update m) (hc : cmd.OnNodes) : Within R m := by
  cases cmd <;> simp only [Command.OnNodes] at hc
  all_goals simp only [dispatch, Effect.update.injEq] at hm
  case createNode =>
    split at hm <;> cases hm
    exact within_applyCreateNodeCommand hR
  all_goals subst hm
  case createMetaNode =>
    exact .bind (within_ignore <| within_createMetaNode hR) fun _ => within_setClusterID hR
  case setMetaNode =>
    exact .bind (within_ignore <| within_setMetaNode hR) fun _ => within_setClusterID hR
  case deleteMetaNode =>
    intro d
    rw [applyDeleteMetaNodeCommand]
    split
    case h_1 => exact refl_of R d
    case h_2 =>
      split
      case h_3 => exact refl_of R d
      all_goals exact within_deleteMetaNode hR d
  case createDataNode =>
    intro d
    rw [applyCreateDataNodeCommand]
    split
    case h_1 => exact within_setDataNode hR d
    case h_2 => exact within_ignore (within_createDataNode hR) d

end Allowed

def GrowsNodes (d d' : Data) : Prop :=
  d.dataNodes.map (·.id) ⊆ d'.dataNodes.map (·.id)

instance : Std.Refl GrowsNodes := ⟨fun _ => List.Subset.refl _⟩

instance : IsTrans Data GrowsNodes := ⟨fun _ _ _ => List.Subset.trans⟩

theorem allowsNodes_growsNodes (hI : I.SortLaws) : AllowsNodes I GrowsNodes where
  metaNodes _ _ _ := List.Subset.refl _
  dataNodes _ _ _ h := h hI
  clusterID _ _ := List.Subset.refl _

def IgnoresNodes (p : Data → β) : Prop :=
  ∀ d ms ns id c, p { d with
    metaNodes := ms, dataNodes := ns, maxNodeID := id, data.clusterID := c } = p d

theorem IgnoresNodes.allowsNodes {p : Data → β} (h : IgnoresNodes p) : AllowsNodes I (Keeps p) where
  metaNodes d ms id := h d ms _ id _
  dataNodes d ns id _ := h d _ ns id _
  clusterID d c := h d _ _ _ c

end Nodes

section Dispatch

-- The methods of the package that a command runs: a group of shards only comes from the default
-- policy, and a database or a policy is only dropped by its own command.
structure Runs (I : Package) (cmd : Command) (op : Influx.Op) : Prop where
  replicaN : ∀ n, op.SetsReplicaN n → 0 ≤ n
  brings : (∀ name, (I.newRetentionPolicyInfo name).shardGroups = []) →
    ∀ gs, op.Brings gs → gs = []
  dropDatabase : ∀ name, op = .dropDatabase name → cmd = .dropDatabase name
  dropRetentionPolicy : ∀ db name, op = .dropRetentionPolicy db name →
    cmd = .dropRetentionPolicy db name

theorem Runs.createRetentionPolicy {rpi : Influx.RetentionPolicyInfo} (hn : 0 ≤ rpi.replicaN)
    (hg : (∀ name, (I.newRetentionPolicyInfo name).shardGroups = []) → rpi.shardGroups = []) :
    Runs I cmd (.createRetentionPolicy db rpi makeDefault) where
  replicaN n h := by cases h; exact hn
  brings hI gs h := by cases h; exact hg hI
  dropDatabase := nofun
  dropRetentionPolicy := nofun

theorem final_applyCreateDatabaseCommand {J : Data → Prop} (h : J d)
    (hi : ∀ {op d}, Runs I cmd op → J d → J (final (onInflux I op d))) :
    J (final (applyCreateDatabaseCommand I autoCreate name rp d)) := by
  refine Frame.final_bind (hi ⟨nofun, fun _ => nofun, nofun, nofun⟩ h) fun _ d _ h => ?_
  cases rp
  case none =>
    rw [applyCreateDatabaseCommand.createPolicy]
    split
    case isTrue => exact hi (.createRetentionPolicy (by simp only; omega) fun hI => hI _) h
    case isFalse => exact h
  case some pb =>
    have hr : Runs I cmd (.createRetentionPolicy name (policyOfPb pb) true) :=
      .createRetentionPolicy (Int.natCast_nonneg _) fun _ => rfl
    have h' := hi hr h
    rw [applyCreateDatabaseCommand.createPolicy]
    split <;> simp_all [final]

theorem final_dispatch {J : Data → Prop} (hm : dispatch I E cmd = .update m) (hc : ¬cmd.OnNodes)
    (h : J d)
    (influx : ∀ {op d'}, Runs I cmd op → (d' = d ∨ ∃ name rp, cmd = .createDatabase name rp) →
      J d' → J (final (onInflux I op d')))
    (createShardGroup : ∀ db rp t, cmd = .createShardGroup db rp t →
      J (final (createShardGroup I db rp (.unix t) d)))
    (deleteDataNode : ∀ id, cmd = .deleteDataNode id → J (final (deleteDataNode E.toMachine id d)))
    (updateShard : ∀ id owners status, cmd = .updateShard id owners status →
      J (final (applyUpdateShardCommand id owners status d))) : J (final (m d)) := by
  have hi {op} (hr : Runs I cmd op) : J (final (onInflux I op d)) := influx hr (.inl rfl) h
  cases cmd <;> simp only [Command.OnNodes, not_true_eq_false] at hc
  all_goals simp only [dispatch, reduceCtorEq, Effect.update.injEq] at hm
  all_goals subst hm
  case createShardGroup => exact createShardGroup _ _ _ rfl
  case deleteDataNode => exact deleteDataNode _ rfl
  case updateShard => exact updateShard _ _ _ rfl
  case createDatabase name rp =>
    exact final_applyCreateDatabaseCommand h fun hr => influx hr (.inr ⟨name, rp, rfl⟩)
  case createRetentionPolicy => exact hi <| .createRetentionPolicy (Int.natCast_nonneg _) fun _ => rfl
  case updateRetentionPolicy makeDefault _ =>
    cases makeDefault
    case none => exact h
    case some =>
      refine hi ⟨fun n hs => ?_, fun _ => nofun, nofun, nofun⟩
      obtain ⟨r, _, rfl⟩ := Option.map_eq_some_iff.mp hs
      exact Int.natCast_nonneg _
  all_goals exact hi (by constructor <;> simp [Influx.Op.SetsReplicaN, Influx.Op.Brings])

end Dispatch

end Data
end Meta
