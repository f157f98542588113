import Myts.Meta.Owners
import Myts.Meta.Theorems.Nodes

open List

namespace Meta

open ShardInfo ShardGroupInfo

open Influx (Package ShardInfo ShardGroupInfo)
open Frame (Within Keeps final)

namespace ShardInfo

theorem keys_eq_iff {m : StatusMap} {s : ShardInfo} :
    ((m.lookup s.id).getD ∅).keys = (ownerIDs s).toFinset ↔ ∀ n, m.Has s.id n ↔ n ∈ ownerIDs s := by
  simp only [Finset.ext_iff, Finmap.mem_keys, mem_toFinset, StatusMap.Has]

theorem mem_ownerIDs_relinquish {s : ShardInfo} (h : (ownerIDs s).Nodup) :
    n ∈ ownerIDs (relinquish node s) ↔ n ∈ ownerIDs s ∧ n ≠ node := by
  rw [relinquish]
  cases hi : Slice.lastIdx? (·.nodeID == node) s.owners
  case none =>
    have hn := Slice.lastIdx?_eq_none.mp hi
    refine iff_self_and.mpr fun hm he => ?_
    obtain ⟨o, ho, rfl⟩ := mem_map.mp hm
    simpa [he] using hn o ho
  case some i =>
    obtain ⟨o, ho, hn⟩ := Slice.lastIdx?_eq_some hi
    obtain ⟨hl, rfl⟩ := List.getElem?_eq_some_iff.mp ho
    obtain rfl : s.owners[i].nodeID = node := by simpa using hn
    have hl' : i < (ownerIDs s).length := by simpa [ownerIDs] using hl
    have he : (ownerIDs s)[i] = s.owners[i].nodeID := by simp [ownerIDs]
    change n ∈ (s.owners.eraseIdx i).map _ ↔ _
    rw [← eraseIdx_map, ← ownerIDs, ← List.Nodup.erase_getElem h i hl', he, h.mem_erase_iff,
      and_comm]

theorem nodup_ownerIDs_relinquish {s : ShardInfo} (h : (ownerIDs s).Nodup) :
    (ownerIDs (relinquish node s)).Nodup := by
  rw [relinquish]
  split
  case h_1 => exact h
  case h_2 => exact h.sublist <| (eraseIdx_sublist _ _).map _

@[simp]
theorem relinquish_id : (relinquish node s).id = s.id := by
  rw [relinquish]
  split <;> rfl

theorem ownedBy_iff : ownedBy node s ↔ node ∈ ownerIDs s := by
  simp [ownedBy, ownerIDs]

theorem ownerIDs_onShard {s : ShardInfo} (h : s.id = shard) :
    ownerIDs (Data.updateShard.onShard shard owners s) = ownerIDs s ++ owners := by
  simp [Data.updateShard.onShard, h, ownerIDs, Function.comp_def]

theorem onShard_of_ne {s : ShardInfo} (h : s.id ≠ shard) :
    Data.updateShard.onShard shard owners s = s := by
  rw [Data.updateShard.onShard, if_neg h]

@[simp]
theorem onShard_id : (Data.updateShard.onShard shard owners s).id = s.id := by
  rw [Data.updateShard.onShard]
  split <;> rfl

end ShardInfo

namespace StatusMap

variable {m : StatusMap}

theorem mem_keys_subset_iff {l : List UInt64} : m.keys ⊆ l.toFinset ↔ ∀ s ∈ m, s ∈ l := by
  simp [Finset.subset_iff, Finmap.mem_keys]

theorem mem_foldl_set (l : List (UInt64 × UInt64)) :
    s' ∈ l.foldl (fun m p => m.set p.1 p.2 v) m ↔ s' ∈ m := by
  induction l generalizing m
  case nil => rfl
  case cons p l hi => rw [foldl_cons, hi, set, mem_modify]

theorem has_foldl_set (l : List (UInt64 × UInt64)) (h : ∀ p ∈ l, p.1 ∈ m) :
    (l.foldl (fun m p => m.set p.1 p.2 v) m).Has s n ↔ m.Has s n ∨ (s, n) ∈ l := by
  induction l generalizing m
  case nil => simp
  case cons p l hi =>
    obtain ⟨hp, hl⟩ := forall_mem_cons.mp h
    have hs : ∀ p' ∈ l, p'.1 ∈ m.set p.1 p.2 v := fun p' hp' => by simpa [set] using hl p' hp'
    rw [foldl_cons, hi hs, has_set hp, mem_cons, Prod.ext_iff]
    tauto

end StatusMap

namespace Data

def ownerPairs (shards : List ShardInfo) : List (UInt64 × UInt64) :=
  shards.flatMap fun s => s.owners.map fun o => (s.id, o.nodeID)

theorem mem_ownerPairs :
    (s, n) ∈ ownerPairs shards ↔ ∃ s' ∈ shards, s'.id = s ∧ n ∈ ownerIDs s' := by
  simp only [ownerPairs, ownerIDs, mem_flatMap, mem_map, Prod.mk.injEq]
  tauto

theorem addStatus_eq (m : StatusMap) (shards : List ShardInfo) :
    addStatus m shards = (ownerPairs shards).foldl (fun m p => m.set p.1 p.2 shardWriteRead)
      ((shards.map (·.id)).foldl (fun m k => m.insert k ∅) m) := by
  simp only [addStatus, ownerPairs, foldl_flatMap, foldl_map]

theorem lookup_new (m : StatusMap) (ids : List UInt64) :
    (ids.foldl (fun m k => m.insert k ∅) m).lookup s = if s ∈ ids then some ∅ else m.lookup s :=
  GoMap.lookup_foldl_insert (fun _ => ∅) ids m

theorem mem_addStatus :
    s ∈ addStatus m shards ↔ s ∈ shards.map (·.id) ∨ s ∈ m := by
  rw [addStatus_eq, StatusMap.mem_foldl_set, ← Finmap.lookup_isSome, lookup_new]
  split
  case isTrue h => simp [h]
  case isFalse h => simp [h, Finmap.lookup_isSome]

theorem has_addStatus : (addStatus m shards).Has s n ↔
    (s ∉ shards.map (·.id) ∧ m.Has s n)
      ∨ ∃ s' ∈ shards, s'.id = s ∧ n ∈ ownerIDs s' := by
  rw [addStatus_eq, StatusMap.has_foldl_set, mem_ownerPairs, StatusMap.Has, lookup_new]
  case h =>
    rintro ⟨s, n⟩ hp
    obtain ⟨s', hs', rfl, _⟩ := mem_ownerPairs.mp hp
    rw [← Finmap.lookup_isSome, lookup_new, if_pos (mem_map_of_mem hs')]
    rfl
  refine or_congr_left ?_
  split
  case isTrue h => simp [h, Finmap.notMem_empty]
  case isFalse h => simp [h, StatusMap.Has]

end Data

namespace Tracked

variable {shards : List ShardInfo} {m : StatusMap}

theorem has_iff (h : Tracked shards nodes m) (hs : s ∈ shards) (n : UInt64) :
    m.Has s.id n ↔ n ∈ ownerIDs s :=
  keys_eq_iff.mp (h.status s hs) n

theorem known_iff (h : Tracked shards nodes m) (hs : s ∈ m) : s ∈ shards.map (·.id) :=
  StatusMap.mem_keys_subset_iff.mp h.known s hs

theorem mono (h : Tracked shards nodes m) (hn : nodes ⊆ nodes') : Tracked shards nodes' m where
  nodup := h.nodup
  exist s hs := List.Subset.trans (h.exist s hs) hn
  status := h.status
  known := h.known

theorem perm (h : Tracked shards nodes m) (hp : shards'.Perm shards) : Tracked shards' nodes m where
  nodup s hs := h.nodup s <| hp.mem_iff.mp hs
  exist s hs := h.exist s <| hp.mem_iff.mp hs
  status s hs := h.status s <| hp.mem_iff.mp hs
  known := by
    rw [toFinset_eq_of_perm _ _ (hp.map _)]
    exact h.known

theorem removeNode (h : Tracked shards nodes m)
    (hm : ∀ n, n ∈ nodes' ↔ n ∈ nodes ∧ n ≠ node)
    (ho : ∀ s, s ∈ lost ↔ ∃ s' ∈ shards, s'.id = s ∧ node ∈ ownerIDs s') :
    Tracked (shards.map (relinquish node)) nodes' (m.deleteAll node lost) where
  nodup := forall_mem_map.mpr fun s hs => nodup_ownerIDs_relinquish <| h.nodup s hs
  exist := forall_mem_map.mpr fun s hs n hn => by
    rw [mem_ownerIDs_relinquish <| h.nodup s hs] at hn
    exact (hm n).mpr ⟨h.exist s hs hn.left, hn.right⟩
  status := forall_mem_map.mpr fun s hs => keys_eq_iff.mpr fun n => by
    rw [mem_ownerIDs_relinquish <| h.nodup s hs, relinquish_id,
      StatusMap.has_deleteAll, ho, h.has_iff hs]
    refine and_congr_right fun hn => ?_
    exact ⟨fun hc he => hc ⟨⟨s, hs, rfl, he ▸ hn⟩, he⟩, fun hc he => hc he.right⟩
  known := StatusMap.mem_keys_subset_iff.mpr fun s hs => by
    rw [map_map, show (·.id) ∘ relinquish node = (·.id) from
      funext fun _ => relinquish_id]
    exact h.known_iff <| StatusMap.mem_deleteAll.mp hs

theorem update (h : Tracked shards nodes m) (hm : ∀ s, s ∈ m' ↔ s ∈ m)
    (hs : ∀ s ∈ shards, s.id = shard → (ownerIDs s ++ owners).Nodup ∧ owners ⊆ nodes
      ∧ ∀ n, StatusMap.Has m' shard n ↔ m.Has shard n ∨ n ∈ owners)
    (hn : ∀ s n, s ≠ shard → (StatusMap.Has m' s n ↔ m.Has s n)) :
    Tracked (shards.map (Data.updateShard.onShard shard owners)) nodes m' where
  nodup := forall_mem_map.mpr fun s hm => by
    by_cases he : s.id = shard
    case neg => rw [onShard_of_ne he]; exact h.nodup s hm
    case pos => rw [ownerIDs_onShard he]; exact (hs s hm he).left
  exist := forall_mem_map.mpr fun s hm => by
    by_cases he : s.id = shard
    case neg => rw [onShard_of_ne he]; exact h.exist s hm
    case pos =>
      rw [ownerIDs_onShard he]
      exact append_subset.mpr ⟨h.exist s hm, (hs s hm he).right.left⟩
  status := forall_mem_map.mpr fun s hm => keys_eq_iff.mpr fun n => by
    rw [onShard_id]
    by_cases he : s.id = shard
    case neg => rw [onShard_of_ne he, hn s.id n he, h.has_iff hm]
    case pos =>
      rw [ownerIDs_onShard he, mem_append, ← h.has_iff hm, he]
      exact (hs s hm he).right.right n
  known := StatusMap.mem_keys_subset_iff.mpr fun s hs => by
    rw [map_map, show (·.id) ∘ Data.updateShard.onShard shard owners = (·.id) from
      funext fun _ => onShard_id]
    exact h.known_iff <| (hm s).mp hs

theorem congr (h : Tracked shards nodes m) (hm : ∀ s, s ∈ m' ↔ s ∈ m)
    (hh : ∀ s ∈ shards, ∀ n, StatusMap.Has m' s.id n ↔ m.Has s.id n) : Tracked shards nodes m' where
  nodup := h.nodup
  exist := h.exist
  status s hs := keys_eq_iff.mpr fun n => (hh s hs n).trans (h.has_iff hs n)
  known := StatusMap.mem_keys_subset_iff.mpr fun s hs => h.known_iff <| (hm s).mp hs

theorem add (h : Tracked shards nodes m) (hi : (new.map (·.id)).Nodup)
    (hf : ∀ s ∈ shards, s.id ∉ new.map (·.id)) (hn : ∀ s ∈ new, (ownerIDs s).Nodup)
    (he : ∀ s ∈ new, ownerIDs s ⊆ nodes) :
    Tracked (shards ++ new) nodes (Data.addStatus m new) where
  nodup := forall_mem_append.mpr ⟨h.nodup, hn⟩
  exist := forall_mem_append.mpr ⟨h.exist, he⟩
  status := forall_mem_append.mpr
    ⟨fun s hs => keys_eq_iff.mpr fun n => by
      rw [Data.has_addStatus, h.has_iff hs, or_iff_left, and_iff_right (hf s hs)]
      rintro ⟨s', hs', he, _⟩
      exact hf s hs <| he ▸ mem_map_of_mem hs',
    fun s hs => keys_eq_iff.mpr fun n => by
      rw [Data.has_addStatus, or_iff_right fun hc => hc.left <| mem_map_of_mem hs]
      refine ⟨fun ⟨s', hs', he, hn⟩ => ?_, fun hn => ⟨s, hs, rfl, hn⟩⟩
      exact inj_on_of_nodup_map hi hs' hs he ▸ hn⟩
  known := StatusMap.mem_keys_subset_iff.mpr fun s hs => by
    rw [map_append, mem_append]
    exact (Data.mem_addStatus.mp hs).symm.imp_left h.known_iff

end Tracked

namespace Data

variable {d d' : Data} {I : Package} {E : Env} {l : Log}

section CreateShardGroup

theorem getElem?_nodeIDs (h : d.dataNodes ≠ []) (k : Nat) :
    d.nodeIDs[k % d.dataNodes.length]?
      = some (d.dataNodes[k % d.dataNodes.length]?.elim 0 (·.id)) := by
  have hl : k % d.dataNodes.length < d.dataNodes.length :=
    Nat.mod_lt _ <| length_pos_iff.mpr h
  simp [nodeIDs, getElem?_eq_getElem hl]

theorem ownerIDs_newShards (h : s ∈ d.newShards r n) : ∃ c, ownerIDs s
    = (List.range r).map fun j => d.dataNodes[(c + j) % d.dataNodes.length]?.elim 0 (·.id) := by
  obtain ⟨i, _, _, ho⟩ := mem_newShards h
  refine ⟨d.data.index.toNat % d.dataNodes.length + i * r, ?_⟩
  rw [ownerIDs, ho, shardOwners, map_map]
  rfl

theorem node_inj (h : d.dataNodes ≠ []) (hd : d.nodeIDs.Nodup) (hi : i < d.dataNodes.length)
    (hj : j < d.dataNodes.length)
    (he : d.dataNodes[(c + i) % d.dataNodes.length]?.elim 0 (·.id)
      = d.dataNodes[(c + j) % d.dataNodes.length]?.elim 0 (·.id)) : i = j := by
  have he := congrArg some he
  rw [← getElem?_nodeIDs h, ← getElem?_nodeIDs h] at he
  have hl : (c + i) % d.dataNodes.length < d.nodeIDs.length := by
    simpa [nodeIDs] using Nat.mod_lt _ <| length_pos_iff.mpr h
  have hm : c + i ≡ c + j [MOD d.dataNodes.length] := (getElem?_inj hl hd).mp he
  exact (Nat.ModEq.add_left_cancel' c hm).eq_of_lt_of_lt hi hj

theorem nodup_ownerIDs_newShards (h : d.dataNodes ≠ []) (hd : d.nodeIDs.Nodup)
    (hr : r ≤ d.dataNodes.length) (hs : s ∈ d.newShards r n) : (ownerIDs s).Nodup := by
  obtain ⟨c, hc⟩ := ownerIDs_newShards hs
  rw [hc]
  exact nodup_range.map_on fun i hi j hj he => node_inj h hd
    ((List.mem_range.mp hi).trans_le hr) ((List.mem_range.mp hj).trans_le hr) he

theorem ownerIDs_newShards_subset (h : d.dataNodes ≠ []) (hs : s ∈ d.newShards r n) :
    ownerIDs s ⊆ d.nodeIDs := by
  obtain ⟨c, hc⟩ := ownerIDs_newShards hs
  intro o ho
  rw [hc] at ho
  obtain ⟨j, _, rfl⟩ := mem_map.mp ho
  exact mem_of_getElem? <| getElem?_nodeIDs h _

theorem status_addShardGroup : (d.addShardGroup I i j g).status = addStatus d.status g.shards := by
  simp only [status, addShardGroup]
  split
  case h_1 h => rw [h]; rfl
  case h_2 => rfl

theorem newShards_id_bounds (hm : d.data.maxShardID.toNat + n < UInt64.size)
    (hs : s ∈ d.newShards r n) :
    d.data.maxShardID.toNat < s.id.toNat ∧ s.id.toNat ≤ d.data.maxShardID.toNat + n := by
  have ⟨i, hi, he, _⟩ := mem_newShards hs
  rw [he, toNat_newShards_id hm hi]
  omega

theorem maxShardID_addShardGroup (hm : d.data.maxShardID.toNat + n < UInt64.size)
    (hg : g.shards = d.newShards r n) :
    (d.addShardGroup I i j g).data.maxShardID.toNat = d.data.maxShardID.toNat + n := by
  have hl : g.shards.length = n := by simp [hg, newShards]
  rw [UInt64.size] at hm
  rw [addShardGroup, UInt64.toNat_add, UInt64.toNat_ofNat', hl]
  omega

theorem addShardGroup_tracked (hI : I.SortLaws) (h : d.Tracked) (hn : d.dataNodes ≠ [])
    (hd : d.nodeIDs.Nodup) (hr : r ≤ d.dataNodes.length)
    (hm : d.data.maxShardID.toNat + n < UInt64.size) (hp : d.data.policy? i j = some rpi)
    (hg : g.shards = d.newShards r n) : (d.addShardGroup I i j g).Tracked := by
  have hs := shards_addShardGroup (g := g) hI hp
  rw [hg] at hs
  refine ⟨?_, fun s hs' => ?_⟩
  · refine .perm ?_ hs
    rw [status_addShardGroup, hg]
    refine h.tracked.add (nodup_newShards hm) (fun s hs' hc => ?_)
      (fun s => nodup_ownerIDs_newShards hn hd hr) fun s => ownerIDs_newShards_subset hn
    obtain ⟨s', hs'', he⟩ := mem_map.mp hc
    have := UInt64.le_iff_toNat_le.mp <| h.le_max s hs'
    have := (newShards_id_bounds hm hs'').left
    rw [he] at this
    omega
  · rw [UInt64.le_iff_toNat_le, maxShardID_addShardGroup hm hg]
    cases mem_append.mp <| hs.mem_iff.mp hs'
    case inl hs' => exact (UInt64.le_iff_toNat_le.mp <| h.le_max s hs').trans <| Nat.le_add_right ..
    case inr hs' => exact (newShards_id_bounds hm hs').right

theorem createShardGroup_tracked (hI : I.SortLaws) (h : d.Tracked) (hd : d.nodeIDs.Nodup)
    (hm : d.data.maxShardID.toNat + d.dataNodes.length < UInt64.size) :
    (final (createShardGroup I db policy t d)).Tracked := by
  rw [createShardGroup]
  split
  case h_1 => exact h
  case h_2 => exact h
  case h_3 i j g hg =>
    obtain ⟨hn, rpi, _, hp, _, rfl⟩ := groupToCreate_ok hg
    have hr := replicaN_le hn rpi
    have hs := shardN_le (d := d) (r := d.replicaN rpi)
    exact addShardGroup_tracked hI h hn hd (by omega) (by omega) hp rfl

end CreateShardGroup

section UpdateShard

theorem shards_updateShard : (final (updateShard shard owners d)).data.shards
    = d.data.shards.map (updateShard.onShard shard owners) := by
  simp only [updateShard, Frame.final_ok, Influx.Data.shards, Influx.Data.groups,
    Influx.DatabaseInfo.groups, map_flatMap, flatMap_map, updateShard.onDatabase,
    updateShard.onPolicy, updateShard.onGroup, flatMap_assoc]

theorem status_updateShard : (final (updateShard shard owners d)).status
    = addStates d.status shard owners (d.data.shards.filter (·.id = shard)) := by
  rw [status, shardStatus_updateShard, status]
  cases d.shardStatus
  case none => exact (addStates_of_not_mem Finmap.notMem_empty).symm
  case some => rfl

theorem has_status_updateShard (hu : ∀ s ∈ d.data.shards, s.id = shard → d.UpdatesOwners owners node s)
    (hs : s ∈ d.data.shards) (he : s.id = shard) :
    (final (updateShard shard owners d)).status.Has shard n ↔ d.status.Has shard n ∨ n ∈ owners := by
  rw [status_updateShard]
  by_cases ho : owners = []
  case pos => simp [ho, addStates_nil]
  case neg =>
    have hf : d.data.shards.filter (·.id = shard) ≠ [] :=
      List.ne_nil_of_mem <| mem_filter.mpr ⟨hs, by simpa using he⟩
    rw [has_addStates (he ▸ (hu s hs he).entry ho) hf]
    simp

theorem has_addStates_ne (h : s ≠ shard) :
    (addStates m shard owners found).Has s n ↔ m.Has s n := by
  by_cases hm : shard ∈ m
  case neg => rw [addStates_of_not_mem hm]
  case pos =>
    cases found
    case nil => rfl
    case cons => rw [has_addStates hm (by simp)]; simp [h]

theorem updateShard_tracked (h : d.Tracked)
    (hu : ∀ s ∈ d.data.shards, s.id = shard → d.UpdatesOwners owners node s) :
    (final (updateShard shard owners d)).Tracked where
  tracked := by
    rw [shards_updateShard]
    refine h.tracked.update ?_ (fun s hs he => ?_) fun s n hn => ?_
    · intro s
      rw [status_updateShard, mem_addStates]
    · exact ⟨(hu s hs he).nodup, (hu s hs he).exist, fun n => has_status_updateShard hu hs he⟩
    · rw [status_updateShard, has_addStates_ne hn]
  le_max := by
    rw [shards_updateShard]
    refine forall_mem_map.mpr fun s hs => ?_
    rw [onShard_id]
    exact h.le_max s hs

theorem set_tracked (h : d.Tracked) (hm : d.shardStatus = some m) (hs : shard ∈ m)
    (hn : ∀ s ∈ d.data.shards, s.id = shard → node ∈ ownerIDs s) :
    Tracked { d with shardStatus := some (m.set shard node v) } where
  tracked := by
    have hd : d.status = m := by rw [status, hm, Option.getD_some]
    refine h.tracked.congr (fun s => ?_) fun s hs' n => ?_
    · rw [hd, status, Option.getD_some, StatusMap.set, StatusMap.mem_modify]
    · rw [hd, status, Option.getD_some, StatusMap.has_set hs, ← hd, or_iff_left_iff_imp]
      rintro ⟨he, rfl⟩
      exact (h.tracked.has_iff hs' _).mpr <| hn s hs' he
  le_max := h.le_max

theorem applyUpdateShardCommand_tracked (h : d.Tracked)
    (hu : ∀ s ∈ d.data.shards, s.id = shard → d.UpdatesOwners owners (status?.bind Prod.fst) s) :
    (final (applyUpdateShardCommand shard owners status? d)).Tracked := by
  have ht := updateShard_tracked h hu
  rw [applyUpdateShardCommand_run]
  unfold applyUpdateShardCommand.setStatus
  split
  case h_1 => exact ht
  case h_2 node _ =>
    split
    case h_1 => exact ht
    case h_2 hl =>
      obtain ⟨m, hm, hl⟩ := Option.bind_eq_some_iff.mp hl
      rw [Frame.final_ok, hm]
      refine set_tracked ht hm (Finmap.mem_of_lookup_eq_some hl) ?_
      rw [shards_updateShard]
      refine forall_mem_map.mpr fun s hs he => ?_
      rw [onShard_id] at he
      rw [ownerIDs_onShard he]
      exact (hu s hs he).owner <| mem_singleton.mpr rfl
  case h_3 => exact ht

end UpdateShard

section DeleteDataNode

variable {M : Machine}

def NothingToReassign (node : UInt64) (g : ShardGroupInfo) : Prop :=
  AllOrphaned node g ∨ orphanedShards node g = []

theorem deleteNode_of_nothing (h : NothingToReassign node g) :
    (deleteNode node M g).2 = none
      ∧ (deleteNode node M g).1.shards = remaining node g := by
  rw [deleteNode]
  split
  case isTrue => exact ⟨rfl, rfl⟩
  case isFalse hn =>
    rw [h.resolve_left hn]
    exact ⟨rfl, rfl⟩

theorem flatMap_remaining (gs : List ShardGroupInfo) :
    gs.flatMap (remaining node)
      = (gs.flatMap (·.shards)).map (relinquish node) := by
  rw [map_flatMap]
  rfl

theorem shards_deleteDataNode (hn : (d.dataNode node).isSome)
    (h : ∀ g ∈ d.data.groups, NothingToReassign node g) :
    (final (deleteDataNode M node d)).data.shards
      = d.data.shards.map (relinquish node) := by
  have he g (hg : g ∈ d.data.groups) := (deleteNode_of_nothing (M := M) <| h g hg).left
  rw [deleteDataNode_eq_ok.mpr ⟨hn, he, rfl⟩, Frame.final_ok, Influx.Data.shards,
    groups_withoutNode he, flatMap_map, Influx.Data.shards, ← flatMap_remaining]
  exact flatMap_congr fun g hg => (deleteNode_of_nothing <| h g hg).right

theorem mem_flatMap_ownedShards : s ∈ d.data.groups.flatMap (ownedShards node)
    ↔ ∃ s' ∈ d.data.shards, s'.id = s ∧ node ∈ ownerIDs s' := by
  simp only [ownedShards, Influx.Data.shards, mem_flatMap, mem_map,
    mem_filter, ownedBy_iff]
  constructor
  case mp =>
    rintro ⟨g, hg, s', ⟨hs, ho⟩, he⟩
    exact ⟨s', ⟨g, hg, hs⟩, he, ho⟩
  case mpr =>
    rintro ⟨s', ⟨g, hg, hs⟩, he, ho⟩
    exact ⟨g, hg, s', ⟨hs, ho⟩, he⟩

theorem status_deleteDataNode (hn : (d.dataNode node).isSome)
    (h : ∀ g ∈ d.data.groups, NothingToReassign node g) :
    (final (deleteDataNode M node d)).status
      = d.status.deleteAll node (d.data.groups.flatMap (ownedShards node)) := by
  have hv : d.visitedGroups M node = d.data.groups :=
    Slice.visited_eq_self fun g hg => (deleteNode_of_nothing <| h g hg).left
  rw [status, shardStatus_deleteDataNode hn, hv, status]
  cases d.shardStatus
  case none =>
    rw [foldl_deleteStatus_none]
    exact (StatusMap.deleteAll_eq_self_iff.mpr fun s _ => Finmap.notMem_empty).symm
  case some => rw [foldl_deleteStatus_some]; rfl

theorem mem_nodeIDs_deleteDataNode (hn : (d.dataNode node).isSome) :
    n ∈ (final (deleteDataNode M node d)).nodeIDs ↔ n ∈ d.nodeIDs ∧ n ≠ node := by
  have hf : (final (deleteDataNode M node d)).dataNodes = d.dataNodes.filter (·.id ≠ node) := by
    simp only [deleteDataNode,
      if_neg (length_dataNodes_eq_iff.not.mpr <| Option.isSome_iff_ne_none.mp hn)]
    split <;> rfl
  rw [nodeIDs, hf, nodeIDs]
  simp only [mem_map, mem_filter, decide_eq_true_eq]
  constructor
  case mp =>
    rintro ⟨n', ⟨hm, hne⟩, he⟩
    exact ⟨⟨n', hm, he⟩, he ▸ hne⟩
  case mpr =>
    rintro ⟨⟨n', hm, he⟩, hne⟩
    exact ⟨n', ⟨hm, he ▸ hne⟩, he⟩

theorem deleteDataNode_tracked (h : d.Tracked) (hr : ∀ g ∈ d.data.groups, NothingToReassign node g) :
    (final (deleteDataNode M node d)).Tracked := by
  by_cases hn : (d.dataNode node).isSome
  case neg =>
    rw [deleteDataNode_not_found <| Option.not_isSome_iff_eq_none.mp hn]
    exact h
  case pos =>
    have hm : (final (deleteDataNode M node d)).data.maxShardID = d.data.maxShardID := by
      simp only [deleteDataNode]
      split
      case isTrue => rfl
      case isFalse => split <;> rfl
    refine ⟨?_, ?_⟩
    · rw [shards_deleteDataNode hn hr, status_deleteDataNode hn hr]
      exact h.tracked.removeNode (fun _ => mem_nodeIDs_deleteDataNode hn)
        fun _ => mem_flatMap_ownedShards
    · rw [shards_deleteDataNode hn hr, hm]
      refine forall_mem_map.mpr fun s hs => ?_
      rw [relinquish_id]
      exact h.le_max s hs

end DeleteDataNode

def shardView (d : Data) : List ShardInfo × UInt64 × Option StatusMap :=
  (d.data.shards, d.data.maxShardID, d.shardStatus)

theorem Tracked.of_shardView_eq (h : d.Tracked) (hs : d'.shardView = d.shardView)
    (hn : GrowsNodes d d') : d'.Tracked := by
  simp only [shardView, Prod.mk.injEq] at hs
  obtain ⟨hs, hm, ht⟩ := hs
  refine ⟨?_, ?_⟩
  · rw [hs, status, ht]
    exact h.tracked.mono hn
  · rw [hs, hm]
    exact h.le_max

theorem ignoresNodes_shardView : IgnoresNodes shardView :=
  fun _ _ _ _ _ => rfl

theorem onInflux_tracked (hI : I.ShardLaws) (h : d.Tracked) (hk : op.KeepsShards d.data) :
    (final (onInflux I op d)).Tracked := by
  have hs := hI.shards_run hk
  have hm : (I.run op d.data).1.maxShardID = d.data.maxShardID :=
    hI.maxShardID_run hk
  rw [onInflux]
  split <;> rename_i hr <;> rw [hr] at hs hm <;> dsimp only at hs hm <;>
    exact h.of_shardView_eq (by simp only [shardView, final, hs, hm]) (List.Subset.refl _)

theorem Runs.keepsShards (hI : I.ShardLaws) (hr : Runs I cmd op) (hk : d.KeepsOwners I cmd)
    (hd : d' = d ∨ ∃ name rp, cmd = .createDatabase name rp) : op.KeepsShards d'.data := by
  cases op
  case dropDatabase =>
    cases hr.dropDatabase _ rfl
    exact hd.resolve_right nofun ▸ hk
  case dropRetentionPolicy =>
    cases hr.dropRetentionPolicy _ _ rfl
    exact hd.resolve_right nofun ▸ hk
  case createRetentionPolicy => exact hr.brings (fun _ => hI.new_shardGroups) _ rfl
  all_goals trivial

theorem dispatch_tracked (hS : I.SortLaws) (hI : I.ShardLaws) (h : d.Tracked)
    (hk : d.KeepsOwners I cmd) (hm : dispatch I E cmd = .update m) : (final (m d)).Tracked := by
  by_cases hc : cmd.OnNodes
  case pos =>
    exact h.of_shardView_eq (within_nodes ignoresNodes_shardView.allowsNodes hm hc d)
      (within_nodes (allowsNodes_growsNodes hS) hm hc d)
  refine final_dispatch (J := Tracked) hm hc h
    (fun hr hd h => onInflux_tracked hI h (hr.keepsShards hI hk hd))
    ?createShardGroup ?deleteDataNode ?updateShard
  case createShardGroup =>
    rintro _ _ _ rfl
    exact createShardGroup_tracked hS h hk.left hk.right
  case deleteDataNode =>
    rintro _ rfl
    exact deleteDataNode_tracked h hk
  case updateShard =>
    rintro _ _ _ rfl
    exact applyUpdateShardCommand_tracked h hk

theorem deleteDataNode_ok (hn : (d.dataNode node).isSome)
    (hr : ∀ g ∈ d.data.groups, NothingToReassign node g) :
    deleteDataNode M node d ≠ .error e d' := by
  rw [deleteDataNode_eq_ok.mpr ⟨hn, fun g hg => (deleteNode_of_nothing <| hr g hg).left, rfl⟩]
  nofun

theorem not_leaks_of_keepsOwners (hk : d.KeepsOwners I cmd) (hm : dispatch I E cmd = .update m)
    (he : m d = .error e d') : ¬d.Leaks E cmd := by
  intro hl
  cases cmd <;> simp only [Leaks] at hl
  simp only [dispatch, Effect.update.injEq] at hm
  subst hm
  exact deleteDataNode_ok hl.left hk he

theorem apply_tracked (hS : I.SortLaws) (hI : I.ShardLaws) (h : d.Tracked)
    (hk : d.KeepsOwners I l.cmd) (ha : d.apply I E l = some (d', err)) : d'.Tracked := by
  refine apply_preserves ha (fun h => h.of_shardView_eq rfl (List.Subset.refl _)) h (fun hc => ?_)
    (fun hm he => ?_) fun hm he hp => ?_
  · rwa [hc] at hk
  · have ht := dispatch_tracked hS hI h hk hm
    rwa [he] at ht
  · rw [(leaked_eq_self_iff hm he hp).mpr <| not_leaks_of_keepsOwners hk hm he]
    exact h

theorem Tracked.consistent (h : d.Tracked) : d.Consistent := by
  have hs : d.liveShards ⊆ d.data.shards := fun s hs =>
    have ⟨g, hg, hm⟩ := mem_flatMap.mp hs
    mem_flatMap.mpr ⟨g, mem_of_mem_filter hg, hm⟩
  exact {
    nodup s hm := h.tracked.nodup s (hs hm)
    exist s hm := h.tracked.exist s (hs hm)
    status s hm := h.tracked.status s (hs hm)
    known := h.tracked.known }

end Data

namespace Store

theorem owners_consistent (hS : I.SortLaws) (hI : I.ShardLaws)
    (h : Run (step I) (fun s i => ∀ s' ∈ s, s'.live.KeepsOwners I i.2.cmd) (some init) (some s)) :
    s.live.Consistent := by
  refine (invariant_live h (J := Data.Tracked) ?_ fun h hk ha =>
    Data.apply_tracked hS hI h hk ha).consistent
  rw [init, live_ofData]
  decide

theorem owners_consistent_new_owner :
    let s := after (.follower (.ascending 1) []) (Command.threeShards ++ [
      .updateShard 1 [2] none,
      .updateShard 1 [] (some (some 2, some shardWriteRead)),
      .updateShard 2 [2] none,
      .deleteDataNode 1])
    s.live.data.shards ≠ [] ∧ s.live.Consistent :=
  ⟨by decide +kernel, owners_consistent Influx.standard_sortLaws Influx.standard_shardLaws <|
    run_after (by decide +kernel) (by decide +kernel)⟩

-- The shard that is reassigned to another node has no state for this node.
theorem owners_inconsistent_after_reassign :
    let s := after (.follower (.ascending 1) []) (Command.threeShards ++ [.deleteDataNode 1])
    ¬s.live.Consistent := by
  decide +kernel

end Store
end Meta
