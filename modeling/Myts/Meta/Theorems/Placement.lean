import Myts.Meta.Placement
import Myts.Meta.Theorems.Rebalance

open List

namespace Meta

open ShardGroupInfo

open Influx (Package ShardInfo ShardGroupInfo)
open Frame (Within Keeps final)

namespace StatusMap

variable {m : StatusMap}

theorem lookup_foldl_set (l : List (UInt64 × UInt64)) (h : ∀ p ∈ l, p.1 ∈ m) (hm : (s, n) ∈ l) :
    ((l.foldl (fun m p => m.set p.1 p.2 v) m).lookup s).bind (·.lookup n) = some v := by
  induction l using List.reverseRecOn
  case nil => cases hm
  case append_singleton l p hi =>
    have hp : p.1 ∈ l.foldl (fun m p => m.set p.1 p.2 v) m :=
      (mem_foldl_set l).mpr <| h p <| by simp
    have ⟨owners, ho⟩ := Finmap.mem_iff.mp hp
    rw [foldl_append, foldl_cons, foldl_nil]
    by_cases he : p = (s, n)
    case pos =>
      subst he
      rw [set, lookup_modify_self, ho]
      simp
    case neg =>
      have hi := hi (fun p hp => h p <| mem_append_left _ hp) <|
        (mem_append.mp hm).resolve_right fun hm => he (mem_singleton.mp hm).symm
      by_cases hs : s = p.1
      case neg => rwa [set, lookup_modify_ne hs]
      case pos =>
        have hn : n ≠ p.2 := fun hn => he <| Prod.ext hs.symm hn.symm
        rw [hs, ho] at hi
        rw [hs, set, lookup_modify_self, ho]
        simpa [hn] using hi

end StatusMap

namespace Data

variable {d d' : Data} {I : Package} {E : Env} {l : Log}

section Places

theorem lookup_addStatus (hs : s ∈ shards) (hn : n ∈ ShardInfo.ownerIDs s) :
    ((addStatus m shards).lookup s.id).bind (·.lookup n) = some shardWriteRead := by
  rw [addStatus_eq]
  refine StatusMap.lookup_foldl_set _ (fun p hp => ?_) <| mem_ownerPairs.mpr ⟨s, hs, rfl, hn⟩
  have ⟨s', hs', he, _⟩ := mem_ownerPairs.mp hp
  rw [← Finmap.lookup_isSome, lookup_new, ← he, if_pos (mem_map_of_mem hs')]
  rfl

theorem mem_shardOwners {k n : UInt64}
    (h : n ∈ ShardInfo.ownerIDs { id := k, owners := d.shardOwners r i }) :
    ∃ j < r, n = d.dataNodes[(d.data.index.toNat % d.dataNodes.length + (i * r + j))
      % d.dataNodes.length]?.elim 0 (·.id) := by
  have ⟨o, ho, he⟩ := mem_map.mp h
  have ⟨j, hj, ho⟩ := mem_map.mp ho
  refine ⟨j, List.mem_range.mp hj, ?_⟩
  rw [← he, ← ho, Nat.add_assoc]

theorem apart_newShards (hn : d.dataNodes ≠ []) (hd : d.nodeIDs.Nodup)
    (hr : k * r ≤ d.dataNodes.length) : (d.newShards r k).Pairwise fun s s' =>
      (ShardInfo.ownerIDs s).Disjoint (ShardInfo.ownerIDs s') := by
  have hlt : ∀ i < k, ∀ j < r, i * r + j < d.dataNodes.length := by
    intro i hi j hj
    have := Nat.mul_le_mul_right r (Nat.succ_le_of_lt hi)
    rw [Nat.succ_mul] at this
    omega
  rw [newShards, pairwise_map]
  refine pairwise_lt_range.imp_of_mem fun {i i'} hi hi' hl n hm hm' => ?_
  obtain ⟨j, hj, he⟩ := mem_shardOwners hm
  obtain ⟨j', hj', he'⟩ := mem_shardOwners hm'
  have hp := node_inj hn hd (hlt i (List.mem_range.mp hi) j hj)
    (hlt i' (List.mem_range.mp hi') j' hj') (he.symm.trans he')
  have := Nat.mul_le_mul_right r (Nat.succ_le_of_lt hl)
  rw [Nat.succ_mul] at this
  omega

theorem length_newShards : (d.newShards r k).length = k := by
  simp [newShards]

theorem length_ownerIDs_newShards (h : s ∈ d.newShards r k) :
    (ShardInfo.ownerIDs s).length = r := by
  have ⟨c, hc⟩ := ownerIDs_newShards h
  simp [hc]

theorem places_addShardGroup (hI : I.SortLaws) (hn : d.dataNodes ≠ []) (hd : d.nodeIDs.Nodup)
    (hp : d.data.policy? i j = some rpi) (hr : r ≤ d.dataNodes.length)
    (hg : g.shards = d.newShards r (d.dataNodes.length / r)) :
    d.Places r g (d.addShardGroup I i j g) where
  groups := groups_addShardGroup hI hp
  shards := by rw [hg, length_newShards]
  owners s hs := by
    rw [hg] at hs
    exact ⟨length_ownerIDs_newShards hs, nodup_ownerIDs_newShards hn hd hr hs,
      ownerIDs_newShards_subset hn hs⟩
  apart := hg ▸ apart_newShards hn hd (Nat.div_mul_le_self _ _)
  status s hs n hm := by
    rw [status_addShardGroup]
    exact lookup_addStatus hs hm

theorem createShardGroup_eq (hn : d.dataNodes ≠ [])
    (hf : I.retentionPolicy d.data db policy = .ok (some (i, j)))
    (hp : d.data.policy? i j = some rpi) (ht : I.shardGroupByTimestamp rpi t = none) :
    createShardGroup I db policy t d =
      if (d.dataNodes.length : Int).tdiv (d.replicaN rpi) < 0 then
        .error .panic d
      else
        .ok () (d.addShardGroup I i j <| d.newShardGroup rpi t <| d.newShards
          (d.replicaN rpi).toNat ((d.dataNodes.length : Int).tdiv (d.replicaN rpi)).toNat) := by
  rw [createShardGroup, groupToCreate, if_neg hn, hf]
  dsimp only
  rw [hp]
  dsimp only
  rw [ht, if_neg (by simp)]
  by_cases hs : (d.dataNodes.length : Int).tdiv (d.replicaN rpi) < 0
  case pos => rw [if_pos hs, if_pos hs]
  case neg => rw [if_neg hs, if_neg hs]

theorem replicaN_eq (hn : d.dataNodes ≠ []) (hr : 0 ≤ rpi.replicaN) :
    d.replicaN rpi = max 1 (min rpi.replicaN d.dataNodes.length) := by
  have hl : 0 < d.dataNodes.length := length_pos_iff.mpr hn
  rw [replicaN]
  split
  case isTrue => omega
  case isFalse => split <;> omega

theorem shardN_nonpos (hr : rpi.replicaN < 0) :
    (d.dataNodes.length : Int).tdiv (d.replicaN rpi) ≤ 0 := by
  have hr' : d.replicaN rpi = rpi.replicaN := by
    rw [replicaN, if_neg (by omega), if_neg (by omega)]
  rw [hr']
  exact Int.tdiv_nonpos_of_nonneg_of_nonpos (Int.natCast_nonneg _) hr.le

theorem createShardGroup_places_iff (hI : I.SortLaws) (hn : d.dataNodes ≠ []) (hd : d.nodeIDs.Nodup)
    (hf : I.retentionPolicy d.data db policy = .ok (some (i, j)))
    (hp : d.data.policy? i j = some rpi) (ht : I.shardGroupByTimestamp rpi t = none) :
    (∃ g d', createShardGroup I db policy t d = .ok () d'
        ∧ d.Places (max 1 (min rpi.replicaN d.dataNodes.length)).toNat g d')
      ↔ 0 ≤ rpi.replicaN := by
  have hl : 0 < d.dataNodes.length := length_pos_iff.mpr hn
  rw [createShardGroup_eq hn hf hp ht]
  constructor
  case mp =>
    rintro ⟨g, d', hc, hg⟩
    by_contra! hr
    have hs := shardN_nonpos (d := d) hr
    split at hc
    case isTrue => cases hc
    case isFalse =>
      cases hc
      have he := (groups_addShardGroup hI hp).symm.trans hg.groups
      have he := singleton_perm_singleton.mp <| (perm_append_left_iff _).mp he
      have hl' := hg.shards
      rw [← he, newShardGroup, length_newShards, show max 1 (min rpi.replicaN
        (d.dataNodes.length : Int)) = 1 by omega, Int.toNat_one, Nat.div_one] at hl'
      omega
  case mpr =>
    intro hr
    have he := replicaN_eq hn hr
    have hs : (d.dataNodes.length : Int).tdiv (d.replicaN rpi)
        = (d.dataNodes.length / (d.replicaN rpi).toNat : Nat) := by
      rw [Int.natCast_ediv, Int.toNat_of_nonneg (by omega), Int.tdiv_eq_ediv_of_nonneg (by omega)]
    rw [hs, if_neg (not_lt.mpr <| Int.natCast_nonneg _), ← he]
    refine ⟨_, _, rfl, places_addShardGroup hI hn hd hp (by omega) ?_⟩
    rw [Int.toNat_natCast]
    rfl

end Places

section Counters

def idView (d : Data) : List (UInt64 × List UInt64) × UInt64 × UInt64 :=
  (d.data.groups.map fun g => (g.id, g.shards.map (·.id)), d.data.maxShardGroupID,
    d.data.maxShardID)

theorem groupIDs_eq : d.groupIDs = d.idView.1.map Prod.fst := by
  simp [groupIDs, idView, Function.comp_def]

theorem shardIDs_eq : d.shardIDs = d.idView.1.flatMap Prod.snd := by
  simp [shardIDs, idView, Influx.Data.shards, map_flatMap, flatMap_map]

structure Counts (d d' : Data) : Prop where
  groupID : d.data.maxShardGroupID ≤ d'.data.maxShardGroupID
  shardID : d.data.maxShardID ≤ d'.data.maxShardID
  counted : d.Counted → d'.Counted

theorem Counts.refl : Counts d d :=
  ⟨UInt64.le_refl _, UInt64.le_refl _, id⟩

theorem Counts.trans (h₁ : Counts d₁ d₂) (h₂ : Counts d₂ d₃) : Counts d₁ d₃ where
  groupID := UInt64.le_trans h₁.groupID h₂.groupID
  shardID := UInt64.le_trans h₁.shardID h₂.shardID
  counted := h₂.counted ∘ h₁.counted

theorem Counts.of_subset (hg : d'.groupIDs ⊆ d.groupIDs) (hs : d'.shardIDs ⊆ d.shardIDs)
    (hm : d'.data.maxShardGroupID = d.data.maxShardGroupID)
    (hm' : d'.data.maxShardID = d.data.maxShardID) : Counts d d' where
  groupID := hm ▸ UInt64.le_refl _
  shardID := hm' ▸ UInt64.le_refl _
  counted h := ⟨fun k hk => hm ▸ h.groups k (hg hk), fun k hk => hm' ▸ h.shards k (hs hk)⟩

theorem Counts.of_keeps (h : Keeps idView d d') : Counts d d' := by
  have hg : d'.groupIDs = d.groupIDs := by rw [groupIDs_eq, groupIDs_eq, h]
  have hs : d'.shardIDs = d.shardIDs := by rw [shardIDs_eq, shardIDs_eq, h]
  simp only [Keeps, idView, Prod.mk.injEq] at h
  exact .of_subset (hg ▸ List.Subset.refl _) (hs ▸ List.Subset.refl _) h.right.left h.right.right

theorem ignoresNodes_idView : IgnoresNodes idView :=
  fun _ _ _ _ _ => rfl

theorem counts_onInflux (hI : I.CounterLaws) (hb : ∀ gs, op.Brings gs → gs = []) :
    Counts d (final (onInflux I op d)) := by
  have hd : final (onInflux I op d) = { d with data := (I.run op d.data).1 } := by
    rw [onInflux]
    split <;> simp_all
  have hg : ∀ g ∈ (I.run op d.data).1.groups, ∃ g' ∈ d.data.groups,
      g'.id = g.id ∧ g'.shards = g.shards := fun g hm => by
    refine (hI.groups_run hm).resolve_right ?_
    rintro ⟨gs, hgs, hm⟩
    rw [hb gs hgs] at hm
    cases hm
  rw [hd]
  refine .of_subset (fun k hk => ?_) (fun k hk => ?_) (hI.maxShardGroupID_run _ _)
    (hI.maxShardID_run _ _)
  · obtain ⟨g, hm, he⟩ := mem_map.mp hk
    obtain ⟨g', hm', hi, _⟩ := hg g hm
    exact mem_map.mpr ⟨g', hm', hi.trans he⟩
  · obtain ⟨s, hm, he⟩ := mem_map.mp hk
    obtain ⟨g, hm, hs⟩ := mem_flatMap.mp hm
    obtain ⟨g', hm', _, hs'⟩ := hg g hm
    exact mem_map.mpr ⟨s, mem_flatMap.mpr ⟨g', hm', hs' ▸ hs⟩, he⟩

theorem ids_assign : (assign orphan owner shards).map (·.id)
    = shards.map (·.id) := by
  induction shards
  case nil => rfl
  case cons s l hi =>
    rw [assign]
    split
    case isTrue => rfl
    case isFalse => rw [map_cons, map_cons, hi]

theorem ids_reassign : (reassign M group orphans freqs shards).1.map (·.id)
    = shards.map (·.id) := by
  induction orphans generalizing freqs shards
  case nil => rfl
  case cons orphan orphans hi =>
    rw [reassign]
    split
    case h_1 => rfl
    case h_2 => rw [hi, ids_assign]

theorem ids_remaining : (remaining node g).map (·.id) = g.shards.map (·.id) := by
  simp [remaining, Function.comp_def]

theorem ids_deleteNode : (deleteNode node M g).1.id = g.id
    ∧ (deleteNode node M g).1.shards.map (·.id) = g.shards.map (·.id) := by
  rw [deleteNode]
  split
  case isTrue => exact ⟨rfl, ids_remaining⟩
  case isFalse => exact ⟨rfl, ids_reassign.trans ids_remaining⟩

theorem keeps_idView_deleteDataNode (hd : deleteDataNode M node d = .ok () d') :
    Keeps idView d d' := by
  obtain ⟨_, hn, rfl⟩ := deleteDataNode_eq_ok.mp hd
  rw [Keeps, idView, groups_withoutNode hn, map_map]
  refine congrArg (·, d.data.maxShardGroupID, d.data.maxShardID) ?_
  exact map_congr_left fun g _ => Prod.ext ids_deleteNode.left ids_deleteNode.right

theorem keeps_idView_updateShard : Within (Keeps idView) (updateShard shard owners) := by
  intro d
  rw [Keeps, idView, groups_updateShard, map_map]
  refine congrArg (·, d.data.maxShardGroupID, d.data.maxShardID) ?_
  refine map_congr_left fun g _ => Prod.ext rfl ?_
  simp [updateShard.onGroup, Function.comp_def]

theorem keeps_idView_applyUpdateShardCommand :
    Within (Keeps idView) (applyUpdateShardCommand shard owners status?) := by
  intro d
  have ⟨m, hm⟩ := final_applyUpdateShardCommand shard owners status? d
  rw [Keeps, hm]
  exact keeps_idView_updateShard d

theorem toNat_maxShardGroupID (h : d.HasShardIDs) :
    (d.data.maxShardGroupID + 1).toNat = d.data.maxShardGroupID.toNat + 1 := by
  have := h.left
  rw [UInt64.size] at this
  rw [UInt64.toNat_add, show (1 : UInt64).toNat = 1 from rfl]
  omega

theorem counts_createShardGroup (hI : I.SortLaws) (hi : d.HasShardIDs)
    (h : createShardGroup I db policy t d = .ok () d') : Counts d d' := by
  rw [createShardGroup] at h
  split at h <;> cases h
  case h_2 => exact .refl
  case h_3 i j g hg =>
    obtain ⟨hn, rpi, _, hp, _, hg⟩ := groupToCreate_ok hg
    have hs := shardN_le (d := d) (r := d.replicaN rpi)
    have hm := hi.right
    have hm := maxShardID_addShardGroup (I := I) (i := i) (j := j) (g := g) (by omega)
      (congrArg (·.shards) hg)
    have hm' : (d.addShardGroup I i j g).data.maxShardGroupID.toNat
        = d.data.maxShardGroupID.toNat + 1 := toNat_maxShardGroupID hi
    refine ⟨UInt64.le_iff_toNat_le.mpr (by omega), UInt64.le_iff_toNat_le.mpr (by omega),
      fun hc => ⟨fun k hk => ?_, fun k hk => ?_⟩⟩
    · have hk := ((groups_addShardGroup hI hp).map (·.id)).mem_iff.mp hk
      rw [map_append, mem_append] at hk
      rw [UInt64.le_iff_toNat_le, hm']
      rcases hk with hk | hk
      case inl => exact (UInt64.le_iff_toNat_le.mp <| hc.groups k hk).trans <| Nat.le_succ _
      case inr =>
        rw [mem_singleton.mp hk, hg]
        exact (toNat_maxShardGroupID hi).le
    · have hk := ((shards_addShardGroup hI hp).map (·.id)).mem_iff.mp hk
      rw [map_append, mem_append] at hk
      rw [UInt64.le_iff_toNat_le, hm]
      rcases hk with hk | hk
      case inl => exact (UInt64.le_iff_toNat_le.mp <| hc.shards k hk).trans <| Nat.le_add_right ..
      case inr =>
        obtain ⟨s, hs', he⟩ := mem_map.mp hk
        rw [hg] at hs'
        rw [← he]
        exact (newShards_id_bounds (by omega) hs').right

theorem counts_dispatch (hS : I.SortLaws) (hI : I.CounterLaws) (hk : d.KeepsCounters I cmd)
    (hm : dispatch I E cmd = .update m) (h : m d = .ok () d') : Counts d d' := by
  have hd : d' = final (m d) := by rw [h]; rfl
  rw [hd]
  by_cases hc : cmd.OnNodes
  case pos => exact .of_keeps (within_nodes ignoresNodes_idView.allowsNodes hm hc d)
  refine final_dispatch (J := Counts d) hm hc .refl (fun hr _ h => h.trans <| counts_onInflux hI <|
    hr.brings fun _ => hI.new_shardGroups) ?createShardGroup ?deleteDataNode
    fun _ _ _ _ => .of_keeps <| keeps_idView_applyUpdateShardCommand d
  case createShardGroup =>
    rintro _ _ _ rfl
    cases hm
    exact hd ▸ counts_createShardGroup hS hk h
  case deleteDataNode =>
    rintro _ rfl
    cases hm
    exact hd ▸ .of_keeps (keeps_idView_deleteDataNode h)

theorem counts_apply (hS : I.SortLaws) (hI : I.CounterLaws) (hk : d.KeepsCounters I l.cmd)
    (ha : d.apply I E l = some (d', err)) : Counts d d' := by
  refine apply_preserves (J := Counts d) ha (fun h => h.trans (.of_keeps rfl)) .refl (fun hc => ?_)
    (fun hm h => counts_dispatch hS hI hk hm h) fun _ _ _ => .of_keeps rfl
  rw [hc] at hk
  exact ⟨hk.right.left, hk.right.right, fun _ => hk.left⟩

end Counters
end Data

namespace Usage

variable {u : Usage}

structure Passed (u : Usage) (d : Data) : Prop where
  counted : d.Counted
  groups : ∀ k ∈ u.groupIDs, k ≤ d.data.maxShardGroupID
  shards : ∀ k ∈ u.shardIDs, k ≤ d.data.maxShardID

theorem passed_step (hS : I.SortLaws) (hI : I.CounterLaws) (h : ∀ s ∈ u.store, u.Passed s.live)
    (hk : u.KeepsCounters I i) : ∀ s ∈ (step I u i).store, (step I u i).Passed s.live := by
  intro s' hs
  have ⟨s, err, hu, ha⟩ := Store.step_eq_some hs
  have ha : s.live.apply I i.1 i.2 = some (s'.live, err) := by
    rw [← Store.live_apply, ha]
    rfl
  have hp := h s hu
  have hc := Data.counts_apply hS hI (hk s hu) ha
  have hn := hc.counted hp.counted
  refine ⟨hn, fun k hk => ?_, fun k hk => ?_⟩
  · simp only [step, show Store.step I u.store i = some s' from hs, mem_append] at hk
    rcases hk with hk | hk
    case inl => exact UInt64.le_trans (hp.groups k hk) hc.groupID
    case inr => exact hn.groups k hk
  · simp only [step, show Store.step I u.store i = some s' from hs, mem_append] at hk
    rcases hk with hk | hk
    case inl => exact UInt64.le_trans (hp.shards k hk) hc.shardID
    case inr => exact hn.shards k hk

theorem passed_of_run (hS : I.SortLaws) (hI : I.CounterLaws)
    (h : Run (step I) (KeepsCounters I) init u) (hs : s ∈ u.store) : u.Passed s.live := by
  refine h.invariant (I := fun u => ∀ s ∈ u.store, u.Passed s.live) ?_ ?_ s hs
  · rintro _ ⟨⟩
    rw [Store.init, Store.live_ofData]
    exact ⟨by decide, by simp [init], by simp [init]⟩
  · exact fun hp hk => passed_step hS hI hp hk

theorem Passed.fresh {d : Data} (hp : u.Passed d) (hS : I.SortLaws) (hi : d.HasShardIDs)
    (h : Data.createShardGroup I db policy t d = .ok () d')
    (hg : d'.data.groups.Perm (d.data.groups ++ [g])) : u.Fresh g := by
  rw [Data.createShardGroup] at h
  split at h <;> cases h
  case h_2 => exact absurd hg.length_eq <| by simp
  case h_3 i j g₀ hg₀ =>
    obtain ⟨hn, rpi, _, hp', _, he₀⟩ := Data.groupToCreate_ok hg₀
    have he := (Data.groups_addShardGroup hS hp').symm.trans hg
    have he := singleton_perm_singleton.mp <| (perm_append_left_iff _).mp he
    have hs := Data.shardN_le (d := d) (r := d.replicaN rpi)
    have hm := hi.right
    rw [← he, he₀]
    refine ⟨fun hk => ?_, fun s hs' hk => ?_, Data.nodup_newShards (by omega)⟩
    · have hl := UInt64.le_iff_toNat_le.mp <| hp.groups _ hk
      have := Data.toNat_maxShardGroupID hi
      simp only [Data.newShardGroup] at hl
      omega
    · have hl := UInt64.le_iff_toNat_le.mp <| hp.shards _ hk
      have := (Data.newShards_id_bounds (by omega) hs').left
      omega

end Usage

namespace Data

theorem createShardGroup_placed_iff (hS : I.SortLaws) (hI : I.CounterLaws) (db policy : String)
    (t : GoTime) :
    (∀ (d : Data) i j rpi, d.dataNodes ≠ [] → d.nodeIDs.Nodup →
      I.retentionPolicy d.data db policy = .ok (some (i, j)) → d.data.policy? i j = some rpi →
      I.shardGroupByTimestamp rpi t = none →
      ((∃ g d', createShardGroup I db policy t d = .ok () d'
          ∧ d.Places (max 1 (min rpi.replicaN d.dataNodes.length)).toNat g d')
        ↔ 0 ≤ rpi.replicaN))
    ∧ ∀ u s g d', Run (Usage.step I) (Usage.KeepsCounters I) .init u → s ∈ u.store →
      s.live.HasShardIDs → createShardGroup I db policy t s.live = .ok () d' →
      d'.data.groups.Perm (s.live.data.groups ++ [g]) → u.Fresh g := by
  refine ⟨fun d i j rpi hn hd hf hp ht => ?_, fun u s g d' hr hs hi hc hg => ?_⟩
  · exact createShardGroup_places_iff hS hn hd hf hp ht
  · exact (Usage.passed_of_run hS hI hr hs).fresh hS hi hc hg

theorem createShardGroup_placed_three_nodes :
    let is := (Log.ofCommands Command.threeShards).map (Env.follower (.ascending 1) [], ·)
    let u := is.foldl (Usage.step .standard) .init
    ∃ s ∈ u.store, ∃ g d', createShardGroup .standard "db" "rp" (.unix 6048000000000000) s.live
        = .ok () d' ∧ s.live.Places 1 g d' ∧ u.Fresh g := by
  intro is u
  have h := createShardGroup_placed_iff Influx.standard_sortLaws Influx.standard_counterLaws
    "db" "rp" (.unix 6048000000000000)
  have hr : Run (Usage.step .standard) (Usage.KeepsCounters .standard) .init u :=
    .foldl <| by decide +kernel
  let s := u.store.get <| by decide +kernel
  let rpi := (s.live.data.policy? 0 0).get <| by decide +kernel
  have hs : s ∈ u.store := Option.get_mem _
  have hf : Package.standard.retentionPolicy s.live.data "db" "rp" = .ok (some (0, 0)) := by
    decide +kernel
  have ⟨g, d', hc, hp⟩ := (h.left s.live 0 0 rpi (by decide +kernel) (by decide +kernel) hf
    (Option.some_get _).symm (by decide +kernel)).mpr (by decide +kernel)
  have h₁ : (max 1 (min rpi.replicaN s.live.dataNodes.length)).toNat = 1 := by decide +kernel
  rw [h₁] at hp
  exact ⟨s, hs, g, d', hc, hp, h.right u s g d' hr hs (by decide +kernel) hc hp.groups⟩

def oneNode : Data :=
  { Data.empty with
    data.databases := [{
      name := "db"
      defaultRetentionPolicy := "rp"
      continuousQueries := []
      retentionPolicies := [{
        name := "rp"
        replicaN := 1
        duration := 0
        shardGroupDuration := 1
        shardGroups := []
        subscriptions := [] }] }]
    dataNodes := [{ id := 1, host := "h", tcpHost := "t" }] }

-- Older metadata brings the counters back.
theorem createShardGroup_reuses_ids :
    let pb := Data.marshal .standard { shards := [], owners := fun _ => [] } oneNode
    let is := (Log.ofCommands (Command.threeShards ++ [.setData pb])).map
      (Env.follower (.ascending 1) [], ·)
    let u := is.foldl (Usage.step .standard) .init
    ∃ s ∈ u.store, ∃ g d', createShardGroup .standard "db" "rp" 0 s.live = .ok () d'
      ∧ d'.data.groups = [g] ∧ g.id ∈ u.groupIDs ∧ ¬u.Fresh g := by
  intro pb is u
  let s := u.store.get <| by decide +kernel
  have hg : (Frame.ok? (createShardGroup .standard "db" "rp" 0 s.live)).map
      (·.2.data.groups.map (·.id)) = some [1] := by
    decide +kernel
  cases hc : createShardGroup .standard "db" "rp" 0 s.live
  case error => simp [hc, Frame.ok?] at hg
  case ok d' =>
    simp only [hc, Frame.ok?, Option.map_some, Option.some.injEq, map_eq_singleton_iff] at hg
    have ⟨g, hd, hi⟩ := hg
    have hu : g.id ∈ u.groupIDs := hi ▸ by decide +kernel
    exact ⟨s, Option.get_mem _, g, d', hc, hd, hu, fun h => h.group hu⟩

end Data
end Meta
