import Myts.Meta.Rebalance
import Myts.Meta.Theorems.Owners

open List

namespace Meta

open ShardInfo

open Influx (Package ShardOwner ShardInfo ShardGroupInfo)
open Frame (final)

section Plan

theorem choose_eq (node : UInt64) (owners : List ShardOwner) (count index : Nat) :
    (choose node owners 1 count index []).1 = []
      ∨ (choose node owners 1 count index []).1 = [{ nodeID := node }]
        ∧ { nodeID := node } ∉ owners := by
  induction count generalizing index
  case zero => exact .inl rfl
  case succ count hi =>
    rw [choose]
    split
    case isTrue => exact hi _
    case isFalse h =>
      refine .inr ⟨by rw [choose]; rfl, fun hm => h ?_⟩
      exact any_eq_true.mpr ⟨_, hm, beq_self_eq_true node⟩

structure Planned (t : ShardRestoreTask) : Prop where
  nodup : (t.currentOwners ++ t.newOwners).Nodup
  length : t.currentOwners.length + t.newOwners.length ≤ defaultReplicaN

theorem planned_of_choose (hl : owners.length < defaultReplicaN) (hc : owners ≠ []) :
    Planned {
      shardID := shard
      currentOwners := owners
      newOwners := (choose node owners (defaultReplicaN - owners.length) 5 index []).1 } := by
  obtain ⟨o, rfl⟩ : ∃ o, owners = [o] := by
    have hp := length_pos_iff.mpr hc
    rw [defaultReplicaN] at hl
    exact length_eq_one_iff.mp <| by omega
  have he := choose_eq node [o] 5 index
  change Planned {
    shardID := shard, currentOwners := [o], newOwners := (choose node [o] 1 5 index []).1 }
  rcases he with he | ⟨he, hm⟩ <;> rw [he]
  case inl => exact ⟨by simp, Nat.le_succ 1⟩
  case inr => exact ⟨by simpa [eq_comm] using hm, le_rfl⟩

theorem planned_of_mem_needRebalance (d : Data) (h : t ∈ d.needRebalance)
    (hc : t.currentOwners ≠ []) : Planned t := by
  rw [Data.needRebalance] at h
  split at h
  case isTrue => cases h
  case isFalse =>
    generalize d.data.index.toNat % d.dataNodes.length = index at h
    generalize d.data.shards = shards at h
    induction shards generalizing index
    case nil => cases h
    case cons si shards hi =>
      rw [Data.needRebalance.go] at h
      split at h
      case isFalse => exact hi _ h
      case isTrue hl =>
        rcases mem_cons.mp h with rfl | h
        case inl => exact planned_of_choose hl hc
        case inr => exact hi _ h

def Entry.Planned : Entry → Prop
  | .addOwners t => Meta.Planned t
  | _ => True

theorem planned_of_mem_doRebalance (d : Data) : ∀ e ∈ doRebalance d.needRebalance, e.Planned := by
  intro e he
  obtain ⟨t, ht, he⟩ := mem_flatMap.mp he
  split at he
  case isTrue => cases he
  case isFalse hc =>
    rcases mem_cons.mp he with rfl | he
    case inl => exact planned_of_mem_needRebalance d ht hc
    case inr =>
      obtain ⟨o, _, rfl⟩ := mem_map.mp he
      trivial

end Plan

namespace ShardGroupInfo

theorem assign_eq_map {shards : List ShardInfo} (h : (shards.map (·.id)).Nodup) :
    assign orphan owner shards
      = shards.map fun s => if s.id = orphan then addOwner owner s else s := by
  induction shards
  case nil => rfl
  case cons s l hi =>
    obtain ⟨hn, hl⟩ := nodup_cons.mp h
    rw [assign, map_cons]
    split
    case isFalse => rw [hi hl]
    case isTrue he =>
      have hm : l.map (fun s => if s.id = orphan then addOwner owner s else s)
          = l.map id := map_congr_left fun s' hs => if_neg fun he' =>
        hn <| mem_map.mpr ⟨s', hs, he'.trans he.symm⟩
      rw [hm, map_id]

structure Proper (shards : List ShardInfo) : Prop where
  ids : (shards.map (·.id)).Nodup
  owners : ∀ s ∈ shards, (ownerIDs s).Nodup

instance : DecidablePred Proper := fun shards =>
  decidable_of_iff ((shards.map (·.id)).Nodup ∧ ∀ s ∈ shards, (ownerIDs s).Nodup)
    ⟨fun ⟨h₁, h₂⟩ => ⟨h₁, h₂⟩, fun ⟨h₁, h₂⟩ => ⟨h₁, h₂⟩⟩

theorem Proper.map {shards : List ShardInfo} {f : ShardInfo → ShardInfo} (h : Proper shards)
    (hi : ∀ s, (f s).id = s.id)
    (ho : ∀ s ∈ shards, (ownerIDs s).Nodup → (ownerIDs (f s)).Nodup) :
    Proper (shards.map f) where
  ids := by
    rw [map_map, show (·.id) ∘ f = (·.id) from funext hi]
    exact h.ids
  owners := forall_mem_map.mpr fun s hs => ho s hs <| h.owners s hs

theorem reassign_proper {orphans shards : List ShardInfo} (h : Proper shards)
    (hn : (orphans.map (·.id)).Nodup)
    (ho : ∀ o ∈ orphans, ∀ s ∈ shards, s.id = o.id → s.owners = []) :
    Proper (reassign M group orphans freqs shards).1 := by
  induction orphans generalizing freqs shards
  case nil => exact h
  case cons orphan orphans hi =>
    obtain ⟨hno, hn⟩ := nodup_cons.mp hn
    obtain ⟨ho₁, ho⟩ := forall_mem_cons.mp ho
    rw [reassign]
    split
    case h_1 => exact h
    case h_2 owner _ _ =>
      have hid : ∀ s : ShardInfo,
          (if s.id = orphan.id then addOwner owner s else s).id = s.id := fun s => by
        split <;> rfl
      rw [assign_eq_map h.ids]
      refine hi (h.map hid fun s hs hs' => ?_) hn fun o hm =>
        forall_mem_map.mpr fun s hs he => ?_
      · split
        case isFalse => exact hs'
        case isTrue he => simp [addOwner, ownerIDs, ho₁ s hs he]
      · rw [hid] at he
        rw [if_neg fun he' => hno <| mem_map.mpr ⟨o, hm, he.symm.trans he'⟩]
        exact ho o hm s hs he

theorem deleteNode_proper (h : Proper g.shards) : Proper (deleteNode node M g).1.shards := by
  have hr : Proper (remaining node g) := h.map (fun _ => relinquish_id)
    fun _ _ => nodup_ownerIDs_relinquish
  rw [deleteNode]
  split
  case isTrue => exact hr
  case isFalse =>
    refine reassign_proper hr (hr.ids.sublist <| filter_sublist.map _) fun o ho s hs he => ?_
    obtain ⟨ho, hemp⟩ := mem_filter.mp ho
    rw [inj_on_of_nodup_map hr.ids hs ho he]
    simpa using hemp

end ShardGroupInfo

namespace Data

variable {d d' : Data} {I : Package} {E : Env}

def Proper (d : Data) : Prop :=
  ∀ g ∈ d.data.groups, ShardGroupInfo.Proper g.shards

instance : DecidablePred Proper := fun _ => inferInstanceAs (Decidable (∀ _ ∈ _, _))

theorem groups_updateShard : (final (updateShard shard owners d)).data.groups
    = d.data.groups.map (updateShard.onGroup shard owners) := by
  simp only [updateShard, Frame.final_ok, Influx.Data.groups, Influx.DatabaseInfo.groups,
    map_flatMap, flatMap_map, updateShard.onDatabase, updateShard.onPolicy]

theorem updateShard_proper (h : d.Proper)
    (hu : ∀ s ∈ d.data.shards, s.id = shard → (ownerIDs s ++ owners).Nodup) :
    (final (updateShard shard owners d)).Proper := by
  rw [Proper, groups_updateShard]
  refine forall_mem_map.mpr fun g hg => ?_
  refine (h g hg).map (fun _ => onShard_id) fun s hs hn => ?_
  by_cases he : s.id = shard
  case neg => rwa [onShard_of_ne he]
  case pos =>
    rw [ownerIDs_onShard he]
    exact hu s (mem_flatMap.mpr ⟨g, hg, hs⟩) he

theorem applyUpdateShardCommand_proper (shard : UInt64) (owners : List UInt64)
    (status? : Option (Option UInt64 × Option ShardStatus)) (h : d.Proper)
    (hu : ∀ s ∈ d.data.shards, s.id = shard → (ownerIDs s ++ owners).Nodup) :
    (final (applyUpdateShardCommand shard owners status? d)).Proper := by
  have ⟨m, hm⟩ := final_applyUpdateShardCommand shard owners status? d
  rw [hm]
  exact updateShard_proper h hu

theorem deleteDataNode_proper (h : d.Proper) (hd : deleteDataNode M node d = .ok () d') :
    d'.Proper := by
  obtain ⟨_, hn, rfl⟩ := deleteDataNode_eq_ok.mp hd
  rw [Proper, groups_withoutNode hn]
  exact forall_mem_map.mpr fun g hg => ShardGroupInfo.deleteNode_proper <| h g hg

theorem ownerIDs_append (hu : Cluster.UpToDate d (.addOwners t)) (hs : s ∈ d.data.shards)
    (he : s.id = t.shardID) : ownerIDs s ++ t.newOwners.map (·.nodeID)
      = (t.currentOwners ++ t.newOwners).map (·.nodeID) := by
  rw [ownerIDs, hu s hs he, map_append]

theorem apply_proper {e : Entry} (h : d.Proper) (hp : e.Planned) (hu : Cluster.UpToDate d e)
    (ha : d.apply I E { term, index, cmd := e.cmd } = some (d', err)) : d'.Proper := by
  refine apply_preserves (J := Proper) ha (fun h => h) h (fun hc => ?_) (fun hm he => ?_)
    fun _ _ _ => h
  case refine_1 => cases e <;> cases hc
  case refine_2 =>
    cases e <;> cases hm
    case deleteDataNode => exact deleteDataNode_proper h he
    case addOwners t =>
      have hn : ((t.currentOwners ++ t.newOwners).map (·.nodeID)).Nodup :=
        hp.nodup.map fun ⟨_⟩ ⟨_⟩ he => congrArg ShardOwner.mk he
      have hd := applyUpdateShardCommand_proper t.shardID (t.newOwners.map (·.nodeID)) none h
        fun s hs hs' => ownerIDs_append hu hs hs' ▸ hn
      rwa [he] at hd
    case setStatus shard node =>
      have hn : ∀ s ∈ d.data.shards, s.id = shard → (ownerIDs s ++ []).Nodup := by
        intro s hs _
        obtain ⟨g, hg, hs⟩ := mem_flatMap.mp hs
        rw [append_nil]
        exact h g hg |>.owners s hs
      have hd := applyUpdateShardCommand_proper shard [] (some (some node, some shardWriteRead)) h hn
      rwa [he] at hd

theorem length_of_mem_givenBy {e : Entry} (hp : e.Planned) (hu : Cluster.UpToDate d e)
    (ha : d.apply I E { term, index, cmd := e.cmd } = some (d', err))
    (ho : os ∈ Cluster.givenBy e d') : os.length ≤ defaultReplicaN := by
  cases e <;> simp only [Cluster.givenBy, not_mem_nil] at ho
  case addOwners t =>
    split at ho
    case isTrue => cases ho
    case isFalse =>
      have hd : d'.data.shards
          = (final (updateShard t.shardID (t.newOwners.map (·.nodeID)) d)).data.shards := by
        simp only [apply, Entry.cmd, dispatch, applyUpdateShardCommand_run] at ha
        cases ha
        rfl
      obtain ⟨s', hs', rfl⟩ := mem_map.mp ho
      obtain ⟨hs', he⟩ := mem_filter.mp hs'
      rw [hd, shards_updateShard] at hs'
      obtain ⟨s, hs, rfl⟩ := mem_map.mp hs'
      have he : s.id = t.shardID := onShard_id.symm.trans <| of_decide_eq_true he
      rw [ownerIDs_onShard he, ownerIDs_append hu hs he, length_map,
        length_append]
      exact hp.length

end Data

namespace Cluster

variable {c c' : Cluster} {I : Package}

structure Sound (c : Cluster) : Prop where
  proper : c.data.Proper
  runs : ∀ run ∈ c.runs, ∀ e ∈ run, e.Planned
  log : ∀ e ∈ c.log, e.Planned
  given : ∀ os ∈ c.given, os.length ≤ defaultReplicaN

theorem Sound.skip (h : c.Sound) : ∀ r ∈ c.runs.modify run List.tail, ∀ e ∈ r, e.Planned := by
  intro r hr
  obtain ⟨i, hi⟩ := mem_iff_getElem?.mp hr
  rw [getElem?_modify] at hi
  obtain ⟨r', hr', rfl⟩ := Option.map_eq_some_iff.mp hi
  have hr' := h.runs r' <| mem_of_getElem? hr'
  split
  case isTrue => exact fun e he => hr' e <| mem_of_mem_tail he
  case isFalse => exact hr'

theorem commit_sound (h : c.Sound) (hu : ∀ e ∈ c.log.head?, UpToDate c.data e)
    (hc : c.commit I E term index = some c') : c'.Sound := by
  rw [commit] at hc
  split at hc
  case h_1 => exact Option.some.inj hc ▸ h
  case h_2 e l hl =>
    obtain ⟨⟨d, err⟩, ha, rfl⟩ := Option.map_eq_some_iff.mp hc
    have hlog : ∀ e' ∈ e :: l, e'.Planned := hl ▸ h.log
    obtain ⟨hp, hlog⟩ := forall_mem_cons.mp hlog
    have hu : UpToDate c.data e := hu e <| by rw [hl]; rfl
    exact {
      proper := Data.apply_proper h.proper hp hu ha
      runs := h.runs
      log := hlog
      given := forall_mem_append.mpr
        ⟨fun os ho => Data.length_of_mem_givenBy hp hu ha ho, h.given⟩ }

theorem step_sound {c : Option Cluster} (h : ∀ c' ∈ c, c'.Sound) (hi : InTime c e) :
    ∀ c' ∈ step I c e, c'.Sound := by
  intro c' hc
  obtain ⟨c, rfl, hc⟩ := Option.bind_eq_some_iff.mp hc
  have h := h c rfl
  cases e
  case commit => exact commit_sound h (hi c rfl) hc
  all_goals cases hc
  case skip => exact { h with runs := h.skip }
  case delete =>
    exact { h with
      log := forall_mem_append.mpr ⟨h.log, forall_mem_singleton.mpr trivial⟩ }
  case tick =>
    refine { h with runs := forall_mem_append.mpr ⟨h.runs, fun run hr => ?_⟩ }
    obtain ⟨d, _, rfl⟩ := Option.map_eq_some_iff.mp <| Option.mem_toList.mp hr
    exact planned_of_mem_doRebalance d
  case append =>
    refine { h with runs := h.skip, log := forall_mem_append.mpr ⟨h.log, fun e he => ?_⟩ }
    obtain ⟨r, hr, he⟩ := Option.bind_eq_some_iff.mp <| Option.mem_toList.mp he
    exact h.runs r (mem_of_getElem? hr) e <| mem_of_head? he

theorem rebalance_safe {d₀ : Data} (h₀ : d₀.Proper)
    (h : Run (step I) InTime (some (init d₀)) (some c)) :
    (∀ s ∈ c.data.data.shards, (ownerIDs s).Nodup)
      ∧ ∀ os ∈ c.given, os.length ≤ defaultReplicaN := by
  have hs := h.invariant (I := fun c => ∀ c' ∈ c, c'.Sound) ?_ step_sound
  case refine_1 =>
    rintro _ ⟨⟩
    exact { proper := h₀, runs := nofun, log := nofun, given := nofun }
  have hs := hs c rfl
  refine ⟨fun s hm => ?_, hs.given⟩
  obtain ⟨g, hg, hm⟩ := mem_flatMap.mp hm
  exact hs.proper g hg |>.owners s hm

theorem rebalance_safe_delete :
    let E := Env.follower (.ascending 1) []
    let d := (Store.after E Command.threeShards).live
    let c? := [.tick 0, .append 0, .append 0, .commit E 1 7, .commit E 1 8, .append 0, .delete 3,
      .commit E 1 9, .commit E 1 10].foldl (step .standard) (some (init d))
    c?.map (·.given) = some [[1, 2], [3, 1]] ∧ ∀ c ∈ c?,
      (∀ s ∈ c.data.data.shards, (ownerIDs s).Nodup)
        ∧ ∀ os ∈ c.given, os.length ≤ defaultReplicaN :=
  ⟨by decide +kernel, fun _ hc => rebalance_safe (by decide +kernel) <|
    .of_foldl_eq _ hc (by decide +kernel)⟩

-- The second tick comes before the commands of the first one have been applied.
theorem rebalance_twice :
    let E := Env.follower (.ascending 1) []
    let d := (Store.after E Command.threeShards).live
    ∃ c, [.tick 0, .tick 0, .append 0, .append 1, .commit E 1 7, .commit E 1 8].foldl
        (step .standard) (some (init d)) = some c
      ∧ (∃ s ∈ c.data.data.shards, ¬(ownerIDs s).Nodup)
      ∧ ∃ os ∈ c.given, defaultReplicaN < os.length := by
  refine ⟨_, Option.some_get (?_ : Option.isSome _ = true) |>.symm, ?_, ?_⟩ <;> decide +kernel

end Cluster

end Meta
