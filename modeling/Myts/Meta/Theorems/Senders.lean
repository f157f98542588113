import Myts.Meta.Senders
import Myts.Meta.Theorems.Owners

open List

namespace Meta

open Influx (Package RetentionPolicyInfo)
open Frame (Within Keeps final)

namespace Data

variable {d d' : Data} {I : Package} {E : Env} {l : Log}

section ReplicaN

def replicaNs (d : Data) : List Int :=
  d.data.policies.map (·.replicaN)

def ValidReplicaNs (d : Data) : Prop :=
  ∀ n ∈ d.replicaNs, 0 ≤ n

theorem replicaNs_eq (d : Data) :
    d.replicaNs = d.data.databases.flatMap fun db => db.retentionPolicies.map (·.replicaN) :=
  map_flatMap

theorem ignoresNodes_replicaNs : IgnoresNodes replicaNs :=
  fun _ _ _ _ _ => rfl

theorem keeps_replicaNs_createShardGroup :
    Within (Keeps replicaNs) (createShardGroup I db policy t) := by
  intro d
  rw [createShardGroup]
  split
  case h_3 i j g _ =>
    rw [Frame.final_ok, Keeps, replicaNs_eq, replicaNs_eq]
    refine Slice.flatMap_modify_eq fun db => ?_
    rw [map_eq_flatMap, map_eq_flatMap]
    exact Slice.flatMap_modify_eq fun rp => rfl
  all_goals rfl

theorem keeps_replicaNs_applyUpdateShardCommand :
    Within (Keeps replicaNs) (applyUpdateShardCommand shard owners status?) := by
  intro d
  have hu : (final (updateShard shard owners d)).replicaNs = d.replicaNs := by
    simp only [replicaNs_eq, updateShard, Frame.final_ok, flatMap_map, updateShard.onDatabase,
      map_map]
    rfl
  obtain ⟨m, hm⟩ := final_applyUpdateShardCommand shard owners status? d
  rw [Keeps, hm]
  exact hu

theorem keeps_replicaNs_deleteDataNode : Within (Keeps replicaNs) (deleteDataNode M node) := by
  intro d
  have hr : (eachGroup (deleteNodeFrom M node) d.data.databases d.shardStatus).value.map
      (fun db => db.retentionPolicies.map (·.replicaN))
      = d.data.databases.map fun db => db.retentionPolicies.map (·.replicaN) :=
    Slice.each_map_eq fun db s => Slice.each_map_eq fun rp s => rfl
  simp only [deleteDataNode]
  split
  case isTrue => rfl
  case isFalse =>
    split <;> simp only [Frame.final_ok, Frame.final_error, Keeps, replicaNs_eq, List.flatMap, hr]

theorem onInflux_validReplicaNs (hI : I.PolicyLaws) (h : d.ValidReplicaNs)
    (hn : ∀ n, op.SetsReplicaN n → 0 ≤ n) : (final (onInflux I op d)).ValidReplicaNs := by
  have hr : ∀ rp ∈ (I.run op d.data).1.policies, 0 ≤ rp.replicaN := fun rp hm => by
    rcases hI.replicaN_run hm with ⟨rp', hm', he⟩ | hs
    case inl => exact he ▸ h _ (mem_map_of_mem hm')
    case inr => exact hn _ hs
  rw [onInflux]
  split <;> rename_i hd <;> rw [hd] at hr <;> exact forall_mem_map.mpr hr

theorem unmarshal_validReplicaNs : (unmarshal I pb).ValidReplicaNs := by
  intro n hn
  simp only [replicaNs, Influx.Data.policies, unmarshal, mem_map, mem_flatMap] at hn
  obtain ⟨rp, ⟨_, ⟨db, _, rfl⟩, hr⟩, rfl⟩ := hn
  obtain ⟨rp', _, rfl⟩ := mem_map.mp hr
  exact Int.natCast_nonneg _

theorem ValidReplicaNs.of_keeps (h : d.ValidReplicaNs) (hk : Within (Keeps replicaNs) m) :
    (final (m d)).ValidReplicaNs := by
  intro n hn
  have hd : (final (m d)).replicaNs = d.replicaNs := hk d
  exact h n <| hd ▸ hn

theorem dispatch_validReplicaNs (hI : I.PolicyLaws) (h : d.ValidReplicaNs)
    (hm : dispatch I E cmd = .update m) : (final (m d)).ValidReplicaNs := by
  by_cases hc : cmd.OnNodes
  case pos => exact h.of_keeps <| within_nodes ignoresNodes_replicaNs.allowsNodes hm hc
  exact final_dispatch hm hc h (fun hr _ h => onInflux_validReplicaNs hI h hr.replicaN)
    (fun _ _ _ _ => h.of_keeps keeps_replicaNs_createShardGroup)
    (fun _ _ => h.of_keeps keeps_replicaNs_deleteDataNode)
    fun _ _ _ _ => h.of_keeps keeps_replicaNs_applyUpdateShardCommand

theorem apply_validReplicaNs (hI : I.PolicyLaws) (h : d.ValidReplicaNs)
    (ha : d.apply I E l = some (d', err)) : d'.ValidReplicaNs := by
  refine apply_preserves ha id h (fun _ => unmarshal_validReplicaNs) (fun hm he => ?_) fun _ _ _ => h
  have hv := dispatch_validReplicaNs hI h hm
  rwa [he] at hv

end ReplicaN

section Panicless

def Panicless (m : DataM Unit) (d : Data) : Prop :=
  ∀ d', m d ≠ .error .panic d'

theorem Panicless.bind {m m' : DataM Unit} (hm : Panicless m d)
    (hf : ∀ d', m d = .ok () d' → Panicless m' d') : Panicless (m >>= fun _ => m') d := by
  intro d' he
  cases h : m d
  case ok _ d₁ =>
    rw [Frame.bind_ok h] at he
    exact hf d₁ h d' he
  case error e d₁ =>
    rw [Frame.bind_error h] at he
    exact hm d' <| h.trans he

theorem panicless_onInflux : Panicless (onInflux I op) d := by
  intro d' he
  rw [onInflux] at he
  split at he <;> cases he

theorem panicless_createDataNode : Panicless (createDataNode I host tcpHost) d := by
  intro d' he
  rw [createDataNode] at he
  split at he <;> cases he

theorem panicless_setDataNode : Panicless (setDataNode node host tcpHost) d := by
  intro d' he
  rw [setDataNode] at he
  split at he <;> cases he

theorem panicless_createMetaNode : Panicless (createMetaNode I httpAddr tcpAddr) d := by
  intro d' he
  rw [createMetaNode] at he
  split at he <;> cases he

theorem panicless_setMetaNode : Panicless (setMetaNode I httpAddr tcpAddr) d := by
  intro d' he
  rw [setMetaNode] at he
  split at he
  case h_1 => exact panicless_createMetaNode d' he
  all_goals cases he

theorem panicless_deleteMetaNode : Panicless (deleteMetaNode node) d := by
  intro d' he
  simp only [deleteMetaNode] at he
  split at he
  case isTrue => cases he
  case isFalse => split at he <;> cases he

theorem panicless_setClusterID : Panicless (setClusterID rand) d :=
  nofun

theorem panicless_ignore (h : Panicless m d) : Panicless (ignore m) d := by
  intro d' he
  rw [ignore] at he
  split at he
  case h_1 hm => exact h _ hm
  all_goals cases he

theorem panicless_applyCreateDataNodeCommand :
    Panicless (applyCreateDataNodeCommand I httpAddr tcpAddr) d := by
  intro d' he
  rw [applyCreateDataNodeCommand] at he
  split at he
  case h_1 => exact panicless_setDataNode d' he
  case h_2 => exact panicless_ignore panicless_createDataNode d' he

theorem panicless_applyDeleteMetaNodeCommand : Panicless (applyDeleteMetaNodeCommand E node) d := by
  intro d' he
  rw [applyDeleteMetaNodeCommand] at he
  split at he
  case h_1 => cases he
  case h_2 =>
    split at he
    case h_3 => cases he
    all_goals exact panicless_deleteMetaNode d' he

theorem panicless_applyCreateDatabaseCommand :
    Panicless (applyCreateDatabaseCommand I autoCreate name rp) d := by
  refine .bind panicless_onInflux fun d _ d' he => ?_
  cases rp
  case none =>
    rw [applyCreateDatabaseCommand.createPolicy] at he
    split at he
    case isTrue => exact panicless_onInflux d' he
    case isFalse => cases he
  case some pb =>
    rw [applyCreateDatabaseCommand.createPolicy] at he
    split at he
    case h_1 => cases he
    case h_2 => exact panicless_onInflux d' he

theorem reassign_ne_panic (shards : List Influx.ShardInfo) :
    (ShardGroupInfo.reassign M group orphans freqs shards).2 ≠ some .panic := by
  induction orphans generalizing freqs shards
  case nil => exact nofun
  case cons orphan orphans hi =>
    rw [ShardGroupInfo.reassign]
    split
    case h_1 e he =>
      simp only [newShardOwner] at he
      split at he <;> cases he
      exact nofun
    case h_2 => exact hi _

theorem deleteNode_ne_panic : (ShardGroupInfo.deleteNode node M g).2 ≠ some .panic := by
  rw [ShardGroupInfo.deleteNode]
  split
  case isTrue => intro h; cases h
  case isFalse => exact reassign_ne_panic _

theorem panicless_deleteDataNode : Panicless (deleteDataNode M node) d := by
  intro d' he
  have hf := eachGroup_flat (deleteNodeFrom M node) d.data.databases d.shardStatus
  have hf := (congrArg (·.err) hf).trans Slice.each_separate_err
  simp only [deleteDataNode] at he
  split at he
  case isTrue => cases he
  case isFalse =>
    split at he <;> cases he
    case h_1 hr =>
      obtain ⟨g, _, hg⟩ := exists_of_findSome?_eq_some <| hf.symm.trans hr
      exact deleteNode_ne_panic hg

theorem replicaN_nonneg (h : 0 ≤ rpi.replicaN) : 0 ≤ d.replicaN rpi := by
  rw [replicaN]
  split
  case isTrue => omega
  case isFalse => split <;> omega

theorem groupToCreate_ne_panic (hI : I.PolicyLaws) (h : d.ValidReplicaNs) :
    d.groupToCreate I db policy t ≠ .error .panic := by
  intro he
  rw [groupToCreate] at he
  split at he
  case isTrue => cases he
  split at he
  case h_1 => cases he
  case h_2 => cases he
  case h_3 i j hr =>
    split at he
    case h_1 hp =>
      have hp' := hI.policy_isSome hr
      simp [hp] at hp'
    case h_2 rpi hp =>
      split at he
      case isTrue => cases he
      simp only at he
      split at he
      case isFalse => cases he
      case isTrue hn =>
        obtain ⟨db, hd, hj⟩ := Option.bind_eq_some_iff.mp hp
        have hm : rpi ∈ d.data.policies :=
          mem_flatMap.mpr ⟨db, mem_of_getElem? hd, mem_of_getElem? hj⟩
        have hr := replicaN_nonneg (d := d) (h _ <| mem_map_of_mem hm)
        exact absurd (Int.tdiv_nonneg (Int.natCast_nonneg _) hr) (not_le.mpr hn)

theorem panicless_createShardGroup (hI : I.PolicyLaws) (h : d.ValidReplicaNs) :
    Panicless (createShardGroup I db policy t) d := by
  intro d' he
  rw [createShardGroup] at he
  split at he <;> cases he
  case h_1 hg => exact groupToCreate_ne_panic hI h hg

theorem panicless_applyUpdateShardCommand_iff (hs : Command.Sent (.updateShard shard owners status?)) :
    Panicless (applyUpdateShardCommand shard owners status?) d
      ↔ ¬d.Panics (.updateShard shard owners status?) := by
  rw [Panicless, applyUpdateShardCommand_run]
  rcases status? with _ | ⟨node, status?⟩
  case none => exact iff_of_true nofun id
  case some =>
    obtain ⟨rfl, hn, rfl⟩ := hs
    obtain ⟨node, rfl⟩ := Option.isSome_iff_exists.mp hn
    rw [updateShard_nil, Frame.final_ok, Panics, status]
    cases hd : d.shardStatus
    case none => simp [applyUpdateShardCommand.setStatus, hd, Finmap.notMem_empty]
    case some m =>
      cases hl : m.lookup shard
      case none =>
        simp [applyUpdateShardCommand.setStatus, hd, hl, Finmap.lookup_eq_none.mp hl]
      case some =>
        simp [applyUpdateShardCommand.setStatus, hd, hl, Finmap.mem_of_lookup_eq_some hl]

theorem panicless_iff (hI : I.PolicyLaws) (h : d.ValidReplicaNs) (hs : cmd.Sent)
    (hm : dispatch I E cmd = .update m) : Panicless m d ↔ ¬d.Panics cmd := by
  cases cmd <;> simp only [dispatch, reduceCtorEq, Effect.update.injEq] at hm
  case createNode => exact hs.elim
  case updateRetentionPolicy makeDefault _ =>
    obtain ⟨b, hb⟩ := Option.isSome_iff_exists.mp hs.left
    simp only [applyUpdateRetentionPolicyCommand, hb] at hm
    subst hm
    exact iff_of_true panicless_onInflux id
  all_goals subst hm
  case updateShard => exact panicless_applyUpdateShardCommand_iff hs
  all_goals refine iff_of_true ?_ id
  case createDatabase => exact panicless_applyCreateDatabaseCommand
  case createShardGroup => exact panicless_createShardGroup hI h
  case deleteDataNode => exact panicless_deleteDataNode
  case createDataNode => exact panicless_applyCreateDataNodeCommand
  case deleteMetaNode => exact panicless_applyDeleteMetaNodeCommand
  case createMetaNode =>
    exact .bind (panicless_ignore panicless_createMetaNode) fun _ _ => panicless_setClusterID
  case setMetaNode =>
    exact .bind (panicless_ignore panicless_setMetaNode) fun _ _ => panicless_setClusterID
  all_goals exact panicless_onInflux

theorem isSome_apply_of_update (hm : dispatch I E l.cmd = .update m) :
    (d.apply I E l).isSome ↔ Panicless m d := by
  rw [apply, hm, Panicless]
  dsimp only
  split
  case h_1 h => simp [h]
  case h_2 h => simp [h]
  case h_3 hp h => simpa [h] using hp

theorem isSome_apply_iff (hI : I.PolicyLaws) (h : d.ValidReplicaNs) (hs : l.cmd.Sent) :
    (d.apply I E l).isSome ↔ ¬d.Panics l.cmd := by
  cases hd : dispatch I E l.cmd
  case update m => rw [isSome_apply_of_update hd, panicless_iff hI h hs hd]
  case keep =>
    cases hc : l.cmd <;> simp [hc, dispatch, Command.Sent] at hd hs
  case overwrite =>
    have hp : ¬d.Panics l.cmd := by
      cases hc : l.cmd <;> simp [hc, dispatch, Panics, Command.Sent] at hd hs ⊢
    exact iff_of_true (by simp [apply, hd]) hp
  case panic =>
    have hp : d.Panics l.cmd := by
      cases hc : l.cmd <;> simp [hc, dispatch, Panics, Command.Sent] at hd hs ⊢
    exact iff_of_false (by simp [apply, hd]) (not_not.mpr hp)

end Panicless

end Data

namespace Store

theorem next_validReplicaNs (hI : I.PolicyLaws) (h : ∀ s ∈ t, s.live.ValidReplicaNs) :
    ∀ s ∈ next I t e, s.live.ValidReplicaNs := by
  intro s' hs
  cases e
  case apply E l =>
    obtain ⟨s, err, rfl, ha⟩ := step_eq_some hs
    have ha : s.live.apply I E l = some (s'.live, err) := by
      rw [← live_apply, ha]
      rfl
    exact Data.apply_validReplicaNs hI (h s rfl) ha
  case restore o =>
    obtain ⟨s, rfl, hp⟩ := Option.bind_eq_some_iff.mp hs
    obtain ⟨pb, _, rfl⟩ := Option.map_eq_some_iff.mp hp
    rw [restore, live_overwrite]
    exact Data.unmarshal_validReplicaNs

theorem apply_survives_iff (hI : I.PolicyLaws) (h : Run (next I) SentOnly (some init) (some s))
    (hs : l.cmd.Sent) : (s.apply I E l).isSome ↔ ¬s.live.Panics l.cmd := by
  have hv := h.invariant (I := fun t => ∀ s ∈ t, s.live.ValidReplicaNs)
    (by rintro _ ⟨⟩; rw [init, live_ofData]; rintro _ ⟨⟩) fun ht _ => next_validReplicaNs hI ht
  rw [← Data.isSome_apply_iff hI (hv s rfl) hs, ← live_apply, Option.isSome_map]

theorem apply_survives_new_owner :
    let E := Env.follower (.ascending 1) []
    let s := after E (Command.threeShards ++ [.updateShard 1 [2] none])
    let l := { term := 1, index := 8, cmd := .updateShard 1 [] (some (some 2, some shardWriteRead)) }
    (s.apply .standard E l).isSome :=
  have h : Run (next .standard) SentOnly (some init) (some <|
      after (.follower (.ascending 1) []) (Command.threeShards ++ [.updateShard 1 [2] none])) :=
    .of_foldl_eq ((Log.ofCommands (Command.threeShards ++ [.updateShard 1 [2] none])).map
      (.apply (.follower (.ascending 1) []) ·)) (by decide +kernel) (by decide +kernel)
  (apply_survives_iff Influx.standard_policyLaws h (by decide)).mpr (by decide +kernel)

-- The command of `Client.DropShard` is not handled. The map of a shard whose owner is gone is not in
-- a snapshot, so that a state can not be set for the shard afterwards.
theorem apply_panics :
    let E := Env.follower (.ascending 1) []
    let s := next .standard (some <| after E [
      .createDataNode "h1" "t1",
      .createDatabase "db" (some Command.oneReplica),
      .createShardGroup "db" "rp" 0,
      .deleteDataNode 1]) (.restore { shards := [1], owners := fun _ => [] })
    let l := { term := 1, index := 7, cmd := .updateShard 1 [] (some (some 1, some shardWriteRead)) }
    (init.apply .standard E { term := 1, index := 2, cmd := .dropShard 1 }).isNone
      ∧ s.isSome ∧ (s.bind (·.apply .standard E l)).isNone := by
  decide +kernel

end Store
end Meta
