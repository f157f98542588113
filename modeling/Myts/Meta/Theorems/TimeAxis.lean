import Myts.Meta.TimeAxis
import Myts.Meta.Theorems.Data
import Myts.Meta.Theorems.Marshal
import Myts.Meta.Theorems.Standard

namespace Meta

open RetentionPolicyInfo GoTime

open Influx (Package ShardGroupInfo RetentionPolicyInfo)
open Frame (final)

structure Aligned (d : Int) (gs : List ShardGroupInfo) : Prop where
  untruncated : ∀ g ∈ gs, ¬g.Truncated
  dvd : ∀ g ∈ gs, d ∣ g.startTime
  span : ∀ g ∈ gs, g.endTime = g.startTime + d
  sorted : gs.Pairwise fun g h => g.endTime ≤ h.endTime
  distinct : gs.Pairwise fun g h => ¬g.Deleted → ¬h.Deleted → g.startTime ≠ h.startTime

structure Marked (now : GoTime) (g g' : ShardGroupInfo) : Prop where
  startTime : g'.startTime = g.startTime
  endTime : g'.endTime = g.endTime
  truncatedAt : g'.truncatedAt = g.truncatedAt
  deletedAt : g'.deletedAt = g.deletedAt ∨ g'.deletedAt = now

theorem Marked.not_deleted (h : Marked now g g') (hn : now ≠ zero) (hd : ¬g'.Deleted) :
    ¬g.Deleted := by
  rw [ShardGroupInfo.Deleted, not_not] at hd ⊢
  rcases h.deletedAt with he | he
  case inl => exact he ▸ hd
  case inr => exact (hn <| he ▸ hd).elim

namespace Aligned

variable {gs : List ShardGroupInfo}

theorem nil : Aligned d [] where
  untruncated := nofun
  dvd := nofun
  span := nofun
  sorted := .nil
  distinct := .nil

theorem marked (h : Aligned d gs) (hn : now ≠ zero) (hm : List.Forall₂ (Marked now) gs gs') :
    Aligned d gs' where
  untruncated g' hg := by
    obtain ⟨g, hg, hm⟩ := Slice.exists_of_forall₂ hm hg
    rw [ShardGroupInfo.Truncated, hm.truncatedAt]
    exact h.untruncated g hg
  dvd g' hg := by
    obtain ⟨g, hg, hm⟩ := Slice.exists_of_forall₂ hm hg
    exact hm.startTime ▸ h.dvd g hg
  span g' hg := by
    obtain ⟨g, hg, hm⟩ := Slice.exists_of_forall₂ hm hg
    rw [hm.startTime, hm.endTime]
    exact h.span g hg
  sorted := Slice.pairwise_of_forall₂ hm h.sorted fun ha hb hs => by
    rwa [ha.endTime, hb.endTime]
  distinct := Slice.pairwise_of_forall₂ hm h.distinct fun ha hb hs hda hdb => by
    rw [ha.startTime, hb.startTime]
    exact hs (ha.not_deleted hn hda) (hb.not_deleted hn hdb)

theorem create {I : Package} (hS : I.SortLaws) (hI : I.GroupLaws) (h : Aligned d gs) (hd : 0 < d)
    (ha : ∀ g ∈ gs, ¬g.Accepts t) (hs : g.startTime = t.truncate d)
    (he : g.endTime = g.startTime + d) (ht : ¬g.Truncated) :
    Aligned d (I.sortShardGroupInfos (gs ++ [g])) := by
  have hp := hS.groups_perm (gs ++ [g])
  have hu : ∀ h ∈ gs ++ [g], ¬h.Truncated :=
    List.forall_mem_append.mpr ⟨h.untruncated, by simpa using ht⟩
  exact {
    untruncated h hm := hu h <| hp.mem_iff.mp hm
    dvd g' hm := by
      refine List.forall_mem_append.mpr ⟨h.dvd, ?_⟩ g' (hp.mem_iff.mp hm)
      simpa [hs] using dvd_truncate hd t
    span g' hm := by
      refine List.forall_mem_append.mpr ⟨h.span, ?_⟩ g' (hp.mem_iff.mp hm)
      simpa using he
    sorted := (hI.sorted hu).imp fun hl => hl.elim le_of_lt fun hl => le_of_eq hl.left
    distinct := by
      refine (hp.pairwise_iff fun hs hb ha he => hs ha hb he.symm).mpr ?_
      refine List.pairwise_append.mpr ⟨h.distinct, List.pairwise_singleton _ _, ?_⟩
      intro g' hg' _ hg hd' _ hst
      obtain rfl := List.mem_singleton.mp hg
      -- The other group would have accepted the time.
      refine ha g' hg' ⟨⟨?_, ?_⟩, hd', fun hc => (h.untruncated g' hg' hc).elim⟩
      · rw [hst, hs]; exact truncate_le t
      · rw [h.span g' hg', hst, hs]; exact lt_truncate_add hd t }

theorem timeAxis (h : Aligned rp.shardGroupDuration rp.shardGroups) (hd : 0 < rp.shardGroupDuration) :
    TimeAxis rp where
  sorted := h.sorted.sublist List.filter_sublist
  span g hg := h.span g <| List.mem_of_mem_filter hg
  disjoint := by
    refine (List.Pairwise.filter _ h.distinct).imp_of_mem fun {a b} ha hb hs => ?_
    obtain ⟨ha, hda⟩ := List.mem_filter.mp ha
    obtain ⟨hb, hdb⟩ := List.mem_filter.mp hb
    simp only [decide_eq_true_eq] at hda hdb
    rw [h.span a ha, h.span b hb]
    exact slots_disjoint (h.dvd a ha) (h.dvd b hb) hd <| hs hda.left hdb.left

theorem length_groupsAt (h : Aligned d rp.shardGroups) (hd : 0 < d)
    (hg : g ∈ groupsAt rp t) : (groupsAt rp t).length = 1 := by
  have hp : (groupsAt rp t).Pairwise fun _ _ => False := by
    refine (List.Pairwise.filter _ h.distinct).imp_of_mem fun {a b} ha hb hs => ?_
    obtain ⟨ha, hda⟩ := List.mem_filter.mp ha
    obtain ⟨hb, hdb⟩ := List.mem_filter.mp hb
    obtain ⟨hda, hca⟩ := of_decide_eq_true hda
    obtain ⟨hdb, hcb⟩ := of_decide_eq_true hdb
    rw [ShardGroupInfo.Contains, h.span a ha] at hca
    rw [ShardGroupInfo.Contains, h.span b hb] at hcb
    exact hs hda hdb <| slot_unique (h.dvd a ha) (h.dvd b hb) hd
      hca.left hca.right hcb.left hcb.right
  generalize groupsAt rp t = l at hp hg
  obtain _ | ⟨_, _ | ⟨_, _⟩⟩ := l
  · cases hg
  · rfl
  · exact ((List.pairwise_cons.mp hp).left _ List.mem_cons_self).elim

end Aligned

namespace Data

variable {d d' : Data} {I : Package} {E : Env} {l : Log}

def AlignedAt (i j : Nat) (length : Int) (d : Data) : Prop :=
  ∃ rp, d.data.policy? i j = some rp ∧ rp.shardGroupDuration = length
    ∧ Aligned length rp.shardGroups

section Policies

theorem policy?_modifyPolicy (d : Influx.Data) (f : RetentionPolicyInfo → RetentionPolicyInfo) :
    (d.modifyPolicy i j f).policy? i' j'
      = (d.policy? i' j').map fun rp => if i = i' ∧ j = j' then f rp else rp := by
  simp only [Influx.Data.policy?, Influx.Data.modifyPolicy, List.getElem?_modify]
  cases hd : d.databases[i']?
  case none => rfl
  case some db =>
    by_cases hi : i = i'
    case neg => simp [hi]
    case pos =>
      cases hr : db.retentionPolicies[j']? <;> by_cases hj : j = j' <;>
        simp [hi, hj, hr]

theorem policy?_deleteDataNode (h : deleteDataNode M node d = .ok () d')
    (hp : d.data.policy? i j = some rp) : d'.data.policy? i j = some { rp with
      shardGroups := rp.shardGroups.map fun g => (ShardGroupInfo.deleteNode node M g).1 } := by
  obtain ⟨_, hg, rfl⟩ := deleteDataNode_eq_ok.mp h
  have hv := (Slice.each_ok (s := d.shardStatus) fun db hd =>
    Slice.nested_ok withPolicies fun rp hr =>
      Slice.nested_ok withGroups (f := deleteNodeFrom M node) fun g hg' s =>
        ⟨hg g <| List.mem_flatMap.mpr ⟨db, hd, List.mem_flatMap.mpr ⟨rp, hr, hg'⟩⟩, rfl⟩).right
  obtain ⟨db, hd, hj⟩ := Option.bind_eq_some_iff.mp hp
  simp only [Influx.Data.policy?, withoutNode]
  rw [eachGroup, hv]
  simp [hd, hj, withPolicies, withGroups]

end Policies

theorem marked_deleteNode (gs : List ShardGroupInfo) : List.Forall₂ (Marked M.now) gs
    (gs.map fun g => (ShardGroupInfo.deleteNode node M g).1) := by
  refine List.forall₂_map_right_iff.mpr <| List.forall₂_same.mpr fun g _ => ?_
  rw [ShardGroupInfo.deleteNode]
  split
  case isTrue => exact ⟨rfl, rfl, rfl, .inr rfl⟩
  case isFalse => exact ⟨rfl, rfl, rfl, .inl rfl⟩

theorem marked_of_delete (h : List.Forall₂ (fun g g' => g' = g ∨ g' = { g with deletedAt := now })
    gs gs') : List.Forall₂ (Marked now) gs gs' := by
  refine h.imp fun g g' hg => ?_
  rcases hg with rfl | rfl
  case inl => exact ⟨rfl, rfl, rfl, .inl rfl⟩
  case inr => exact ⟨rfl, rfl, rfl, .inr rfl⟩

theorem deleteDataNode_alignedAt (h : d.AlignedAt i j length) (hn : M.now ≠ zero)
    (hd : deleteDataNode M node d = .ok () d') : d'.AlignedAt i j length := by
  obtain ⟨rp, hp, hl, ha⟩ := h
  exact ⟨_, policy?_deleteDataNode hd hp, hl, ha.marked hn <| marked_deleteNode _⟩

theorem deleteShardGroup_alignedAt (hI : I.GroupLaws) (h : d.AlignedAt i j length)
    (hn : now ≠ zero)
    (hd : onInflux I (.deleteShardGroup db policy group now) d = .ok () d') :
    d'.AlignedAt i j length := by
  obtain ⟨rp, hp, hl, ha⟩ := h
  obtain ⟨gs, hg, hm⟩ := hI.delete_run db policy group now hp
  rw [onInflux] at hd
  split at hd <;> cases hd
  case h_1 hr =>
    rw [hr] at hg
    exact ⟨_, hg, hl, ha.marked hn <| marked_of_delete hm⟩

theorem addShardGroup_alignedAt (hS : I.SortLaws) (hI : I.GroupLaws) (h : d.AlignedAt i j length)
    (hl : 0 < length) (hg : d.groupToCreate I db policy t = .ok (some (i', j', g))) :
    (d.addShardGroup I i' j' g).AlignedAt i j length := by
  obtain ⟨rp, hp, rfl, ha⟩ := h
  obtain ⟨_, rpi, _, hp', ht, rfl⟩ := groupToCreate_ok hg
  refine ⟨_, (policy?_modifyPolicy d.data _).trans <| by rw [hp, Option.map_some], ?_⟩
  by_cases hij : i' = i ∧ j' = j
  case neg =>
    rw [if_neg hij]
    exact ⟨rfl, ha⟩
  case pos =>
    obtain ⟨rfl, rfl⟩ := hij
    obtain rfl : rp = rpi := Option.some.inj <| hp.symm.trans hp'
    rw [if_pos ⟨rfl, rfl⟩]
    exact ⟨rfl, ha.create hS hI hl (hI.byTimestamp_none ht) rfl rfl (not_not.mpr rfl)⟩

theorem createShardGroup_alignedAt (hS : I.SortLaws) (hI : I.GroupLaws) (h : d.AlignedAt i j length)
    (hl : 0 < length) (he : createShardGroup I db policy t d = .ok () d') :
    d'.AlignedAt i j length := by
  rw [createShardGroup] at he
  split at he <;> cases he
  case h_2 => exact h
  case h_3 hg => exact addShardGroup_alignedAt hS hI h hl hg

theorem apply_alignedAt (hS : I.SortLaws) (hI : I.GroupLaws) (h : d.AlignedAt i j length)
    (hl : 0 < length) (hc : l.cmd.OnGroups) (hn : E.now ≠ zero)
    (ha : d.apply I E l = some (d', err)) : d'.AlignedAt i j length := by
  refine apply_preserves ha id h (fun hs => ?_) (fun hm he => ?_) fun _ _ _ => h
  · simp [hs, Command.OnGroups] at hc
  · cases hcmd : l.cmd <;> simp only [hcmd, Command.OnGroups] at hc <;>
      simp only [hcmd, dispatch, Effect.update.injEq] at hm <;> subst hm
    case deleteShardGroup => exact deleteShardGroup_alignedAt hI h hn he
    case deleteDataNode => exact deleteDataNode_alignedAt h hn he
    case createShardGroup => exact createShardGroup_alignedAt hS hI h hl he

theorem exists_groupsAt (hS : I.SortLaws) (hI : I.GroupLaws) (hn : d.dataNodes ≠ [])
    (hr : I.retentionPolicy d.data db policy = .ok (some (i, j)))
    (hl : 0 < rp.shardGroupDuration) (hp : d.data.policy? i j = some rp)
    (he : createShardGroup I db policy t d = .ok () d') :
    ∃ rp', d'.data.policy? i j = some rp' ∧ ∃ g, g ∈ groupsAt rp' t := by
  rw [createShardGroup] at he
  split at he <;> cases he
  case h_2 hg =>
    obtain ⟨i', j', rpi, hr', hp', hs⟩ := groupToCreate_none hn hg
    rw [hr, Except.ok.injEq, Option.some.injEq, Prod.mk.injEq] at hr'
    obtain ⟨rfl, rfl⟩ := hr'
    obtain ⟨g, hg⟩ := Option.isSome_iff_exists.mp hs
    obtain ⟨hm, hc, hd, _⟩ := hI.byTimestamp_some hg
    exact ⟨rpi, hp', g, List.mem_filter.mpr ⟨hm, decide_eq_true ⟨hd, hc⟩⟩⟩
  case h_3 i' j' g hg =>
    obtain ⟨_, rpi, hr', hp', _, rfl⟩ := groupToCreate_ok hg
    rw [hr, Except.ok.injEq, Option.some.injEq, Prod.mk.injEq] at hr'
    obtain ⟨rfl, rfl⟩ := hr'
    obtain rfl : rp = rpi := Option.some.inj <| hp.symm.trans hp'
    refine ⟨_, (policy?_modifyPolicy d.data _).trans <| by rw [hp, Option.map_some, if_pos ⟨rfl, rfl⟩],
      _, List.mem_filter.mpr ⟨(hS.groups_perm _).mem_iff.mpr List.mem_concat_self, ?_⟩⟩
    exact decide_eq_true ⟨not_not.mpr rfl, truncate_le _, lt_truncate_add hl _⟩

theorem length_groupsAt_createShardGroup (hS : I.SortLaws) (hI : I.GroupLaws)
    (h : d.AlignedAt i j length) (hl : 0 < length) (hn : d.dataNodes ≠ [])
    (hr : I.retentionPolicy d.data db policy = .ok (some (i, j)))
    (he : createShardGroup I db policy t d = .ok () d') :
    ∃ rp, d'.data.policy? i j = some rp ∧ (groupsAt rp t).length = 1 := by
  obtain ⟨rp, hp, hd, ha⟩ := h
  obtain ⟨rp', hp', g, hg⟩ := exists_groupsAt hS hI hn hr (hd ▸ hl) hp he
  obtain ⟨rp'', hp'', _, ha⟩ := createShardGroup_alignedAt hS hI ⟨rp, hp, hd, ha⟩ hl he
  obtain rfl : rp'' = rp' := Option.some.inj <| hp''.symm.trans hp'
  exact ⟨rp'', hp', ha.length_groupsAt hl hg⟩

theorem apply_createShardGroup_ok (hc : l.cmd = .createShardGroup db policy t)
    (ha : d.apply I E l = some (d', none)) :
    ∃ d₁, createShardGroup I db policy (.unix t) d = .ok () d₁ ∧ d' = d₁.stamp l := by
  rw [apply, hc] at ha
  simp only [dispatch] at ha
  split at ha <;> cases ha
  case h_1 he => exact ⟨_, he, rfl⟩

theorem keepsBounds_iff (hI : I.TimeLaws) (hc : g.Contains t) :
    ShardGroupInfo.KeepsBounds I t g ↔ g.startTime.Representable ∧ g.endTime.Representable where
  mp h := ⟨(unmarshalBound_marshalTime hI).mp h.startTime, (unmarshalBound_marshalTime hI).mp h.endTime⟩
  mpr h := {
    contains := hc
    startTime := (unmarshalBound_marshalTime hI).mpr h.left
    endTime := (unmarshalBound_marshalTime hI).mpr h.right }

theorem representable_slot_iff (hl : 0 < length) :
    (truncate (.unix t) length).Representable
      ∧ (truncate (.unix t) length + length).Representable ↔ SlotFits t length := by
  have h₁ := Int.emod_nonneg (unixEpoch + t.toInt) hl.ne'
  have h₂ := Int.emod_lt_of_pos (unixEpoch + t.toInt) hl
  have ht := t.le_toInt
  have ht' := t.toInt_lt
  have hs : truncate (.unix t) length - unixEpoch =
      t.toInt - (unixEpoch + t.toInt) % length := by
    rw [truncate, if_neg hl.not_ge, unix]
    ring
  rw [representable_iff, representable_iff, add_sub_right_comm, hs, SlotFits]
  generalize (unixEpoch + t.toInt) % length = c at h₁ h₂ ⊢
  constructor
  case mp => exact fun h => ⟨h.left.left, h.right.right⟩
  case mpr => exact fun h => ⟨⟨h.left, by linarith⟩, by linarith, h.right⟩

theorem createShardGroup_keepsBounds_iff (hI : I.TimeLaws) (hS : I.SortLaws)
    (he : createShardGroup I db policy (.unix t) d = .ok () d')
    (hr : I.retentionPolicy d.data db policy = .ok (some (i, j)))
    (hp : d.data.policy? i j = some rp) (hl : 0 < rp.shardGroupDuration)
    (hg : d'.data.groups.Perm (d.data.groups ++ [g])) :
    ShardGroupInfo.KeepsBounds I (.unix t) g ↔ SlotFits t rp.shardGroupDuration := by
  rw [createShardGroup] at he
  split at he <;> cases he
  case h_2 => exact absurd hg.length_eq <| by simp
  case h_3 i' j' g₀ hg₀ =>
    obtain ⟨_, rpi, hr', hp', _, he₀⟩ := groupToCreate_ok hg₀
    rw [hr, Except.ok.injEq, Option.some.injEq, Prod.mk.injEq] at hr'
    obtain ⟨rfl, rfl⟩ := hr'
    obtain rfl : rp = rpi := Option.some.inj <| hp.symm.trans hp'
    have he := (groups_addShardGroup hS hp').symm.trans hg
    have he := List.singleton_perm_singleton.mp <| (List.perm_append_left_iff _).mp he
    rw [← he, he₀, keepsBounds_iff hI ⟨truncate_le _, lt_truncate_add hl _⟩]
    exact representable_slot_iff hl

theorem keepsBounds_of_epoch :
    let d := (Store.after (.follower (.ascending 1) [])
      [.createDataNode "h1" "t1", .createDatabase "db" (some Command.oneReplica)]).live
    let rp := {
      name := "rp"
      replicaN := 1
      duration := 0
      shardGroupDuration := 604800000000000
      shardGroups := []
      subscriptions := [] }
    let d' := Frame.final (createShardGroup .standard "db" "rp" (.unix 0) d)
    let g := d.newShardGroup rp (.unix 0) (d.newShards 1 1)
    d'.data.groups = [g] ∧ ShardGroupInfo.KeepsBounds .standard (.unix 0) g := by
  intro d rp d' g
  have he : createShardGroup .standard "db" "rp" (.unix 0) d = .ok () d' := rfl
  have hr : Package.standard.retentionPolicy d.data "db" "rp" = .ok (some (0, 0)) := rfl
  have hp : d.data.policy? 0 0 = some rp := by decide +kernel
  refine ⟨by decide +kernel, ?_⟩
  exact (createShardGroup_keepsBounds_iff Store.standard_timeLaws Influx.standard_sortLaws he hr hp
    (by decide) (by decide +kernel)).mpr (by decide)

-- The last timestamp is in a group that ends before it starts once it has been sent.
theorem lastTimestamp_loses_bounds :
    let d := (Store.after (.follower (.ascending 1) [])
      [.createDataNode "h1" "t1", .createDatabase "db" (some Command.oneReplica)]).live
    let t := Int64.maxValue
    ∃ g ∈ (Frame.final (createShardGroup .standard "db" "rp" (.unix t) d)).data.groups,
      g.Contains (.unix t) ∧
        (unmarshalShardGroupInfo .standard (marshalShardGroupInfo .standard g)).endTime <
          g.startTime := by
  decide +kernel

end Data

namespace Store

theorem time_axis (i j : Nat) (rp₀ : RetentionPolicyInfo) (hS : I.SortLaws) (hI : I.GroupLaws)
    (hp : s₀.live.data.policy? i j = some rp₀) (hl : 0 < rp₀.shardGroupDuration)
    (hg : rp₀.shardGroups = []) (h : Run (step I) OnGroups (some s₀) (some s)) :
    ∃ rp, s.live.data.policy? i j = some rp ∧ rp.shardGroupDuration = rp₀.shardGroupDuration
      ∧ TimeAxis rp
      ∧ ∀ {E l s' db policy t}, l.cmd = .createShardGroup db policy t →
        I.retentionPolicy s.live.data db policy = .ok (some (i, j)) → s.live.dataNodes ≠ [] →
        s.apply I E l = some (s', none) →
        ∃ rp', s'.live.data.policy? i j = some rp'
          ∧ (groupsAt rp' (.unix t)).length = 1 := by
  have hr := invariant_live (J := Data.AlignedAt i j rp₀.shardGroupDuration)
    (P := fun _ i => i.2.cmd.OnGroups ∧ i.1.now ≠ zero) (h.mono fun hi _ _ => hi)
    ⟨rp₀, hp, rfl, hg ▸ .nil⟩ fun h hi ha => Data.apply_alignedAt hS hI h hl hi.left hi.right ha
  obtain ⟨rp, hp, hd, ha⟩ := id hr
  refine ⟨rp, hp, hd, (hd ▸ ha).timeAxis (hd ▸ hl), fun {E l s' db policy t} hc hn hne ha => ?_⟩
  have ha : s.live.apply I E l = some (s'.live, none) := by
    rw [← live_apply, ha]
    rfl
  obtain ⟨d₁, he, hs⟩ := Data.apply_createShardGroup_ok hc ha
  obtain ⟨rp', hp', hl⟩ := Data.length_groupsAt_createShardGroup hS hI hr hl hne hn he
  rw [hs]
  exact ⟨rp', hp', hl⟩

theorem time_axis_around_epoch :
    let E := Env.follower (.ascending 1) []
    let is := Log.ofCommands [
      .createShardGroup "db" "rp" 0,
      .createShardGroup "db" "rp" (-604800000000000),
      .deleteShardGroup "db" "rp" 1,
      .createShardGroup "db" "rp" 5]
    let s := (is.map (E, ·)).foldl (step .standard)
      (some <| after E [.createDataNode "h1" "t1", .createDatabase "db" (some Command.oneReplica)])
    (s.bind (·.live.data.policy? 0 0)).map (·.shardGroups.length) = some 3
      ∧ ∀ s' ∈ s, ∃ rp, s'.live.data.policy? 0 0 = some rp
        ∧ TimeAxis rp := by
  refine ⟨by decide +kernel, fun s hs => ?_⟩
  have ⟨rp, hp, _, ha, _⟩ := time_axis 0 0 {
      name := "rp"
      replicaN := 1
      duration := 0
      shardGroupDuration := 604800000000000
      shardGroups := []
      subscriptions := [] }
    Influx.standard_sortLaws Influx.standard_groupLaws (by decide +kernel) (by decide) rfl
    (.of_foldl_eq _ hs (by decide +kernel))
  exact ⟨rp, hp, ha⟩

end Store
end Meta
