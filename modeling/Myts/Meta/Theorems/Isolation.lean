import Myts.Meta.Standard
import Myts.Meta.Theorems.Data
import Myts.Meta.Theorems.Store

open List

namespace Meta

open Influx (Package)
open Frame (Within Keeps final final_ok final_error)

variable {I : Package} {E : Env} {l : Log} {cmd : Command} {d d' : Data}

def Command.TouchesStatus : Command → Prop
  | .createShardGroup .. | .deleteDataNode .. | .updateShard .. => True
  | _ => False

namespace Data

theorem ignoresNodes_shardStatus : IgnoresNodes fun d => d.shardStatus :=
  fun _ _ _ _ _ => rfl

theorem keeps_onInflux {p : Data → β} (hp : ∀ d data, p { d with data } = p d) :
    Within (Keeps p) (onInflux I op) := by
  intro d
  rw [onInflux]
  split <;> exact hp d _

theorem keeps_shardStatus (h : dispatch I E cmd = .update m) (hc : ¬cmd.TouchesStatus) :
    Within (Keeps fun d => d.shardStatus) m := by
  by_cases hn : cmd.OnNodes
  case pos => exact within_nodes ignoresNodes_shardStatus.allowsNodes h hn
  intro d
  refine final_dispatch (J := Keeps (·.shardStatus) d) h hn rfl
    (fun _ _ h => trans_of (Keeps _) h (keeps_onInflux (fun _ _ => rfl) _)) ?_ ?_ ?_
  all_goals
    intros
    subst_vars
    exact (hc trivial).elim

theorem shardStatus_final_eq (h : dispatch I E cmd = .update m) (hw : ¬d.WritesStatus I cmd) :
    (final (m d)).shardStatus = d.shardStatus := by
  by_cases hc : cmd.TouchesStatus
  case neg => exact keeps_shardStatus h hc d
  cases cmd <;> simp only [Command.TouchesStatus] at hc
  case createShardGroup db policy ts =>
    simp only [dispatch, Effect.update.injEq] at h
    subst h
    simp only [WritesStatus] at hw
    rw [createShardGroup]
    split
    case h_1 => rfl
    case h_2 => rfl
    case h_3 i j g hg =>
      simp only [hg, not_not] at hw
      simp [final, addShardGroup, hw]
  case deleteDataNode node =>
    simp only [dispatch, Effect.update.injEq] at h
    subst h
    by_cases hn : (d.dataNode node).isSome
    case neg =>
      rw [deleteDataNode_not_found <| Option.not_isSome_iff_eq_none.mp hn]
      rfl
    case pos =>
      rw [shardStatus_deleteDataNode hn, foldl_deleteStatus_eq_self_iff]
      rintro ⟨g, hg, hl⟩
      exact hw ⟨hn, g, Slice.mem_of_mem_visited hg, hl⟩
  case updateShard node owners status =>
    simp only [dispatch, Effect.update.injEq] at h
    subst h
    simp only [WritesStatus, not_or, not_and, not_not] at hw
    obtain ⟨ho, rfl⟩ := hw
    rw [applyUpdateShardCommand_run]
    change (final (updateShard node owners d)).shardStatus = _
    rw [shardStatus_updateShard]
    cases hs : d.shardStatus
    case none => rfl
    case some m =>
      rw [Option.map_some, Option.some.injEq]
      by_cases hm : node ∈ m
      case neg => exact addStates_of_not_mem hm
      case pos =>
        by_cases hn : owners = []
        case pos => rw [hn, addStates_nil]
        case neg =>
          have hf : node ∉ d.data.shards.map (·.id) := fun h => ho hn h <| by simpa [hs] using hm
          have hf : d.data.shards.filter (·.id = node) = [] := by simpa using hf
          rw [hf, addStates, foldl_nil]

theorem leaked_eq_self (h : d'.shardStatus = d.shardStatus) : d.leaked d' = d.shardStatus := by
  rw [leaked, h]
  cases d.shardStatus <;> rfl

theorem leaked_foldl_deleteStatus {gs : List Influx.ShardGroupInfo}
    (h : d'.shardStatus = gs.foldl (ShardGroupInfo.deleteStatus node) d.shardStatus) :
    d.leaked d' = gs.foldl (ShardGroupInfo.deleteStatus node) d.shardStatus := by
  rw [leaked, h]
  cases d.shardStatus
  case none => rw [ShardGroupInfo.foldl_deleteStatus_none]
  case some => rw [ShardGroupInfo.foldl_deleteStatus_some]

theorem setStatus_panics (h : applyUpdateShardCommand.setStatus node status? d = .error e d') :
    e = .panic := by
  unfold applyUpdateShardCommand.setStatus at h
  split at h
  case h_1 => cases h
  case h_2 =>
    split at h <;> cases h
    rfl
  case h_3 =>
    cases h
    rfl

theorem leaked_eq_self_iff (h : dispatch I E cmd = .update m) (he : m d = .error e d')
    (hp : e ≠ .panic) : d.leaked d' = d.shardStatus ↔ ¬d.Leaks E cmd := by
  have hf : final (m d) = d' := by rw [he]; rfl
  by_cases hc : cmd.TouchesStatus
  case neg =>
    have hl : ¬d.Leaks E cmd := by cases cmd <;> simp [Leaks, Command.TouchesStatus] at hc ⊢
    exact iff_of_true (leaked_eq_self <| hf ▸ keeps_shardStatus h hc d) hl
  cases cmd <;> simp only [Command.TouchesStatus] at hc <;>
    simp only [dispatch, Effect.update.injEq] at h <;> subst h
  case createShardGroup =>
    rw [createShardGroup] at he
    split at he <;> cases he
    exact iff_of_true (leaked_eq_self rfl) id
  case updateShard node owners status =>
    rw [applyUpdateShardCommand_run] at he
    exact (hp <| setStatus_panics he).elim
  case deleteDataNode node =>
    by_cases hn : (d.dataNode node).isSome
    case neg =>
      rw [deleteDataNode_not_found <| Option.not_isSome_iff_eq_none.mp hn] at he
      cases he
      exact iff_of_true (leaked_eq_self rfl) fun hl => hn hl.left
    case pos =>
      have hs := shardStatus_deleteDataNode (M := E.toMachine) hn
      rw [hf] at hs
      rw [leaked_foldl_deleteStatus hs, foldl_deleteStatus_eq_self_iff, Leaks, visitedGroups]
      simp [hn]

theorem stamp_shardStatus_eq_iff :
    DataOf.stamp l { d with shardStatus := m } = d.stamp l ↔ m = d.shardStatus := by
  simp [DataOf.stamp]

theorem apply_atomic_iff (h : d.apply I E l = some (d', some e)) :
    d' = d.stamp l ↔ ¬d.Leaks E l.cmd := by
  rw [apply] at h
  split at h
  case h_1 => cases h
  case h_2 hd =>
    have hl : ¬d.Leaks E l.cmd := by
      intro hl
      cases hc : l.cmd <;> simp [hc, Leaks, dispatch] at hl hd
    cases h
    exact iff_of_true rfl hl
  case h_3 => cases h
  case h_4 m hd =>
    split at h
    case h_1 => cases h
    case h_2 => cases h
    case h_3 hp he =>
      cases h
      exact stamp_shardStatus_eq_iff.trans <| leaked_eq_self_iff hd he hp

end Data

namespace Store

variable {s s' : Store}

theorem read?_eq_some : s.read? p = some d ↔ ∃ c, s.cells[p]? = some c ∧ value s.maps c = d := by
  simp [read?]

theorem read?_stamp (h : s.read? p = some d ∧ s.data ≠ p) : (s.stamp l).read? p = some d := by
  rw [← h.left]
  simp [read?, getElem?_set_ne h.right]

theorem read?_newMap (h : s.read? p = some d) : (s.newMap m).read? p = some d := by
  obtain ⟨c, hc, hv⟩ := read?_eq_some.mp h
  refine read?_eq_some.mpr ⟨c, hc, hv ▸ ?_⟩
  have hr : c.shardStatus.bind (fun r => (s.maps ++ [m])[r]?) = c.shardStatus.bind (s.maps[·]?) := by
    cases hs : c.shardStatus
    case none => rfl
    case some r => exact getElem?_append_left <| s.refs_lt c (mem_of_getElem? hc) r hs
  simp [value, DataOf.mapStatus, hr]

theorem read?_newCell {h} (hp : s.read? p = some d) : (s.newCell d' r h).read? p = some d := by
  obtain ⟨c, hc, hv⟩ := read?_eq_some.mp hp
  refine read?_eq_some.mpr ⟨c, ?_, hv⟩
  rw [newCell_cells, getElem?_append_left (List.getElem?_eq_some_iff.mp hc).choose, hc]

theorem data_newCell_ne {h} (hp : s.read? p = some d) : (s.newCell d' r h).data ≠ p := by
  obtain ⟨c, hc, _⟩ := read?_eq_some.mp hp
  exact (Nat.ne_of_lt (List.getElem?_eq_some_iff.mp hc).choose).symm

theorem read?_setMap (h : s.read? p = some d)
    (hm : ∀ c, s.cells[p]? = some c → c.shardStatus = some r → s.maps[r]? = some m) :
    (s.setMap r m).read? p = some d := by
  obtain ⟨c, hc, hv⟩ := read?_eq_some.mp h
  refine read?_eq_some.mpr ⟨c, hc, hv ▸ ?_⟩
  have hr : c.shardStatus.bind (fun r' => (s.maps.set r m)[r']?) = c.shardStatus.bind (s.maps[·]?) := by
    cases hs : c.shardStatus
    case none => rfl
    case some r' =>
      by_cases he : r = r'
      case neg => exact getElem?_set_ne he
      case pos =>
        subst he
        have hl := s.refs_lt c (mem_of_getElem? hc) r hs
        rw [Option.bind_some, Option.bind_some, hm c hc hs, getElem?_set_self hl]
  simp [value, DataOf.mapStatus, hr]

theorem live_shardStatus (h : s.cell.shardStatus = some r) : s.live.shardStatus = s.maps[r]? := by
  simp [live, value, DataOf.mapStatus, h]

theorem read?_setMap_cell (h : s.read? p = some d) (hr : s.cell.shardStatus = some r)
    (hm : s.SharesMap p → s.live.shardStatus = some m) : (s.setMap r m).read? p = some d := by
  refine read?_setMap h fun c hc hs => ?_
  rw [← live_shardStatus hr]
  exact hm ⟨by simp [hr], by simp [hc, hs, hr]⟩

theorem read?_overwrite (h : s.read? p = some d) :
    (s.overwrite d').read? p = some d ∧ (s.overwrite d').data ≠ p := by
  rw [overwrite]
  split
  case h_1 => exact ⟨read?_newCell h, data_newCell_ne h⟩
  case h_2 => exact ⟨read?_newCell <| read?_newMap h, data_newCell_ne <| read?_newMap h⟩

theorem read?_install (h : s.read? p = some d)
    (hm : s.SharesMap p → d'.shardStatus = s.live.shardStatus) :
    (s.install d').read? p = some d ∧ (s.install d').data ≠ p := by
  rw [install]
  split
  case h_1 r m hr hd =>
    have hs := read?_setMap_cell h hr fun hs => hd ▸ (hm hs).symm
    exact ⟨read?_newCell hs, data_newCell_ne hs⟩
  case h_2 => exact read?_overwrite h

theorem read?_writeThrough (h : s.read? p = some d)
    (hm : s.SharesMap p → d'.shardStatus = s.live.shardStatus) :
    (s.writeThrough d').read? p = some d := by
  rw [writeThrough]
  split
  case h_1 r m hr hd => exact read?_setMap_cell h hr fun hs => hd ▸ (hm hs).symm
  case h_2 => exact h

theorem data_writeThrough : (s.writeThrough d').data = s.data := by
  rw [writeThrough]
  split <;> rfl

theorem read?_apply (h : s.read? p = some d) (ha : s.apply I E l = some (s', err))
    (hm : s.SharesMap p → ¬s.live.WritesStatus I l.cmd)
    (hr : s.data = p → s.live.Replaces I E l.cmd) : s'.read? p = some d := by
  rw [apply] at ha
  simp only [Data.Replaces] at hr
  split at ha
  case h_1 => cases ha
  case h_2 hd =>
    cases ha
    simp only [hd, imp_false] at hr
    exact read?_stamp ⟨h, hr⟩
  case h_3 =>
    cases ha
    exact read?_stamp <| read?_overwrite h
  case h_4 m hd =>
    have hf : s.SharesMap p → (final (m s.live)).shardStatus = s.live.shardStatus :=
      fun hs => Data.shardStatus_final_eq hd (hm hs)
    simp only [hd] at hr
    split at ha
    case h_1 he =>
      cases ha
      rw [he, final_ok] at hf
      exact read?_stamp <| read?_install h hf
    case h_2 => cases ha
    case h_3 he =>
      cases ha
      simp only [he, Bool.false_eq_true, imp_false] at hr
      rw [he, final_error] at hf
      exact read?_stamp ⟨read?_writeThrough h hf, data_writeThrough.trans_ne hr⟩

theorem data_overwrite : (s.overwrite d').data = s.cells.length := by
  rw [overwrite]
  split <;> rfl

theorem data_install : (s.install d').data = s.cells.length := by
  rw [install]
  split
  case h_1 => rfl
  case h_2 => exact data_overwrite

theorem data_apply (ha : s.apply I E l = some (s', err)) :
    s'.data = s.data ∨ s'.data = s.cells.length := by
  rw [apply] at ha
  split at ha
  case h_1 => cases ha
  case h_2 => cases ha; exact .inl rfl
  case h_3 => cases ha; exact .inr data_overwrite
  case h_4 =>
    split at ha
    case h_1 => cases ha; exact .inr data_install
    case h_2 => cases ha
    case h_3 => cases ha; exact .inl data_writeThrough

theorem data_apply_ne (h : s.read? p = some d) (ha : s.apply I E l = some (s', err))
    (hp : s.data ≠ p) : s'.data ≠ p := by
  obtain ⟨c, hc, _⟩ := read?_eq_some.mp h
  have hl : p < s.cells.length := (List.getElem?_eq_some_iff.mp hc).choose
  exact (data_apply ha).elim (·.trans_ne hp) fun hd => hd.trans_ne hl.ne'

theorem step_eq_some (h : step I t i = some s') :
    ∃ s err, t = some s ∧ s.apply I i.1 i.2 = some (s', err) := by
  simpa [step, Option.bind_eq_some_iff] using h

theorem read?_step (h : ∀ s ∈ t, s.read? p = some d) (hs : s' ∈ step I t i)
    (hm : LeavesMap I p t i) (hr : LeavesStamp I p t i) : s'.read? p = some d := by
  obtain ⟨s, err, rfl, ha⟩ := step_eq_some hs
  exact read?_apply (h s rfl) ha (hm s rfl) (hr s rfl)

theorem read?_step_copy (h : ∀ s ∈ t, s.read? p = some d ∧ s.data ≠ p) (hs : s' ∈ step I t i)
    (hm : LeavesMap I p t i) : s'.read? p = some d ∧ s'.data ≠ p := by
  obtain ⟨s, err, rfl, ha⟩ := step_eq_some hs
  have ⟨hd, hp⟩ := h s rfl
  exact ⟨read?_apply hd ha (hm s rfl) fun he => (hp he).elim, data_apply_ne hd ha hp⟩

theorem read?_snapshot : s.snapshot.1.read? s.snapshot.2 = some s.live := by
  simp [snapshot, read?, live]

theorem snapshot_isolated (s : Store) (o : StatusOrder) :
    (∀ s', Run (step I) (fun t i => LeavesMap I s.data t i ∧ LeavesStamp I s.data t i)
        (some s) (some s') →
      s'.persist I o s.data = some (Data.marshal I o s.live))
    ∧ ∀ s', Run (step I) (LeavesMap I s.snapshot.2) (some s.snapshot.1) (some s') →
      s'.read? s.snapshot.2 = some s.live where
  left s' h := by
    have hr := h.invariant (I := fun t => ∀ s' ∈ t, s'.read? s.data = some s.live)
      (by rintro _ ⟨⟩; exact read?_data) fun ht hi s' hs => read?_step ht hs hi.left hi.right
    rw [persist, hr s' rfl, Option.map_some]
  right s' h :=
    have hr := h.invariant
      (I := fun t => ∀ s' ∈ t, s'.read? s.snapshot.2 = some s.live ∧ s'.data ≠ s.snapshot.2)
      (by rintro _ ⟨⟩; exact ⟨read?_snapshot, s.data_lt.ne⟩)
      fun ht hi s' hs => read?_step_copy ht hs hi
    (hr s' rfl).left

theorem snapshot_isolated_from_nodes :
    let E := Env.follower (.ascending 1) []
    let s := after E Command.threeShards
    let is := Log.ofCommands [.createDataNode "h4" "t4", .createDatabase "db2" none]
    let o := { shards := [2, 3, 1], owners := fun s => if s = 1 then [3] else [s - 1] }
    let t := (is.map (E, ·)).foldl (step .standard) (some s)
    let u := (is.map (E, ·)).foldl (step .standard) (some s.snapshot.1)
    t.isSome ∧ (∀ s' ∈ t, s'.persist .standard o s.data = some (Data.marshal .standard o s.live))
      ∧ u.isSome ∧ ∀ s' ∈ u, s'.read? s.snapshot.2 = some s.live :=
  have h := snapshot_isolated (I := .standard) (after _ Command.threeShards) _
  ⟨by decide +kernel, fun s' ht => h.left s' <| .of_foldl_eq _ ht (by decide +kernel),
    by decide +kernel, fun s' hu => h.right s' <| .of_foldl_eq _ hu (by decide +kernel)⟩

-- A new owner of a shard is found in the snapshot that was taken before.
theorem snapshot_sees_update :
    let E := Env.follower (.ascending 1) []
    let s := after E Command.threeShards
    let l := { term := 1, index := 7, cmd := .updateShard 1 [2] none }
    let o := { shards := [1, 2, 3], owners := fun s => if s = 1 then [2, 3] else [s - 1] }
    let t := (s.apply .standard E l).map Prod.fst
    let u := (s.snapshot.1.apply .standard E l).map Prod.fst
    (t.bind fun t => t.persist .standard o s.data).map (Data.unmarshal .standard · |>.shardStatus)
        ≠ some s.live.shardStatus
      ∧ (t.bind fun t => t.persist .standard o s.data).isSome
      ∧ (u.bind fun u => u.read? s.snapshot.2).isSome
      ∧ (u.bind fun u => u.read? s.snapshot.2) ≠ some s.live := by
  decide +kernel

theorem live_after_error_iff {s s' : Store} (h : s.apply I E l = some (s', some e)) :
    s'.live = s.live.stamp l ↔ ¬s.live.Leaks E l.cmd :=
  Data.apply_atomic_iff <| by rw [← live_apply, h]; rfl

theorem live_after_error_of_missing_node :
    let E := Env.follower (.ascending 1) []
    let s := after E Command.threeShards
    let l := { term := 1, index := 7, cmd := .deleteDataNode 9 }
    let s' := (s.writeThrough s.live).stamp l
    s.apply .standard E l = some (s', some .nodeNotFound) ∧ s'.live = s.live.stamp l :=
  have h := live_after_error_iff (e := .nodeNotFound) (I := .standard)
    (E := .follower (.ascending 1) []) (by decide +kernel)
  ⟨by decide +kernel, h.mpr (by decide +kernel)⟩

-- Both shards belong to node 1, which owns shard 1 twice. It can not be deleted as there is no node
-- that shard 2 could go to, but its state for shard 1 is gone.
theorem live_after_error_leaks :
    let E := Env.follower (.ascending 1) []
    let s := after E [
      .createDataNode "h1" "t1",
      .createDataNode "h2" "t2",
      .createDatabase "db" (some Command.oneReplica),
      .createShardGroup "db" "rp" 0,
      .deleteDataNode 2,
      .updateShard 1 [1] none]
    let l := { term := 1, index := 8, cmd := .deleteDataNode 1 }
    (s.apply .standard E l).map Prod.snd = some (some (.cannotReassign 2))
      ∧ (s.apply .standard E l).map (·.1.live) ≠ some (s.live.stamp l) := by
  decide +kernel

end Store
end Meta
