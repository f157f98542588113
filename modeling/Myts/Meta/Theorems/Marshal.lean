import Myts.Meta.Standard
import Myts.Meta.Theorems.Store

open List

namespace Meta

open Influx (Package)

variable {I : Package}

theorem map_eq_self_iff {f : α → α} {l : List α} : l.map f = l ↔ ∀ a ∈ l, f a = a := by
  conv_lhs => rhs; rw [← map_id l]
  exact map_inj_left

section Time

variable (hI : I.TimeLaws)

include hI

theorem unmarshalBound_eq (v : Int64) : unmarshalBound I v = .unix v := by
  rw [unmarshalBound]
  split
  case isTrue h => rw [h]
  case isFalse h => exact hI.unmarshal_unix h

theorem unmarshalBound_marshalTime : unmarshalBound I (I.marshalTime t) = t ↔ t.Representable where
  mp h := by
    rw [← h, unmarshalBound_eq hI]
    exact GoTime.representable_unix _
  mpr h := by
    rw [unmarshalBound_eq hI, ← h, hI.marshal_unix]

theorem unmarshalTime_marshalTime : I.unmarshalTime (I.marshalTime t) = t ↔ RestorableStamp t where
  mp h := by
    by_cases hz : I.marshalTime t = 0
    case pos =>
      rw [hz, hI.unmarshal_zero] at h
      exact .inl h.symm
    case neg =>
      rw [hI.unmarshal_unix hz] at h
      refine .inr ⟨h ▸ GoTime.representable_unix _, fun h₀ => hz ?_⟩
      rw [h₀, hI.marshal_unix]
  mpr := by
    rintro (rfl | ⟨hr, hn⟩)
    case inl => rw [hI.marshal_zero, hI.unmarshal_zero]
    case inr =>
      rw [← hr, hI.marshal_unix, hI.unmarshal_unix]
      exact fun h => hn <| hr ▸ congrArg GoTime.unix h

theorem unmarshal_truncatedAt :
    (if t = .zero then none else some (I.marshalTime t)).elim .zero I.unmarshalTime = t
      ↔ RestorableStamp t := by
  split
  case isTrue h => simp [h, RestorableStamp]
  case isFalse h => exact unmarshalTime_marshalTime hI

end Time

theorem unmarshal_marshalShardInfo (s : Influx.ShardInfo) :
    unmarshalShardInfo (marshalShardInfo s) = s := by
  have h : unmarshalShardOwner ∘ marshalShardOwner = id := rfl
  simp [unmarshalShardInfo, marshalShardInfo, h]

section Restorable

variable (hI : I.TimeLaws)

include hI

theorem unmarshal_marshalShardGroupInfo_iff :
    unmarshalShardGroupInfo I (marshalShardGroupInfo I g) = g ↔ ShardGroupInfo.Restorable g := by
  have hs : g.shards.map (unmarshalShardInfo ∘ marshalShardInfo) = g.shards :=
    map_eq_self_iff.mpr fun s _ => unmarshal_marshalShardInfo s
  rw [Influx.ShardGroupInfo.ext_iff]
  simp only [unmarshalShardGroupInfo, marshalShardGroupInfo, map_map, hs,
    unmarshalBound_marshalTime hI, unmarshalTime_marshalTime hI, unmarshal_truncatedAt hI, true_and,
    and_true]
  constructor
  case mp =>
    rintro ⟨h₁, h₂, h₃, h₄⟩
    exact ⟨h₁, h₂, h₃, h₄⟩
  case mpr => exact fun h => ⟨h.startTime, h.endTime, h.deletedAt, h.truncatedAt⟩

omit hI in
theorem toNat_replicaN_iff (n : Int) :
    ((UInt32.ofNat (n % 2 ^ 32).toNat).toNat : Int) = n ↔ 0 ≤ n ∧ n < 2 ^ 32 := by
  simp
  omega

theorem unmarshal_marshalRetentionPolicyInfo_iff :
    unmarshalRetentionPolicyInfo I (marshalRetentionPolicyInfo I rp) = rp
      ↔ RetentionPolicyInfo.Restorable rp := by
  rw [Influx.RetentionPolicyInfo.ext_iff]
  simp only [unmarshalRetentionPolicyInfo, marshalRetentionPolicyInfo, map_map,
    map_eq_self_iff, Function.comp_apply, unmarshal_marshalShardGroupInfo_iff hI,
    toNat_replicaN_iff, true_and]
  exact ⟨fun ⟨h₁, h₂, h₃⟩ => ⟨h₃.symm, h₁, h₂⟩,
    fun h => ⟨h.replicaN, h.shardGroups, h.subscriptions.symm⟩⟩

theorem unmarshal_marshalDatabaseInfo_iff :
    unmarshalDatabaseInfo I (marshalDatabaseInfo I db) = db ↔ DatabaseInfo.Restorable db := by
  rw [Influx.DatabaseInfo.ext_iff]
  simp only [unmarshalDatabaseInfo, marshalDatabaseInfo, map_map, map_eq_self_iff,
    Function.comp_apply, unmarshal_marshalRetentionPolicyInfo_iff hI, true_and]
  exact ⟨fun ⟨h₁, h₂⟩ => ⟨h₂.symm, h₁⟩, fun h => ⟨h.retentionPolicies, h.continuousQueries.symm⟩⟩

end Restorable

namespace Data

section Status

variable {m : StatusMap} {o : StatusOrder}

def unmarshalShard (m : StatusMap) (s : UInt64) (f : UInt64 → ShardStatus) (ns : List UInt64) :
    StatusMap :=
  ns.foldl (fun m n => unmarshalStatus.add m s { ownerNodeID := n, status := f n }) m

theorem lookup_unmarshalShard_ne (h : s' ≠ s) :
    (unmarshalShard m s f ns).lookup s' = m.lookup s' := by
  induction ns generalizing m
  case nil => rfl
  case cons n ns hi =>
    rw [unmarshalShard, foldl_cons, ← unmarshalShard, hi, unmarshalStatus.add,
      Finmap.lookup_insert_of_ne _ h]

theorem lookup_unmarshalShard_self (h : ns ≠ []) :
    (unmarshalShard m s f ns).lookup s =
      some (ns.foldl (fun owners n => owners.insert n (f n)) ((m.lookup s).getD ∅)) := by
  induction ns generalizing m
  case nil => exact (h rfl).elim
  case cons n ns hi =>
    rw [unmarshalShard, foldl_cons, ← unmarshalShard, foldl_cons]
    cases ns
    case nil => simp [unmarshalShard, unmarshalStatus.add]
    case cons =>
      rw [hi (by simp)]
      simp [unmarshalStatus.add]

theorem lookup_foldl_unmarshalShard {ss : List UInt64} {f : UInt64 → UInt64 → ShardStatus}
    {ns : UInt64 → List UInt64} (hn : ss.Nodup) (hm : ∀ s ∈ ss, m.lookup s = none) :
    (ss.foldl (fun m s => unmarshalShard m s (f s) (ns s)) m).lookup s =
      if s ∈ ss ∧ ns s ≠ [] then
        some ((ns s).foldl (fun owners n => owners.insert n (f s n)) ∅)
      else
        m.lookup s := by
  induction ss generalizing m
  case nil => simp
  case cons a ss hi =>
    obtain ⟨ha, hn⟩ := nodup_cons.mp hn
    obtain ⟨hma, hm⟩ := forall_mem_cons.mp hm
    have hm' : ∀ s ∈ ss, (unmarshalShard m a (f a) (ns a)).lookup s = none := by
      intro s hs
      rw [lookup_unmarshalShard_ne <| ne_of_mem_of_not_mem hs ha, hm s hs]
    rw [foldl_cons, hi hn hm']
    by_cases hs : s = a
    case neg => simp [hs, lookup_unmarshalShard_ne hs]
    case pos =>
      subst hs
      by_cases he : ns s = []
      case pos => simp [ha, he, unmarshalShard]
      case neg => simp [ha, he, lookup_unmarshalShard_self he, hma]

theorem unmarshal_marshalStatus (ho : o.Visits m) :
    (unmarshalStatus (marshalStatus o m)).lookup s =
      (m.lookup s).bind fun owners => if owners = ∅ then none else some owners := by
  have hf : unmarshalStatus (marshalStatus o m) = o.shards.foldl (fun m' s =>
      unmarshalShard m' s (fun n => ((m.lookup s).bind (·.lookup n)).getD 0) (o.owners s)) ∅ := by
    simp only [unmarshalStatus, marshalStatus, foldl_map]
    rfl
  rw [hf, lookup_foldl_unmarshalShard ho.shards.nodup (by simp)]
  cases hs : m.lookup s
  case none => simp [ho.shards.mem_iff, Finmap.lookup_eq_none.mp hs]
  case some owners =>
    have hv := ho.owners ⟨s, owners⟩ <| Finmap.lookup_eq_some_iff.mp hs
    have hm : s ∈ o.shards := ho.shards.mem_iff.mpr <| Finmap.mem_of_lookup_eq_some hs
    by_cases he : owners = ∅
    case pos => simp [he, hv.eq_nil_iff.mpr he]
    case neg =>
      have hl : o.owners s ≠ [] := hv.eq_nil_iff.not.mpr he
      have hf := hv.foldl_insert_eq (f := fun n => (owners.lookup n).getD 0) fun h => by rw [h]; rfl
      simp [hm, he, hl, hf]

theorem unmarshal_marshalStatus_iff (ho : o.Visits m) :
    unmarshalStatus (marshalStatus o m) = m ↔ ∀ e ∈ m.entries, e.2 ≠ ∅ where
  mp h e he hn := by
    have hu := unmarshal_marshalStatus (s := e.1) ho
    rw [h, Finmap.lookup_eq_some_iff.mpr he, hn] at hu
    simp at hu
  mpr h := by
    refine Finmap.ext_lookup fun s => ?_
    rw [unmarshal_marshalStatus ho]
    cases hs : m.lookup s
    case none => rfl
    case some owners => simpa using h ⟨s, owners⟩ <| Finmap.lookup_eq_some_iff.mp hs

end Status

theorem unmarshal_marshal_iff {d : Data} (hI : I.TimeLaws) (ho : o.Visits (d.shardStatus.getD ∅)) :
    unmarshal I (marshal I o d) = d.normal ↔ d.Restorable := by
  have hn : unmarshalNodeInfo ∘ marshalNodeInfo = id := rfl
  rw [DataOf.ext_iff, Influx.Data.ext_iff]
  simp only [unmarshal, marshal, normal, map_map, hn, map_id, map_eq_self_iff,
    Function.comp_apply, unmarshal_marshalDatabaseInfo_iff hI, unmarshal_marshalStatus_iff ho,
    Option.some.injEq, true_and, and_true]
  exact ⟨fun ⟨⟨h₁, h₂⟩, h₃⟩ => ⟨h₂.symm, h₁, h₃⟩, fun h => ⟨⟨h.databases, h.users.symm⟩, h.status⟩⟩

end Data

namespace Store

theorem restore_persist_iff (s s' : Store) (hI : I.TimeLaws)
    (ho : o.Visits (s.live.shardStatus.getD ∅)) :
    (s.persist I o s.data).map (fun pb => (s'.restore I pb).live) = some s.live.normal
      ↔ s.live.Restorable := by
  simp [persist, read?_data, restore, live_overwrite, Data.unmarshal_marshal_iff hI ho]

theorem standard_timeLaws : Package.standard.TimeLaws where
  marshal_zero := rfl
  marshal_unix v := by
    have h : GoTime.unix v - GoTime.unixEpoch = v.toInt :=
      add_sub_cancel_left GoTime.unixEpoch v.toInt
    simp only [Package.standard, if_neg (GoTime.unix_ne_zero v), h, Int64.ofInt_toInt]
  unmarshal_zero := rfl
  unmarshal_unix h := by simp [Package.standard, h]

theorem restore_persist_threeShards :
    let s := after (.follower (.ascending 1) []) Command.threeShards
    let o := { shards := [2, 3, 1], owners := fun s => if s = 1 then [3] else [s - 1] }
    (s.persist .standard o s.data).map (fun pb => (init.restore .standard pb).live)
      = some s.live.normal :=
  (restore_persist_iff _ _ standard_timeLaws (by decide +kernel)).mpr (by decide +kernel)

-- A snapshot has no users, and no entry for a shard that has lost its last owner.
theorem restore_persist_loses :
    let E := .follower (.ascending 1) []
    let s := after E [.createUser "u" "hash" true]
    let o : StatusOrder := { shards := [], owners := fun _ => [] }
    let t := after E [
      .createDataNode "h1" "t1",
      .createDatabase "db" (some Command.oneReplica),
      .createShardGroup "db" "rp" 0,
      .deleteDataNode 1]
    let p : StatusOrder := { shards := [1], owners := fun _ => [] }
    o.Visits (s.live.shardStatus.getD ∅) ∧ p.Visits (t.live.shardStatus.getD ∅)
      ∧ (s.persist .standard o s.data).map (fun pb => (init.restore .standard pb).live)
        ≠ some s.live.normal
      ∧ (t.persist .standard p t.data).map (fun pb => (init.restore .standard pb).live)
        ≠ some t.live.normal := by
  decide +kernel

end Store
end Meta
