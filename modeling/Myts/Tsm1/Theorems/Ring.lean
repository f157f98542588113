import Myts.Tsm1.Ring
import Myts.Tsm1.Theorems.Cache

open List

namespace Tsm1

theorem Store.write_congr {m p : Store} (h : p.lookup k = m.lookup k) (vs : Values) :
    (∃ e, m.write k vs = .error e ∧ p.write k vs = .error e) ∨
    ∃ new e, m.write k vs = .ok (new, m.insert k e) ∧ p.write k vs = .ok (new, p.insert k e) := by
  rw [Cache.write_eq, Cache.write_eq, h]
  cases Cache.entryWrite (m.lookup k) vs
  case error e => exact .inl ⟨e, rfl, rfl⟩
  case ok r => exact .inr ⟨r.1, r.2, rfl, rfl⟩

namespace Ring

variable {sum64 : Bytes → UInt64} {s : Bytes.Sorter} {r : Ring} {m : Store}

theorem newring_eq_ok (h : newring n = .ok r) :
    0 < n ∧ n ≤ maxPartitions ∧ r = { keysHint := 0, partitions := List.replicate n.toNat ∅ } := by
  rw [newring] at h
  split at h <;> cases h
  case isFalse hn => exact ⟨by omega, by omega, rfl⟩

structure Refines (sum64 : Bytes → UInt64) (r : Ring) (m : Store) : Prop where
  shards : Shards (index sum64) r.partitions m
  home : ∀ k, index sum64 k < r.partitions.length
  hint : 0 ≤ r.keysHint.toInt

theorem toInt_add_one {n : Int64} (h : 0 ≤ n.toInt) (hn : n.toInt + 1 < 2 ^ 63) :
    (n + 1).toInt = n.toInt + 1 := by
  rw [Int64.toInt_add, Int64.toInt_one, Int.bmod_eq_of_le (by omega) (by omega)]

theorem toInt_sub_one {n : Int64} (h : 0 < n) : (n - 1).toInt = n.toInt - 1 := by
  have hn := n.toInt_lt
  rw [Int64.lt_iff_toInt_lt, Int64.toInt_zero] at h
  rw [Int64.toInt_sub, Int64.toInt_one, Int.bmod_eq_of_le (by omega) (by omega)]

namespace Refines

theorem exists_getPartition (h : Refines sum64 r m) (key : Bytes) :
    ∃ p, r.partitions[index sum64 key]? = some p ∧ r.getPartition sum64 key = .ok p := by
  have hp := getElem?_eq_getElem (h.home key)
  exact ⟨_, hp, by rw [getPartition, hp]; rfl⟩

theorem put (h : Refines sum64 r m)
    (hs : Shards (index sum64) (r.partitions.set (index sum64 key) p) m') {n : Int64}
    (hn : 0 ≤ n.toInt) : Refines sum64 { r.putPartition sum64 key p with keysHint := n } m' where
  shards := hs
  home k := by rw [putPartition, length_set]; exact h.home k
  hint := hn

theorem lists_keys (h : Refines sum64 r m) (ho : List.Forall₂ GoMap.Visits r.partitions orders)
    (sorted : Bool) :
    ∃ ks, r.keys s orders sorted = .ok ks ∧ m.Lists sorted ks := by
  have hv := h.shards.visits ho
  -- A key has the same values in its partition as in the map.
  have hk : (List.zipWith Partition.keys r.partitions orders).flatten =
      orders.flatten.filter fun k => m.values k ≠ [] := by
    rw [filter_flatten]
    refine congrArg List.flatten <| ext_getElem (by simp [ho.length_eq]) fun i h₁ h₂ => ?_
    rw [getElem_zipWith, getElem_map, Partition.keys]
    rw [length_zipWith] at h₁
    have hp := getElem?_eq_getElem (l := r.partitions) (i := i) (by omega)
    have ho := ho.get (i := i) (by omega) (by omega)
    refine filter_congr fun k hk => ?_
    have hm := (h.shards.mem_iff hp).mp (ho.mem_iff.mp hk)
    have he : Store.values r.partitions[i] k = m.values k := by
      rw [Store.values, h.shards.lookup hp, if_pos hm.1, Store.values]
    rw [he]
  have hn : (orders.flatten.filter fun k => m.values k ≠ []).Nodup := hv.nodup.filter _
  have hm (k : Bytes) : k ∈ (orders.flatten.filter fun k => m.values k ≠ []) ↔
      m.values k ≠ [] := by
    rw [mem_filter, decide_eq_true_iff, hv.mem_iff, and_iff_right_iff_imp]
    intro hk
    by_contra hc
    exact hk <| by rw [Store.values, Finmap.lookup_eq_none.mpr hc]; rfl
  have hh : ¬r.keysHint < 0 := by
    rw [Int64.lt_iff_toInt_lt]
    exact not_lt.mpr h.hint
  rw [keys, if_neg hh, hk]
  refine ⟨_, rfl, ?_⟩
  generalize (orders.flatten.filter fun k => m.values k ≠ []) = ks at hn hm
  cases sorted
  case false => exact ⟨hn, hm, by simp⟩
  case true =>
    have hn' := (s.perm ks).nodup_iff.mpr hn
    refine ⟨hn', fun k => (s.perm ks).mem_iff.trans (hm k), fun _ => ?_⟩
    exact (s.pairwise ks).imp₂ (fun _ _ => lt_of_le_of_ne) hn'

theorem step (h : Refines sum64 r m) (hn : r.keysHint.toInt + 1 < 2 ^ 63) {op : Op}
    (hp : r.Possible op) :
    ∃ r' result, r.step sum64 s op = .ok (r', result) ∧ m.Answers op result ∧
      Refines sum64 r' (m.apply op) ∧ r'.keysHint.toInt ≤ r.keysHint.toInt + 1 := by
  have hle := (Int.lt_succ r.keysHint.toInt).le
  cases op
  case keys orders sorted =>
    have ⟨ks, hk, hl⟩ := h.lists_keys (s := s) hp sorted
    exact ⟨r, .keys ks, by rw [Ring.step, hk]; rfl, hl, h, hle⟩
  case entry key =>
    have ⟨p, hp, hg⟩ := h.exists_getPartition key
    have hs : r.step sum64 s (.entry key) = .ok (r, .entry (p.lookup key)) := by
      rw [Ring.step, entry, hg]; rfl
    exact ⟨r, _, hs, h.shards.lookup_home hp, h, hle⟩
  case write key values =>
    have ⟨p, hp, hg⟩ := h.exists_getPartition key
    rcases Store.write_congr (h.shards.lookup_home hp) values with
      ⟨e, hm, hw⟩ | ⟨new, e, hm, hw⟩
    case inl =>
      refine ⟨r, .written (.error e), by simp [Ring.step, write, hg, hw]; rfl, ?_, ?_, hle⟩
      · rw [Store.Answers, hm]; rfl
      · rw [Store.apply, hm]; exact h
    case inr =>
      refine ⟨r.putPartition sum64 key (p.insert key e), .written (.ok new),
        by simp [Ring.step, write, hg, hw]; rfl, ?_, ?_, hle⟩
      · rw [Store.Answers, hm]; rfl
      · rw [Store.apply, hm]; exact h.put (h.shards.insert hp) h.hint
  case add key e =>
    have ⟨p, hp, hg⟩ := h.exists_getPartition key
    have ha := toInt_add_one h.hint hn
    exact ⟨_, .done, by rw [Ring.step, add, hg]; rfl, trivial,
      h.put (h.shards.insert hp) (ha ▸ h.hint.trans hle), ha.le⟩
  case remove key =>
    have ⟨p, hp, hg⟩ := h.exists_getPartition key
    have hr : 0 ≤ (if 0 < r.keysHint then r.keysHint - 1 else r.keysHint).toInt ∧
        (if 0 < r.keysHint then r.keysHint - 1 else r.keysHint).toInt ≤ r.keysHint.toInt + 1 := by
      split
      case isTrue hk =>
        rw [toInt_sub_one hk]
        rw [Int64.lt_iff_toInt_lt, Int64.toInt_zero] at hk
        omega
      case isFalse => exact ⟨h.hint, hle⟩
    exact ⟨_, .done, by rw [Ring.step, remove, hg]; rfl, trivial,
      h.put (h.shards.erase hp) hr.1, hr.2⟩

theorem behavesAs (h : Refines sum64 r m) (ops : List Op)
    (hn : r.keysHint.toInt + ops.length < 2 ^ 63) : r.BehavesAs sum64 s m ops := by
  induction ops generalizing r m
  case nil => trivial
  case cons op ops hi =>
    intro hp
    rw [length_cons, Nat.cast_succ] at hn
    have ⟨r', result, hs, ha, hr, hle⟩ := h.step (s := s) (by omega) hp
    exact ⟨r', result, hs, ha, hi hr (by omega)⟩

end Refines

theorem Refines.newring (h : newring n = .ok r) (hk : ∀ k, index sum64 k < n.toNat) :
    Refines sum64 r ∅ := by
  obtain ⟨-, -, rfl⟩ := newring_eq_ok h
  exact { shards := .empty _, home := fun k => by rw [length_replicate]; exact hk k, hint := le_rfl }

-- The ring takes the hash modulo the largest number of partitions, and not modulo its own.
theorem behaves_as_map_iff {n : Int} (h : newring n = .ok r) :
    (∀ ops, ops.length < 2 ^ 63 → r.BehavesAs sum64 s ∅ ops) ↔
      ∀ key, (sum64 key).toNat % 4096 < n.toNat := by
  refine ⟨fun hb key => ?_, fun hk ops ho => (Refines.newring h hk).behavesAs ops ?_⟩
  case refine_2 =>
    obtain ⟨-, -, rfl⟩ := newring_eq_ok h
    rw [Int64.toInt_zero]
    omega
  have ⟨r', result, hs, _⟩ := hb [.entry key] (by simp) trivial
  obtain ⟨-, -, rfl⟩ := newring_eq_ok h
  by_contra hn
  have hg : (List.replicate n.toNat (∅ : Partition))[index sum64 key]? = none :=
    getElem?_eq_none (by rw [length_replicate]; exact Nat.le_of_not_lt hn)
  rw [step, entry, getPartition, hg] at hs
  cases hs

theorem behaves_as_map_eight : ∃ r, newring 8 = .ok r ∧
    ∀ ops, ops.length < 2 ^ 63 → r.BehavesAs (fun _ => 5) .insertion ∅ ops :=
  ⟨_, rfl, (behaves_as_map_iff (n := 8) rfl).mpr fun _ => by decide⟩

-- The comment of `newring` lists 256 as a supported size.
theorem entry_outside_partitions : ∃ r, newring 256 = .ok r ∧
    r.entry (fun _ => 256) [] = Go.panic ∧ ¬r.BehavesAs (fun _ => 256) .insertion ∅ [.entry []] := by
  refine ⟨_, rfl, rfl, fun h => ?_⟩
  have ⟨_, _, hs, _⟩ := h trivial
  cases hs

end Ring

end Tsm1
