import Myts.Tsm1.Cache
import Myts.Tsm1.Theorems.Values

open List

namespace Tsm1

open Series (Ascending last)

theorem Value.size_pos (v : Value) : 0 < v.size := by
  cases v <;> simp [size]

theorem Values.size_eq_zero_iff {a : Values} : a.size = 0 ↔ a = [] := by
  cases a
  case nil => simp [size]
  case cons v a => simp [size, v.2.size_pos.ne']

namespace Entry

theorem newEntryValues_eq_ok (h : newEntryValues vs = .ok e) : e.values = vs := by
  cases vs
  case nil => cases h; rfl
  case cons v vs =>
    rw [newEntryValues] at h
    split at h <;> cases h
    rfl

theorem add_eq_ok {e : Entry} (h : e.add vs = .ok e') : e'.values = e.values ++ vs := by
  rw [add] at h
  split at h <;> cases h
  rfl

end Entry

namespace Store

theorem values_insert {s : Store} :
    values (s.insert k e) k' = if k' = k then e.values else s.values k' := by
  split
  case isTrue h => subst h; rw [values, Finmap.lookup_insert]; rfl
  case isFalse h => rw [values, Finmap.lookup_insert_of_ne _ h, values]

theorem write_cases {s : Store} (h : s.write k vs = .ok (new, s')) :
    ∃ e, s' = s.insert k e ∧ e.values = s.values k ++ vs ∧ (new ↔ k ∉ s) := by
  rw [write] at h
  split at h
  case h_1 e hl =>
    cases he : e.add vs <;> rw [he] at h <;> cases h
    case ok e' =>
      have hk : k ∈ s := Finmap.mem_of_lookup_eq_some hl
      exact ⟨e', rfl, by simp [Entry.add_eq_ok he, values, hl], by simp [hk]⟩
  case h_2 hl =>
    cases he : Entry.newEntryValues vs <;> rw [he] at h <;> cases h
    case ok e =>
      have hk : k ∉ s := Finmap.lookup_eq_none.mp hl
      exact ⟨e, rfl, by simp [Entry.newEntryValues_eq_ok he, values, hl], by simp [hk]⟩

theorem toBool_write {s s' : Store} (h : s'.lookup k = s.lookup k) :
    (s'.write k vs).toBool = (s.write k vs).toBool := by
  rw [write, write, h]
  cases s.lookup k
  case none => cases Entry.newEntryValues vs <;> rfl
  case some e => dsimp only; cases e.add vs <;> rfl

theorem values_deduplicate {s : Store} :
    values (s.deduplicate k) k' =
      if k' = k then Values.deduplicate (s.values k) else s.values k' := by
  rw [deduplicate]
  cases hl : s.lookup k
  case some e =>
    have he : s.values k = e.values := by rw [values, hl]; rfl
    rw [values_insert, he, Entry.deduplicate]
  case none =>
    have hn : s.values k = [] := by rw [values, hl]; rfl
    dsimp only
    split
    case isTrue hk => rw [hk, hn]; rfl
    case isFalse hk => rfl

theorem mem_deduplicate {s : Store} : k' ∈ s.deduplicate k ↔ k' ∈ s := by
  rw [deduplicate]
  cases hl : s.lookup k
  case none => rfl
  case some e =>
    have hk : k ∈ s := Finmap.mem_of_lookup_eq_some hl
    simp only [Finmap.mem_insert, or_iff_right_iff_imp]
    rintro rfl
    exact hk

theorem valuesOf_append {ws ws' : List (Bytes × Values)} :
    History.valuesOf (ws ++ ws') k = History.valuesOf ws k ++ History.valuesOf ws' k := by
  rw [History.valuesOf, filter_append, flatMap_append, History.valuesOf, History.valuesOf]

theorem valuesOf_singleton {w : Bytes × Values} :
    History.valuesOf [w] k = if k = w.1 then w.2 else [] := by
  rw [History.valuesOf, filter_singleton]
  by_cases h : w.1 = k
  case pos => simp [h]
  case neg => simp [h, Ne.symm h]

structure Holds (s : Store) (size : Nat) (writes : List (Bytes × Values)) : Prop where
  last : ∀ k t, last (s.values k) t = last (History.valuesOf writes k) t
  mem_iff : ∀ k, k ∈ s ↔ ∃ w ∈ writes, w.1 = k
  size_iff : size = 0 ↔ ∀ w ∈ writes, w = ([], [])

namespace Holds

variable {s s' : Store} {n : Nat} {writes : List (Bytes × Values)}

theorem empty : Holds ∅ 0 [] where
  last _ _ := rfl
  mem_iff _ := by simp [Finmap.notMem_empty]
  size_iff := by simp

theorem deduplicate (h : Holds s n writes) (k : Bytes) : Holds (s.deduplicate k) n writes where
  last k' t := by
    rw [values_deduplicate, ← h.last]
    split
    case isTrue hk => rw [hk, Values.last_deduplicate]
    case isFalse hk => rfl
  mem_iff k' := by rw [mem_deduplicate, h.mem_iff]
  size_iff := h.size_iff

theorem write (h : Holds s n writes) (hw : s.write k vs = .ok (new, s')) :
    Holds s' (n + (vs.size + if new then k.length else 0)) (writes ++ [(k, vs)]) := by
  obtain ⟨e, rfl, he, hn⟩ := write_cases hw
  constructor
  case last =>
    intro k' t
    rw [values_insert, valuesOf_append, valuesOf_singleton, Series.last_append, ← h.last]
    split
    case isTrue hk => rw [hk, he, Series.last_append]
    case isFalse hk => simp
  case mem_iff =>
    intro k'
    simp [h.mem_iff, or_comm, eq_comm]
  case size_iff =>
    have hk (hs : ∀ w ∈ writes, w = ([], [])) : k ∈ s → k = [] := fun hk => by
      obtain ⟨w, hm, hw⟩ := (h.mem_iff k).mp hk
      rw [← hw, hs w hm]
    rw [Nat.add_eq_zero_iff, Nat.add_eq_zero_iff, h.size_iff, Values.size_eq_zero_iff,
      forall_mem_append, forall_mem_singleton, Prod.mk.injEq]
    refine and_congr_right fun hs => ?_
    rw [and_comm]
    refine and_congr_left fun _ => ?_
    by_cases hm : k ∈ s
    case pos => simp [hn, hk hs hm]
    case neg => simp [hn, hm]

end Holds

end Store

namespace Cache

section Size

theorem not_sub_one (d : UInt64) : ~~~(d - 1) = -d := by
  have h₁ : (1 : UInt64).toBitVec = 1#64 := rfl
  refine UInt64.toBitVec_inj.mp ?_
  rw [UInt64.toBitVec_not, UInt64.toBitVec_sub, UInt64.toBitVec_neg, h₁]
  bv_omega

theorem toNat_ofNat {n : Nat} (h : n < 2 ^ 64) : (UInt64.ofNat n).toNat = n := by
  rw [UInt64.toNat_ofNat', Nat.mod_eq_of_lt h]

theorem toNat_add_ofNat {a : UInt64} {n : Nat} (h : a.toNat + n < 2 ^ 64) :
    (a + .ofNat n).toNat = a.toNat + n := by
  rw [UInt64.toNat_add, toNat_ofNat (by omega), Nat.mod_eq_of_lt h]

theorem decreaseSize_eq {c : Cache} {n : Nat} (h : n ≤ c.size.toNat) :
    c.decreaseSize (.ofNat n) = { c with size := c.size - .ofNat n } ∧
      (c.size - .ofNat n).toNat = c.size.toNat - n := by
  have hl : n < 2 ^ 64 := h.trans_lt c.size.toNat_lt
  have hw : ¬c.size < .ofNat n := by
    rw [UInt64.lt_iff_toNat_lt, toNat_ofNat hl]
    omega
  rw [decreaseSize, not_sub_one, decide_eq_false hw, Bool.or_false, ← UInt64.sub_eq_add_neg,
    UInt64.toNat_sub_of_le _ _ (UInt64.not_lt.mp hw), toNat_ofNat hl]
  exact ⟨rfl, rfl⟩

theorem foldl_add_ofNat (kvs : List (Bytes × Values)) (n : UInt64) :
    kvs.foldl (fun n kv => n + .ofNat kv.2.size) n = n + .ofNat (kvs.map (·.2.size)).sum := by
  induction kvs generalizing n
  case nil => exact (UInt64.add_zero n).symm
  case cons kv kvs hi =>
    rw [foldl_cons, hi, map_cons, sum_cons, UInt64.ofNat_add, UInt64.add_assoc]

theorem addedSize_eq (kvs : List (Bytes × Values)) :
    addedSize kvs = .ofNat (kvs.map (·.2.size)).sum := by
  rw [addedSize, foldl_add_ofNat, UInt64.zero_add]

theorem bytes_writeMulti {m : GoMap Bytes Values} : (Call.writeMulti m ks).bytes =
    ((ks.map fun k => (k, (m.lookup k).getD [])).map (·.2.size)).sum +
      ((ks.map fun k => (k, (m.lookup k).getD [])).map (·.1.length)).sum := by
  rw [map_map, map_map, ← sum_map_add]
  rfl

end Size

def snap (c : Cache) : Snapshot :=
  c.snapshot.getD { store := ∅, size := 0 }

structure Inv (c : Cache) (h : History) : Prop where
  live : c.store.Holds c.size.toNat h.live
  frozen : c.snap.store.Holds c.snap.size.toNat h.flushing
  size : c.snapshotSize = c.snap.size
  taken : c.snapshotting → c.snapshot.isSome

theorem Inv.newCache (n : UInt64) : Inv (newCache n) .empty where
  live := .empty
  frozen := .empty
  size := rfl
  taken := nofun

theorem write_cases (c : Cache) (k : Bytes) (vs : Values) :
    (∃ e, c.write k vs = (c, some e)) ∨ ∃ new store, c.store.write k vs = .ok (new, store) ∧
      c.write k vs = ({ c with
        store, size := c.size + .ofNat (vs.size + if new then k.length else 0) }, none) := by
  rw [write]
  dsimp only
  cases c.limit (.ofNat vs.size)
  case some e => exact .inl ⟨e, rfl⟩
  case none =>
    rcases c.store.write k vs with e | ⟨new, store⟩
    case error => exact .inl ⟨e, rfl⟩
    case ok =>
      refine .inr ⟨new, store, rfl, ?_⟩
      cases new
      · rfl
      · rw [if_pos rfl, UInt64.ofNat_add]
        rfl

theorem toNat_size_write {c : Cache} (hf : c.Fits (.write k vs)) (new : Bool) :
    (c.size + .ofNat (vs.size + if new then k.length else 0)).toNat =
      c.size.toNat + (vs.size + if new then k.length else 0) := by
  rw [Fits, Call.bytes] at hf
  exact toNat_add_ofNat (by split <;> omega)

theorem Inv.write (hi : Inv c h) (hf : c.Fits (.write k vs)) :
    Inv (c.write k vs).1 (h.step c (.write k vs)) := by
  rw [History.step]
  rcases write_cases c k vs with ⟨e, he⟩ | ⟨new, store, hw, he⟩ <;> rw [he]
  case inl => exact hi
  case inr => exact { hi with live := toNat_size_write hf new ▸ hi.live.write hw }

theorem foldl_writeKey {kvs : List (Bytes × Values)} {c : Cache} (err : Option CacheError)
    (hn : (kvs.map (·.1)).Nodup) (hs : c.size.toNat = n + (kvs.map (·.2.size)).sum)
    (hr : c.size.toNat + (kvs.map (·.1.length)).sum < 2 ^ 64) (h : c.store.Holds n ws) :
    ∃ store size, (kvs.foldl writeKey (c, err)).1 = { c with store, size } ∧
      store.Holds size.toNat (ws ++ kvs.filter fun kv => (c.store.write kv.1 kv.2).toBool) := by
  induction kvs generalizing c err n ws
  case nil =>
    have hs : c.size.toNat = n := by simpa using hs
    exact ⟨c.store, c.size, rfl, by simpa [hs] using h⟩
  case cons kv kvs hi =>
    rw [map_cons, nodup_cons] at hn
    rw [map_cons, sum_cons] at hs hr
    rw [foldl_cons, filter_cons]
    cases hw : c.store.write kv.1 kv.2
    case error e =>
      have ⟨hd, hsub⟩ := decreaseSize_eq (c := c) (n := kv.2.size) (by omega)
      have he : writeKey (c, err) kv = ({ c with size := c.size - .ofNat kv.2.size }, some e) := by
        rw [writeKey, hw]
        exact congrArg (·, some e) hd
      rw [he]
      exact hi _ hn.2 (by dsimp only; omega) (by dsimp only; omega) h
    case ok r =>
      obtain ⟨new, store⟩ := r
      have he : writeKey (c, err) kv =
          ({ c with store, size := c.size + .ofNat (if new then kv.1.length else 0) }, err) := by
        rw [writeKey, hw]
        cases new
        · exact congrArg (fun size => ({ c with store, size }, err)) (UInt64.add_zero _).symm
        · rfl
      have hl : (if new then kv.1.length else 0) ≤ kv.1.length := by split <;> omega
      have hadd : (c.size + .ofNat (if new then kv.1.length else 0)).toNat =
          c.size.toNat + if new then kv.1.length else 0 := toNat_add_ofNat (by omega)
      have hf : (kvs.filter fun kv => (store.write kv.1 kv.2).toBool) =
          kvs.filter fun kv => (c.store.write kv.1 kv.2).toBool := by
        obtain ⟨e, rfl, -, -⟩ := Store.write_cases hw
        refine filter_congr fun kv' hkv => Store.toBool_write ?_
        refine Finmap.lookup_insert_of_ne _ fun hk => hn.1 ?_
        exact hk ▸ mem_map_of_mem hkv
      have ht : (Except.ok (new, store) : Except CacheError (Bool × Store)).toBool = true := rfl
      rw [he, if_pos ht, ← hf, append_cons]
      exact hi _ hn.2 (by dsimp only; omega) (by dsimp only; omega) (h.write hw)

theorem Inv.writeMulti (hi : Inv c h) {m : GoMap Bytes Values} (hv : m.Visits ks)
    (hf : c.Fits (.writeMulti m ks)) :
    Inv (c.writeMulti m ks).1 (h.step c (.writeMulti m ks)) := by
  have hn : ((ks.map fun k => (k, (m.lookup k).getD [])).map (·.1)).Nodup := by
    rw [map_map]
    simpa [Function.comp_def] using hv.nodup
  rw [Fits, bytes_writeMulti] at hf
  rw [History.step, History.accept, History.accepted, Cache.writeMulti]
  generalize (ks.map fun k => (k, (m.lookup k).getD [])) = kvs at hn hf
  cases hl : c.limit (addedSize kvs)
  case some e => simpa using hi
  case none =>
    have ha : (c.size + addedSize kvs).toNat = c.size.toNat + (kvs.map (·.2.size)).sum := by
      rw [addedSize_eq]
      exact toNat_add_ofNat (by omega)
    have ⟨store, size, hc, hh⟩ := foldl_writeKey none (c := c.increaseSize (addedSize kvs)) hn ha
      (by rw [increaseSize, ha]; omega) hi.live
    dsimp only
    rw [if_pos rfl, hc]
    exact { hi with live := hh }

theorem Inv.retries_iff (hi : Inv c h) : 0 < c.snap.size ↔ h.Retries := by
  rw [UInt64.lt_iff_toNat_lt, UInt64.toNat_zero, Nat.pos_iff_ne_zero, ne_eq, hi.frozen.size_iff,
    History.Retries]
  push Not
  rfl

theorem takeSnapshot_cases (c : Cache) :
    (c.snapshotting ∧ c.takeSnapshot = (c, .error .snapshotInProgress)) ∨
    (0 < c.snap.size ∧
      c.takeSnapshot = ({ c with snapshot := some c.snap, snapshotting := true }, .ok c.snap)) ∨
    (c.snap.size = 0 ∧
      let s := { store := c.store, size := c.totalSize }
      c.takeSnapshot = ({ c with
        size := 0, snapshotSize := c.totalSize, store := ∅, snapshot := some s,
        snapshotting := true }, .ok s)) := by
  rw [takeSnapshot]
  cases c.snapshotting
  case true => exact .inl ⟨rfl, rfl⟩
  case false =>
    by_cases h : 0 < c.snap.size
    case pos => exact .inr <| .inl ⟨h, if_pos h⟩
    case neg => exact .inr <| .inr ⟨UInt64.le_zero_iff.mp (UInt64.not_lt.mp h), if_neg h⟩

theorem Inv.takeSnapshot (hi : Inv c h) : Inv c.takeSnapshot.1 (h.step c .takeSnapshot) := by
  rw [History.step]
  rcases takeSnapshot_cases c with ⟨-, he⟩ | ⟨hs, he⟩ | ⟨hs, he⟩ <;> rw [he]
  · exact hi
  · change Inv _ h.takeSnapshot
    rw [History.takeSnapshot, if_pos (hi.retries_iff.mp hs)]
    exact { hi with taken := fun _ => rfl }
  · change Inv _ h.takeSnapshot
    have hz : ¬0 < c.snap.size := by simp [hs]
    rw [History.takeSnapshot, if_neg fun hr => hz <| hi.retries_iff.mpr hr]
    have ht : c.totalSize = c.size := by rw [totalSize, hi.size, hs, UInt64.add_zero]
    exact { live := .empty, frozen := ht ▸ hi.live, size := rfl, taken := fun _ => rfl }

theorem Inv.clearSnapshot (hi : Inv c h) (hs : c.clearSnapshot success = .ok c') :
    Inv c' (h.step c (.clearSnapshot success)) := by
  rw [Cache.clearSnapshot, Go.bind_eq_ok] at hs
  obtain ⟨s, -, hs⟩ := hs
  cases success <;> cases hs
  case false => exact { hi with taken := nofun }
  case true => exact { live := hi.live, frozen := .empty, size := rfl, taken := nofun }

theorem snap_takeSnapshot {c : Cache} (hs : c.takeSnapshot.2 = .ok s) :
    c.takeSnapshot.1.snap = s := by
  rcases takeSnapshot_cases c with ⟨-, he⟩ | ⟨-, he⟩ | ⟨-, he⟩ <;> rw [he] at hs ⊢ <;> cases hs
  · rfl
  · rfl

theorem snap_values (c : Cache) (k : Bytes) :
    (c.values k).1.snap = { c.snap with store := c.snap.store.deduplicate k } := by
  rw [snap, snap, values]
  cases c.snapshot <;> rfl

theorem values_eq (c : Cache) (k : Bytes) : (c.values k).2 = Values.deduplicate
    (Values.deduplicate (c.snap.store.values k) ++ Values.deduplicate (c.store.values k)) := by
  have hd (s : Store) : (s.deduplicate k).values k = Values.deduplicate (s.values k) := by
    rw [Store.values_deduplicate, if_pos rfl]
  rw [values, ← hd, ← hd, snap]
  cases c.snapshot <;> rfl

theorem Inv.values (hi : Inv c h) (k : Bytes) : Inv (c.values k).1 h where
  live := hi.live.deduplicate k
  frozen := snap_values c k ▸ hi.frozen.deduplicate k
  size := snap_values c k ▸ hi.size
  taken := fun ht => by
    rw [Cache.values, Option.isSome_map]
    exact hi.taken ht

theorem ascending_values (c : Cache) (k : Bytes) : Ascending (c.values k).2 := by
  rw [values_eq]
  exact Values.ascending_deduplicate _

theorem Inv.last_values (hi : Inv c h) : last (c.values k).2 t = last (h.values k) t := by
  rw [values_eq, Values.last_deduplicate, Series.last_append, Values.last_deduplicate,
    Values.last_deduplicate, hi.live.last, hi.frozen.last, History.values,
    Store.valuesOf_append, Series.last_append]

theorem Inv.step (hi : Inv c h) {call : Call} (hv : call.Valid) (hf : c.Fits call)
    (hs : c.step call = .ok c') : Inv c' (h.step c call) := by
  cases call
  case write => cases hs; exact hi.write hf
  case writeMulti => cases hs; exact hi.writeMulti hv hf
  case values k => cases hs; exact hi.values k
  case deleteRange => exact hv.elim
  case takeSnapshot => cases hs; exact hi.takeSnapshot
  case clearSnapshot => exact hi.clearSnapshot hs

theorem exists_step (c : Cache) {call : Call}
    (hc : ∀ b, call = .clearSnapshot b → c.snapshot.isSome) : ∃ c', c.step call = .ok c' := by
  cases call
  case clearSnapshot b =>
    obtain ⟨s, hs⟩ := Option.isSome_iff_exists.mp <| hc b rfl
    rw [step, clearSnapshot, hs]
    cases b <;> exact ⟨_, rfl⟩
  all_goals exact ⟨_, rfl⟩

theorem snapshot_foldl_writeKey (kvs : List (Bytes × Values)) (s : Cache × Option CacheError) :
    (kvs.foldl writeKey s).1.snapshot = s.1.snapshot := by
  induction kvs generalizing s
  case nil => rfl
  case cons kv kvs hi =>
    rw [foldl_cons, hi, writeKey]
    rcases s.1.store.write kv.1 kv.2 with _ | ⟨_ | _, _⟩ <;> rfl

theorem snapshot_writeMulti {c : Cache} : (c.writeMulti m ks).1.snapshot = c.snapshot := by
  rw [writeMulti]
  split
  case h_1 => rfl
  case h_2 => exact snapshot_foldl_writeKey ..

theorem isSome_step {c : Cache} {call : Call} (hv : call.Valid) (hs : c.step call = .ok c')
    (hc : c.snapshot.isSome) : c'.snapshot.isSome := by
  cases call
  case write k vs =>
    cases hs
    rcases write_cases c k vs with ⟨e, he⟩ | ⟨new, store, -, he⟩ <;> rw [he] <;> exact hc
  case writeMulti => cases hs; rw [snapshot_writeMulti]; exact hc
  case values k => cases hs; rw [values, Option.isSome_map]; exact hc
  case deleteRange => exact hv.elim
  case takeSnapshot =>
    cases hs
    rcases takeSnapshot_cases c with ⟨-, he⟩ | ⟨-, he⟩ | ⟨-, he⟩ <;> rw [he]
    · exact hc
    · rfl
    · rfl
  case clearSnapshot success =>
    rw [step, clearSnapshot, Go.bind_eq_ok] at hs
    obtain ⟨s, -, hs⟩ := hs
    cases success <;> cases hs
    case false => exact hc
    case true => rfl

theorem isSome_takeSnapshot (hi : Inv c h) : c.takeSnapshot.1.snapshot.isSome := by
  rcases takeSnapshot_cases c with ⟨hs, he⟩ | ⟨-, he⟩ | ⟨-, he⟩ <;> rw [he]
  · exact hi.taken hs
  · rfl
  · rfl

theorem exists_run {calls : List Call} (hi : Inv c h) (hv : ∀ call ∈ calls, call.Valid)
    (hf : Run.All next Fits c calls) (ht : Taken calls ∨ c.snapshot.isSome) :
    ∃ c' h', calls.foldlM run (c, h) = .ok (c', h') ∧ Inv c' h' := by
  induction calls generalizing c h
  case nil => exact ⟨c, h, rfl, hi⟩
  case cons call calls ih =>
    obtain ⟨c₁, hs⟩ : ∃ c₁, c.step call = .ok c₁ := by
      refine exists_step c fun b hb => ht.resolve_left ?_
      rw [hb]
      exact id
    have hr : run (c, h) call = .ok (c₁, h.step c call) := by rw [run, hs]; rfl
    have hn : c.next call = c₁ := by rw [next, hs]; rfl
    have hv₀ := hv call mem_cons_self
    rw [foldlM_cons, hr]
    refine ih (hi.step hv₀ hf.1 hs) (fun call hc => hv call <| mem_cons_of_mem _ hc)
      (hn ▸ hf.2) ?_
    rcases ht with ht | ht
    case inr => exact .inr <| isSome_step hv₀ hs ht
    case inl =>
      cases call
      case takeSnapshot => cases hs; exact .inr <| isSome_takeSnapshot hi
      case clearSnapshot => cases ht
      case deleteRange => exact hv₀.elim
      all_goals exact .inl ht

-- The values of a key are those of the accepted writes, of which the last ones win. The snapshot
-- that is handed out next has those of the writes that are part of it.
theorem values_last_write_wins {maxSize : UInt64} {calls : List Call}
    (hv : ∀ call ∈ calls, call.Valid) (ht : Taken calls)
    (hf : Run.All next Fits (newCache maxSize) calls) :
    ∃ c h, calls.foldlM run (newCache maxSize, .empty) = .ok (c, h) ∧
      (∀ key, Ascending (c.values key).2 ∧ ∀ t, last (c.values key).2 t = last (h.values key) t) ∧
      ∀ s, c.takeSnapshot.2 = .ok s →
        ∀ key t, last (s.store.values key) t =
          last (History.valuesOf h.takeSnapshot.flushing key) t := by
  obtain ⟨c, h, hr, hi⟩ := exists_run (Inv.newCache maxSize) hv hf (.inl ht)
  refine ⟨c, h, hr, fun key => ⟨ascending_values c key, fun t => hi.last_values⟩, ?_⟩
  intro s hs key t
  have ht := hi.takeSnapshot
  rw [History.step, hs] at ht
  rw [← snap_takeSnapshot hs]
  exact ht.frozen.last key t

def retried : List Call :=
  [.write [1] [(5, .float 0)], .takeSnapshot, .clearSnapshot false,
    .writeMulti ((∅ : GoMap Bytes Values).insert [1] [(5, .float 1), (3, .float 0)]) [[1]],
    .values [1], .takeSnapshot, .write [1] [(4, .float 2)], .clearSnapshot true]

theorem values_last_write_wins_retried :
    (∃ c h, retried.foldlM run (newCache 0, .empty) = .ok (c, h) ∧ (∀ key,
      Ascending (c.values key).2 ∧ ∀ t, last (c.values key).2 t = last (h.values key) t) ∧
      ∀ s, c.takeSnapshot.2 = .ok s → ∀ key t, last (s.store.values key) t =
        last (History.valuesOf h.takeSnapshot.flushing key) t) :=
  values_last_write_wins (by simp [retried, Call.Valid]; decide) trivial (by decide +kernel)

section Order

def entryWrite (e : Option Entry) (values : Values) : Except CacheError (Bool × Entry) :=
  match e with
  | some e => (e.add values).map (false, ·)
  | none => (Entry.newEntryValues values).map (true, ·)

theorem write_eq (s : Store) (k : Bytes) (vs : Values) :
    s.write k vs = (entryWrite (s.lookup k) vs).map fun r => (r.1, s.insert k r.2) := by
  rw [Store.write]
  cases s.lookup k <;> dsimp only [entryWrite]
  case none => cases Entry.newEntryValues vs <;> rfl
  case some e => cases e.add vs <;> rfl

theorem entryWrite_eq_error (h : entryWrite e vs = .error err) : err = .fieldTypeConflict := by
  have ha {e : Entry} (h : e.add vs = .error err) : err = .fieldTypeConflict := by
    rw [Entry.add] at h
    split at h <;> cases h
    rfl
  have hn (h : Entry.newEntryValues vs = .error err) : err = .fieldTypeConflict := by
    cases vs
    case nil => cases h
    case cons v vs =>
      rw [Entry.newEntryValues] at h
      split at h <;> cases h
      rfl
  cases e <;> rw [entryWrite] at h
  case none => cases hv : Entry.newEntryValues vs <;> rw [hv] at h <;> cases h; exact hn hv
  case some e => cases hv : e.add vs <;> rw [hv] at h <;> cases h; exact ha hv

theorem writeKey_eq (c : Cache) (err : Option CacheError) (kv : Bytes × Values) :
    writeKey (c, err) kv =
      match entryWrite (c.store.lookup kv.1) kv.2 with
      | .error _ => (c.decreaseSize (.ofNat kv.2.size), some .fieldTypeConflict)
      | .ok r => ({ c with
          store := c.store.insert kv.1 r.2
          size := c.size + .ofNat (if r.1 then kv.1.length else 0) }, err) := by
  rw [writeKey, write_eq]
  rcases h : entryWrite (c.store.lookup kv.1) kv.2 with e | ⟨_ | _, e⟩
  case error => rw [entryWrite_eq_error h]; rfl
  case ok.false =>
    exact congrArg (fun size => ({ c with store := c.store.insert kv.1 e, size }, err))
      (UInt64.add_zero _).symm
  case ok.true => rfl

theorem writeKey_comm {x y : Bytes × Values} (hk : x.1 ≠ y.1)
    (hn : (writeKey (writeKey (c, err) x) y).2 = none) :
    writeKey (writeKey (c, err) x) y = writeKey (writeKey (c, err) y) x := by
  have hl {s : Store} {e} : (s.insert x.1 e).lookup y.1 = s.lookup y.1 :=
    Finmap.lookup_insert_of_ne s hk.symm
  have hl' {s : Store} {e} : (s.insert y.1 e).lookup x.1 = s.lookup x.1 :=
    Finmap.lookup_insert_of_ne s hk
  rcases hx : entryWrite (c.store.lookup x.1) x.2 with e | r <;>
    rcases hy : entryWrite (c.store.lookup y.1) y.2 with e' | r' <;>
    simp only [writeKey_eq, hx, hy, hl, decreaseSize, reduceCtorEq] at hn
  simp only [writeKey_eq, hx, hy, hl, hl', Prod.mk.injEq, Cache.mk.injEq, and_true, true_and]
  exact ⟨by rw [UInt64.add_assoc, UInt64.add_comm (.ofNat _), ← UInt64.add_assoc],
    Finmap.insert_insert_of_ne _ hk⟩

theorem eq_none_of_foldl_writeKey {kvs : List (Bytes × Values)}
    (h : (kvs.foldl writeKey s).2 = none) : s.2 = none := by
  induction kvs generalizing s
  case nil => exact h
  case cons kv kvs hi =>
    have hs := hi h
    rw [writeKey] at hs
    split at hs
    · cases hs
    · exact hs

theorem foldl_writeKey_perm {kvs kvs' : List (Bytes × Values)} (h : kvs.Perm kvs')
    (hn : (kvs.map (·.1)).Nodup) (he : (kvs.foldl writeKey s).2 = none) :
    kvs.foldl writeKey s = kvs'.foldl writeKey s := by
  induction h generalizing s
  case nil => rfl
  case cons x l l' h hi => exact hi (nodup_cons.mp hn).2 he
  case swap x y l =>
    simp only [map_cons, nodup_cons, mem_cons] at hn
    simp only [foldl_cons] at he ⊢
    rw [writeKey_comm (fun h => hn.1 <| .inl h) (eq_none_of_foldl_writeKey he)]
  case trans l₁ l₂ l₃ h₁ h₂ hi₁ hi₂ =>
    rw [hi₁ hn he]
    exact hi₂ ((h₁.map _).nodup_iff.mp hn) (hi₁ hn he ▸ he)

theorem writeMulti_eq {c : Cache} {m : GoMap Bytes Values} (h : m.Visits ks) (h' : m.Visits ks')
    (he : (c.writeMulti m ks).2 = none) : c.writeMulti m ks = c.writeMulti m ks' := by
  have hp : ks.Perm ks' := Quotient.exact <| h.trans h'.symm
  have hm := hp.map fun k => (k, (m.lookup k).getD [])
  have hn : ((ks.map fun k => (k, (m.lookup k).getD [])).map (·.1)).Nodup := by
    rw [map_map]
    simpa [Function.comp_def] using h.nodup
  rw [writeMulti] at he ⊢
  rw [writeMulti]
  generalize (ks.map fun k => (k, (m.lookup k).getD [])) = kvs at hm hn he
  generalize (ks'.map fun k => (k, (m.lookup k).getD [])) = kvs' at hm
  have ha : addedSize kvs' = addedSize kvs := by
    rw [addedSize_eq, addedSize_eq, (hm.map _).sum_eq]
  rw [ha]
  cases hl : c.limit (addedSize kvs)
  case some => rfl
  case none =>
    rw [hl] at he
    exact foldl_writeKey_perm hm hn he

end Order

end Cache

end Tsm1
