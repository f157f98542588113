import Myts.Tsm1.Theorems.Cache

open List

namespace Tsm1

namespace Values

theorem size_append (a b : Values) : size (a ++ b) = a.size + b.size := by
  rw [size, map_append, sum_append, size, size]

theorem size_le_of_sublist {a b : Values} (h : a.Sublist b) : a.size ≤ b.size :=
  (h.map _).sum_le_sum fun _ _ => Nat.zero_le _

theorem go_sublist (v : Int64 × Value) (a : Values) : (compact.go v a).Sublist (v :: a) := by
  induction a generalizing v
  case nil => exact .refl _
  case cons w a hi =>
    rw [compact.go]
    split
    · exact (hi w).cons_cons v
    · exact (hi w).cons v

theorem size_deduplicate_le (a : Values) : size (deduplicate a) ≤ a.size := by
  rw [deduplicate]
  split
  case isTrue => exact le_rfl
  case isFalse =>
    have hp : size (a.insertionSort (·.1 ≤ ·.1)) = a.size :=
      ((a.perm_insertionSort _).map _).sum_eq
    rw [← hp]
    cases a.insertionSort (·.1 ≤ ·.1)
    case nil => exact le_rfl
    case cons => exact size_le_of_sublist (go_sublist ..)

theorem exclude_sublist (a : Values) (lo hi : Int64) : (exclude a lo hi).Sublist a := by
  rw [exclude]
  split
  case h_1 => exact .refl a
  case h_2 rmin rmax hr =>
    have hs := (List.Sublist.refl (a.take rmin)).append
      (drop_sublist_drop_left a (findRange_le hr))
    rwa [take_append_drop] at hs

end Values

namespace Store

variable {s s' : Store}

theorem part_eq (k : Bytes) : s.part (fun k e => k.length + Entry.size e) k =
    if k ∈ s then k.length + (s.values k).size else 0 := by
  rw [GoMap.part, values]
  cases hl : s.lookup k
  case none => rw [if_neg (Finmap.lookup_eq_none.mp hl)]; rfl
  case some e => rw [if_pos (Finmap.mem_of_lookup_eq_some hl)]; rfl

theorem part_of_lookup (h : s.lookup k = some e) :
    s.part (fun k e => k.length + Entry.size e) k = k.length + e.size := by
  rw [GoMap.part, h]
  rfl

theorem weight_insert (h : s.lookup k = some e) :
    weight (s.insert k f) + e.size = s.weight + f.size := by
  have ht := GoMap.total_insert (f := fun k e => k.length + Entry.size e) (m := s) (k := k) (v := f)
  rw [part_of_lookup h] at ht
  rw [weight, weight]
  omega

theorem weight_erase (h : s.lookup k = some e) :
    weight (s.erase k) + (k.length + e.size) = s.weight := by
  rw [← part_of_lookup h]
  exact GoMap.total_erase

theorem weight_write (h : s.write k vs = .ok (new, s')) :
    s'.weight = s.weight + (vs.size + if new then k.length else 0) := by
  obtain ⟨e, rfl, he, hn⟩ := write_cases h
  have ht := GoMap.total_insert (f := fun k e => k.length + Entry.size e) (m := s) (k := k) (v := e)
  rw [part_eq, Entry.size, he, Values.size_append] at ht
  rw [weight, weight]
  by_cases hk : k ∈ s
  case pos => simp only [hk, hn, if_true, not_true_eq_false, if_false] at ht ⊢; omega
  case neg =>
    have hv : s.values k = [] := by rw [values, Finmap.lookup_eq_none.mpr hk]; rfl
    simp only [hk, hn, if_true, not_false_eq_true, if_false, hv, Values.size, map_nil,
      sum_nil] at ht ⊢
    omega

theorem weight_deduplicate_le (s : Store) (k : Bytes) : (s.deduplicate k).weight ≤ s.weight := by
  rw [deduplicate]
  cases hl : s.lookup k
  case none => exact le_rfl
  case some e =>
    have hi := weight_insert hl (f := e.deduplicate)
    have hs : e.deduplicate.size ≤ e.size := Values.size_deduplicate_le e.values
    dsimp only
    omega

theorem values_eq_nil_of_weight (h : s.weight = 0) (k : Bytes) : s.values k = [] := by
  have hp := GoMap.part_le_total (f := fun k e => k.length + Entry.size e) (m := s) k
  by_cases hk : k ∈ s
  case neg => rw [values, Finmap.lookup_eq_none.mpr hk]; rfl
  case pos =>
    rw [part_eq, if_pos hk] at hp
    exact Values.size_eq_zero_iff.mp (by rw [weight] at h; omega)

end Store

namespace Cache

variable {c : Cache}

structure Covers (c : Cache) (due room : Nat) : Prop where
  unwrapped : c.wrapped = false
  bound : c.size.toNat + c.snapshotSize.toNat + room < 2 ^ 64
  covered : c.store.weight + due ≤ c.size.toNat
  frozen : c.snap.store.weight ≤ c.snapshotSize.toNat
  size : c.snap.size = c.snapshotSize

namespace Covers

theorem newCache (n : UInt64) : (newCache n).Covers 0 0 where
  unwrapped := rfl
  bound := Nat.two_pow_pos 64
  covered := le_rfl
  frozen := le_rfl
  size := rfl

theorem update (h : c.Covers due room) {n : UInt64}
    (hn : n.toNat + c.snapshotSize.toNat + room' < 2 ^ 64) (hw : s.weight + due' ≤ n.toNat) :
    { c with size := n, store := s }.Covers due' room' where
  unwrapped := h.unwrapped
  bound := hn
  covered := hw
  frozen := h.frozen
  size := h.size

theorem mono (h : c.Covers due room) (hr : room' ≤ room) : c.Covers due room' :=
  { h with bound := by have := h.bound; omega }

theorem increase (h : c.Covers due (n + room)) :
    (c.increaseSize (.ofNat n)).Covers (n + due) room := by
  have hb := h.bound
  have hc := h.covered
  have hi : (c.size + .ofNat n).toNat = c.size.toNat + n := toNat_add_ofNat (by omega)
  exact h.update (by rw [hi]; omega) (by rw [hi]; omega)

theorem decrease {n : Nat} (h : c.Covers (n + due) room) :
    (c.decreaseSize (.ofNat n)).Covers due room := by
  have hb := h.bound
  have hc := h.covered
  have ⟨he, hn⟩ := decreaseSize_eq (c := c) (n := n) (by omega)
  rw [he]
  exact h.update (by rw [hn]; omega) (by rw [hn]; omega)

theorem store (h : c.Covers (n + due) room) (hs : s.weight = c.store.weight + n) :
    { c with store := s }.Covers due room where
  unwrapped := h.unwrapped
  bound := h.bound
  covered := by rw [hs, Nat.add_assoc]; exact h.covered
  frozen := h.frozen
  size := h.size

theorem write (h : c.Covers 0 0) (hf : c.Fits (.write k vs)) : (c.write k vs).1.Covers 0 0 := by
  rcases write_cases c k vs with ⟨e, he⟩ | ⟨new, s, hw, he⟩ <;> rw [he]
  case inl => exact h
  case inr =>
    have hs := Store.weight_write hw
    have hn := toNat_size_write hf new
    have hc := h.covered
    rw [Fits, Call.bytes] at hf
    exact h.update (by rw [hn]; split <;> omega) (by rw [hn, hs]; omega)

theorem writeKey (h : c.Covers (kv.2.size + due) (kv.1.length + room)) :
    (writeKey (c, err) kv).1.Covers due room := by
  rw [Cache.writeKey]
  cases hw : c.store.write kv.1 kv.2
  case error e => exact h.decrease.mono (Nat.le_add_left ..)
  case ok r =>
    obtain ⟨new, s⟩ := r
    have hs := Store.weight_write hw
    cases new
    case false => exact (h.store hs).mono (Nat.le_add_left ..)
    case true =>
      have hi := h.increase
      rw [← Nat.add_assoc, Nat.add_comm kv.1.length] at hi
      exact hi.store hs

theorem foldl_writeKey {kvs : List (Bytes × Values)}
    (h : c.Covers (kvs.map (·.2.size)).sum (kvs.map (·.1.length)).sum) :
    (kvs.foldl Cache.writeKey (c, err)).1.Covers 0 0 := by
  induction kvs generalizing c err
  case nil => exact h
  case cons kv kvs hi =>
    rw [foldl_cons]
    exact hi h.writeKey

theorem writeMulti (h : c.Covers 0 0) (hf : c.Fits (.writeMulti m ks)) :
    (c.writeMulti m ks).1.Covers 0 0 := by
  rw [Fits, bytes_writeMulti] at hf
  rw [Cache.writeMulti]
  generalize (ks.map fun k => (k, (m.lookup k).getD [])) = kvs at hf
  cases c.limit (addedSize kvs)
  case some e => exact h
  case none =>
    have hr : c.Covers 0 ((kvs.map (·.2.size)).sum + (kvs.map (·.1.length)).sum) :=
      { h with bound := by omega }
    rw [addedSize_eq]
    exact hr.increase.foldl_writeKey

theorem values (h : c.Covers 0 0) (k : Bytes) : (c.values k).1.Covers 0 0 := by
  have hs := Store.weight_deduplicate_le
  have hd := snap_values c k
  exact {
    unwrapped := h.unwrapped
    bound := h.bound
    covered := (hs c.store k).trans h.covered
    frozen := hd ▸ (hs c.snap.store k).trans h.frozen
    size := hd ▸ h.size }

theorem deleteKey (h : c.Covers 0 0) (k : Bytes) : (deleteKey lo hi c k).Covers 0 0 := by
  rw [Cache.deleteKey]
  cases hl : c.store.lookup k
  case none => exact h
  case some e =>
    have he := Store.weight_erase hl
    have hn : UInt64.ofNat e.size + .ofNat k.length = .ofNat (k.length + e.size) := by
      rw [← UInt64.ofNat_add, Nat.add_comm]
    dsimp only
    rw [hn]
    -- The size covers what is left of the store and what is about to be subtracted.
    have hd : { c with store := c.store.erase k }.Covers (k.length + e.size + 0) 0 :=
      { h with covered := he.le.trans h.covered }
    split
    case isTrue => exact hd.decrease
    case isFalse =>
      split
      case isTrue => exact hd.decrease
      case isFalse =>
        have hf : (e.filter lo hi).size ≤ e.size :=
          Values.size_le_of_sublist (Values.exclude_sublist ..)
        have hw := Store.weight_insert hl (f := e.filter lo hi)
        have hs : UInt64.ofNat e.size - .ofNat (e.filter lo hi).size =
            .ofNat (e.size - (e.filter lo hi).size) := by
          conv_lhs => rw [← Nat.sub_add_cancel hf, UInt64.ofNat_add, UInt64.add_sub_cancel]
        have hr : { c with store := c.store.insert k (e.filter lo hi) }.Covers
            (e.size - (e.filter lo hi).size + 0) 0 :=
          { h with covered := by have := h.covered; dsimp only; omega }
        rw [hs]
        exact hr.decrease

theorem deleteRange (h : c.Covers 0 0) (keys : List Bytes) :
    (c.deleteRange keys lo hi).Covers 0 0 := by
  induction keys generalizing c
  case nil => exact h
  case cons k keys ih => exact ih (h.deleteKey k)

theorem takeSnapshot (h : c.Covers 0 0) : c.takeSnapshot.1.Covers 0 0 := by
  rcases takeSnapshot_cases c with ⟨-, he⟩ | ⟨-, he⟩ | ⟨hz, he⟩ <;> rw [he]
  · exact h
  · exact ⟨h.unwrapped, h.bound, h.covered, h.frozen, h.size⟩
  · have ht : c.totalSize = c.size := by rw [totalSize, ← h.size, hz, UInt64.add_zero]
    rw [ht]
    exact {
      unwrapped := h.unwrapped
      bound := by simpa using c.size.toNat_lt
      covered := le_rfl
      frozen := h.covered
      size := rfl }

theorem clearSnapshot (h : c.Covers 0 0) (success : Bool) :
    (c.next (.clearSnapshot success)).Covers 0 0 := by
  rw [next, step, Cache.clearSnapshot]
  cases hs : c.snapshot <;> rw [Go.deref]
  case none => exact h
  case some s =>
    rw [← hs]
    cases success
    case false => exact ⟨h.unwrapped, h.bound, h.covered, h.frozen, h.size⟩
    case true =>
      exact {
        unwrapped := h.unwrapped
        bound := c.size.toNat_lt
        covered := h.covered
        frozen := le_rfl
        size := rfl }

theorem next (h : c.Covers 0 0) {call : Call} (hf : c.Fits call) : (c.next call).Covers 0 0 := by
  cases call
  case write => exact h.write hf
  case writeMulti => exact h.writeMulti hf
  case values k => exact h.values k
  case deleteRange => exact h.deleteRange _
  case takeSnapshot => exact h.takeSnapshot
  case clearSnapshot => exact h.clearSnapshot _

theorem accounted (h : c.Covers 0 0) : c.Accounted where
  unwrapped := h.unwrapped
  covered := h.covered
  empty hz := by
    have hz : c.size.toNat + c.snapshotSize.toNat = 0 := by
      have ht := congrArg UInt64.toNat hz
      have hb := h.bound
      rwa [totalSize, UInt64.toNat_add, Nat.mod_eq_of_lt (by omega)] at ht
    have hc := h.covered
    have hf := h.frozen
    refine ⟨Store.values_eq_nil_of_weight (by omega), fun s hs => ?_⟩
    rw [snap, hs] at hf
    exact Store.values_eq_nil_of_weight (by dsimp only [Option.getD_some] at hf; omega)

end Covers

theorem accounted_of_fits {maxSize : UInt64} (h : Run next Fits (newCache maxSize) c) :
    c.Accounted :=
  Covers.accounted <| h.invariant (I := (·.Covers 0 0)) (Covers.newCache maxSize) fun h => h.next

theorem accounted_conflict :
    let c := [.write [1] [(5, .float 0), (5, .float 1)], .values [1],
      .writeMulti ((∅ : GoMap Bytes Values).insert [1] [(7, .boolean true)]) [[1]],
      .deleteRange [[1]] 5 5].foldl next (newCache 0)
    c.size = 16 ∧ c.Accounted :=
  ⟨by decide +kernel, accounted_of_fits (.foldl (by decide +kernel))⟩

section Rewritten

def rewrite : List Call :=
  [.write [] [(0, .float 0)], .values []]

def rewrites (n : Nat) : List Call :=
  (List.replicate n rewrite).flatten

def rewritten (n : Nat) : Cache :=
  (rewrites n).foldl next (newCache 0)

def oneValue : Store :=
  (∅ : Store).insert [] { values := [(0, .float 0)], vtype := 1 }

theorem foldl_next_of_run {calls : List Call} (h : calls.foldlM run (c, g) = .ok (c', g')) :
    calls.foldl next c = c' := by
  induction calls generalizing c g
  case nil => cases h; rfl
  case cons call calls hi =>
    rw [foldlM_cons, Go.bind_eq_ok] at h
    obtain ⟨⟨c₁, g₁⟩, hr, h⟩ := h
    rw [run, Go.bind_eq_ok] at hr
    obtain ⟨c₂, hs, hr⟩ := hr
    cases hr
    have hn : c.next call = c₁ := by rw [Cache.next, hs]; rfl
    rw [foldl_cons, hn]
    exact hi h

theorem rewrite_oneValue (n : UInt64) (ws : List (Bytes × Values)) :
    rewrite.foldlM run ({ newCache 0 with size := n, store := oneValue }, ⟨[], ws⟩) =
      .ok ({ newCache 0 with size := n + 16, store := oneValue },
        ⟨[], ws ++ [([], [(0, .float 0)])]⟩) := by
  rfl

theorem run_rewrites (n : Nat) : (rewrites (n + 1)).foldlM run (newCache 0, .empty) =
    .ok ({ newCache 0 with size := .ofNat (16 * (n + 1)), store := oneValue },
      ⟨[], .replicate (n + 1) ([], [(0, .float 0)])⟩) := by
  induction n
  case zero => rfl
  case succ n hi =>
    rw [rewrites, replicate_succ', flatten_append, foldlM_append, ← rewrites, hi, Go.ok_bind,
      flatten_singleton, rewrite_oneValue, Nat.mul_add 16 (n + 1) 1, UInt64.ofNat_add,
      ← replicate_succ']
    rfl

theorem run_rewrites_wrap : (rewrites (2 ^ 60)).foldlM run (newCache 0, .empty) =
    .ok ({ newCache 0 with store := oneValue },
      ⟨[], .replicate (2 ^ 60) ([], [(0, .float 0)])⟩) := by
  have hn : 2 ^ 60 - 1 + 1 = 2 ^ 60 := by norm_num
  have hz : UInt64.ofNat (16 * 2 ^ 60) = 0 := by decide
  have hr := run_rewrites (2 ^ 60 - 1)
  rwa [hn, hz] at hr

theorem size_wraps_to_zero :
    let c := rewritten (2 ^ 60)
    c.totalSize = 0 ∧ c.store.values [] = [(0, .float 0)] ∧ ¬c.Accounted := by
  have hc : rewritten (2 ^ 60) = _ := foldl_next_of_run run_rewrites_wrap
  rw [hc]
  refine ⟨rfl, rfl, fun h => ?_⟩
  cases (h.empty rfl).1 []

theorem taken_rewrites (n : Nat) (h : Taken calls) : Taken (rewrites n ++ calls) := by
  induction n
  case zero => exact h
  case succ n hi => exact hi

def retriedSnapshot : List Call :=
  [.takeSnapshot, .clearSnapshot false, .takeSnapshot]

def emptySnapshot : Cache :=
  { newCache 0 with snapshot := some ⟨∅, 0⟩, snapshotting := true }

theorem run_retriedSnapshot {ws : List (Bytes × Values)} (hw : w ∈ ws) (hn : w ≠ ([], [])) :
    retriedSnapshot.foldlM run ({ newCache 0 with store := s }, ⟨[], ws⟩) =
      .ok (emptySnapshot, ⟨ws, []⟩) := by
  have hr : History.takeSnapshot ⟨ws, []⟩ = ⟨ws, []⟩ := if_pos ⟨w, hw, hn⟩
  conv_rhs => rw [← hr]
  rfl

theorem last_replicate (n : Nat) :
    Series.last (History.valuesOf (.replicate (n + 1) ([], [(0, .float 0)])) []) 0 =
      some (.float 0) := by
  rw [replicate_succ', Store.valuesOf_append, Series.last_append]
  rfl

theorem snapshot_lost :
    let calls := rewrites (2 ^ 60) ++ retriedSnapshot
    (∀ call ∈ calls, call.Valid) ∧ Taken calls ∧
      ∃ c h, calls.foldlM run (newCache 0, .empty) = .ok (c, h) ∧ (c.values []).2 = [] ∧
        Series.last (h.values []) 0 = some (.float 0) := by
  have hn : 2 ^ 60 - 1 + 1 = 2 ^ 60 := by norm_num
  have hz : 2 ^ 60 ≠ 0 := by norm_num
  have hl := last_replicate (2 ^ 60 - 1)
  have hr := run_rewrites_wrap
  rw [hn] at hl
  generalize 2 ^ 60 = n at hz hl hr
  have hw : (([], [(0, .float 0)]) : Bytes × Values) ∈ List.replicate n ([], [(0, .float 0)]) :=
    mem_replicate.mpr ⟨hz, rfl⟩
  have he : (rewrites n ++ retriedSnapshot).foldlM run (newCache 0, .empty) =
      .ok (emptySnapshot, ⟨.replicate n ([], [(0, .float 0)]), []⟩) := by
    rw [foldlM_append, hr, Go.ok_bind]
    exact run_retriedSnapshot hw (by decide)
  refine ⟨forall_mem_append.mpr ⟨fun call hc => ?_, by simp [retriedSnapshot, Call.Valid]⟩,
    taken_rewrites n trivial, _, _, he, rfl, ?_⟩
  · have hv : ∀ call ∈ rewrite, call.Valid := by simp [rewrite, Call.Valid]
    obtain ⟨l, hl, hc⟩ := mem_flatten.mp hc
    exact hv call (eq_of_mem_replicate hl ▸ hc)
  · rwa [History.values, append_nil]

end Rewritten

end Cache

end Tsm1
