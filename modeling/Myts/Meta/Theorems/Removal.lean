import Myts.Meta.Removal
import Myts.Meta.Theorems.Rebalance

open List

namespace Meta

open ShardInfo

open Influx (ShardInfo ShardGroupInfo)
open Balance

section NodeIDs

theorem toInt64_injective : Function.Injective UInt64.toInt64 := fun a b h => by
  simpa using congrArg Int64.toUInt64 h

theorem toInt64_lt_zero_iff (n : UInt64) : n.toInt64 < 0 ↔ 2 ^ 63 ≤ n.toNat := by
  have hn := n.toNat_lt
  have hi : n.toInt64.toInt = n.toBitVec.toInt := rfl
  rw [Int64.lt_iff_toInt_lt, hi, BitVec.toInt_eq_toNat_cond]
  simp
  omega

theorem toInt64_eq_neg_one_iff (n : UInt64) : n.toInt64 = -1 ↔ n.toNat + 1 = UInt64.size := by
  have hn := n.toNat_lt
  have hi : n.toInt64.toInt = n.toBitVec.toInt := rfl
  rw [← Int64.toInt_inj, hi, BitVec.toInt_eq_toNat_cond]
  simp [UInt64.size]
  omega

end NodeIDs

namespace newShardOwner

variable {freqs : GoMap Int64 Nat} {ks : List Int64}

theorem foldl_least_of_le (hk : k ≠ -1) (h : ∀ k' ∈ ks, freqs.count k ≤ freqs.count k') :
    ks.foldl (least freqs) (k, freqs.count k) = (k, freqs.count k) := by
  induction ks
  case nil => rfl
  case cons a ks hi =>
    obtain ⟨ha, h⟩ := forall_mem_cons.mp h
    have hs : least freqs (k, freqs.count k) a = (k, freqs.count k) := by
      simp [least, hk, Nat.not_lt.mpr ha]
    rw [foldl_cons, hs, hi h]

theorem foldl_least_seen (freqs : GoMap Int64 Nat) (ks : List Int64) {r : Int64 × Nat}
    (h : r = ks.foldl (least freqs) (-1, 0)) :
    r.1 = -1 ∨ r.1 ∈ ks ∧ r.2 = freqs.count r.1 := by
  subst h
  induction ks using List.reverseRecOn
  case nil => exact .inl rfl
  case append_singleton ks a hi =>
    rw [foldl_append, foldl_cons, foldl_nil]
    generalize ks.foldl (least freqs) (-1, 0) = r at hi
    rw [least]
    split
    case isTrue => exact .inr ⟨by simp, rfl⟩
    case isFalse => exact hi.imp id fun h => ⟨mem_append_left _ h.left, h.right⟩

theorem mem_of_ok (hv : freqs.Visits ks) (h : newShardOwner s freqs ks = .ok (n, freqs')) :
    n.toInt64 ∈ freqs ∧ ¬n.toInt64 < 0 ∧ freqs' = freqs.incr n.toInt64 := by
  rw [newShardOwner] at h
  generalize hr : ks.foldl (least freqs) (-1, 0) = r at h
  dsimp only at h
  split at h <;> cases h
  case isFalse hn =>
    have hs := (foldl_least_seen freqs ks hr.symm).resolve_left fun he => hn <| by
      rw [he]
      decide
    rw [Int64.toInt64_toUInt64]
    exact ⟨hv.mem_iff.mp hs.left, hn, rfl⟩

theorem eq_of_least (hv : freqs.Visits ks) (hx : freqs.Least x) (hn : x ≠ -1) :
    ∃ k, freqs.Least k ∧ k ≠ -1 ∧ newShardOwner s freqs ks =
      if k < 0 then .error (.cannotReassign s.id) else .ok (k.toUInt64, freqs.incr k) := by
  have hm : ∀ {k}, k ∈ ks ↔ k ∈ freqs.keys := hv.mem_iff.trans Finmap.mem_keys.symm
  obtain ⟨pre, post, rfl⟩ := append_of_mem (hm.mpr hx.left)
  have hs := foldl_least_seen freqs pre rfl
  obtain ⟨k, hk, hkn, hf⟩ : ∃ k, freqs.Least k ∧ k ≠ -1
      ∧ least freqs (pre.foldl (least freqs) (-1, 0)) x = (k, freqs.count k) := by
    generalize pre.foldl (least freqs) (-1, 0) = r at hs
    rw [least]
    split
    case isTrue => exact ⟨x, hx, hn, rfl⟩
    case isFalse hr =>
      -- The loop already is at a key with the smallest number.
      obtain ⟨hr₁, hr₂⟩ := not_or.mp hr
      obtain ⟨hp, hc⟩ := hs.resolve_left hr₁
      refine ⟨r.1, ⟨hm.mp (mem_append_left _ hp), fun k' hk' => ?_⟩, hr₁, by rw [← hc]⟩
      have := hx.right k' hk'
      omega
  refine ⟨k, hk, hkn, ?_⟩
  have hp : ∀ k' ∈ post, freqs.count k ≤ freqs.count k' := fun k' hk' =>
    hk.right k' <| hm.mp <| by simp [hk']
  rw [newShardOwner, foldl_append, foldl_cons, hf, foldl_least_of_le hkn hp]

theorem count_lt_of_first (hv : freqs.Visits (a :: ks)) (ha : a < 0) (hn : a ≠ -1)
    (hk : ∀ k' ∈ freqs.keys, freqs.count n.toInt64 ≤ freqs.count k')
    (h : newShardOwner s freqs (a :: ks) = .ok (n, freqs')) :
    freqs.count n.toInt64 < freqs.count a := by
  have hm : ∀ {k}, k ∈ a :: ks ↔ k ∈ freqs.keys := hv.mem_iff.trans Finmap.mem_keys.symm
  refine lt_of_le_of_ne (hk a <| hm.mp mem_cons_self) fun he => ?_
  have hs : least freqs (-1, 0) a = (a, freqs.count a) := by simp [least]
  have hl : ∀ k' ∈ ks, freqs.count a ≤ freqs.count k' := fun k' hk' =>
    he ▸ hk k' (hm.mp <| mem_cons_of_mem a hk')
  rw [newShardOwner, foldl_cons, hs, foldl_least_of_le hn hl] at h
  simp [ha] at h

end newShardOwner

def Machine.first (a : Int64) : Machine where
  now := .zero
  order _ _ m :=
    if a ∈ m.keys then a :: ((Machine.ascending .zero).order 0 0 m).erase a
    else (Machine.ascending .zero).order 0 0 m
  visits _ _ m := by
    have hv := (Machine.ascending .zero).visits 0 0 m
    split
    case isFalse => exact hv
    case isTrue ha =>
      have hm := hv.mem_iff.mpr (Finmap.mem_keys.mp ha)
      rw [GoMap.Visits, ← hv]
      exact Multiset.coe_eq_coe.mpr (perm_cons_erase hm).symm

theorem Machine.order_first (group shard : UInt64) {m : GoMap Int64 Nat} (h : a ∈ m) :
    ∃ ks, (Machine.first a).order group shard m = a :: ks :=
  ⟨_, if_pos (Finmap.mem_keys.mpr h)⟩

namespace ShardGroupInfo

variable {R : Finset UInt64} {load : UInt64 → Nat} {freqs : GoMap Int64 Nat}

structure Counts (R : Finset UInt64) (load : UInt64 → Nat) (freqs : GoMap Int64 Nat) : Prop where
  mem : ∀ n : UInt64, n.toInt64 ∈ freqs ↔ n ∈ R
  count : ∀ n ∈ R, freqs.count n.toInt64 = load n

namespace Counts

theorem incr (h : Counts R load freqs) (hn : n ∈ R) :
    Counts R (bump load n) (freqs.incr n.toInt64) where
  mem r := by
    rw [GoMap.mem_incr, h.mem, toInt64_injective.eq_iff]
    exact or_iff_right_of_imp fun he => he ▸ hn
  count r hr := by
    rw [GoMap.count_incr, h.count r hr]
    by_cases he : r = n
    case pos => simp [he]
    case neg => rw [if_neg (toInt64_injective.ne he), bump_of_ne load he, Nat.add_zero]

theorem least_iff (h : Counts R load freqs) :
    freqs.Least n.toInt64 ↔ n ∈ R ∧ ∀ r ∈ R, load n ≤ load r := by
  rw [GoMap.Least, Finmap.mem_keys, h.mem]
  refine and_congr_right fun hn => ?_
  constructor
  case mp =>
    intro hl r hr
    have := hl r.toInt64 <| Finmap.mem_keys.mpr <| (h.mem r).mpr hr
    rwa [h.count n hn, h.count r hr] at this
  case mpr =>
    intro hl k hk
    rw [← Int64.toInt64_toUInt64 k] at hk ⊢
    have hr := (h.mem _).mp <| Finmap.mem_keys.mp hk
    rw [h.count n hn, h.count _ hr]
    exact hl _ hr

end Counts

def level (load : UInt64 → Nat) (a : UInt64) : Nat :=
  load a + if a.toNat + 1 = UInt64.size then 1 else 0

def Spared (R : Finset UInt64) (load : UInt64 → Nat) (k : Nat) : Prop :=
  ∀ a ∈ R, 2 ^ 63 ≤ a.toNat → k ≤ room (small R) load (level load a)

theorem mem_small : n ∈ small R ↔ n ∈ R ∧ n.toNat < 2 ^ 63 :=
  Finset.mem_filter

theorem level_bump (hn : n.toNat < 2 ^ 63) (ha : 2 ^ 63 ≤ a.toNat) :
    level (bump load n) a = level load a := by
  have hne : a ≠ n := by
    rintro rfl
    omega
  rw [level, bump_of_ne load hne, level]

theorem Spared.lt_level (h : Spared R load (k + 1)) (hl : ∀ r ∈ R, load n ≤ load r) (ha : a ∈ R)
    (hb : 2 ^ 63 ≤ a.toNat) : load n < level load a := by
  have ⟨r, hr, hlt⟩ := exists_lt_of_room <| Nat.lt_of_lt_of_le (Nat.succ_pos k) (h a ha hb)
  exact lt_of_le_of_lt (hl r (mem_small.mp hr).left) hlt

theorem Spared.bump (h : Spared R load (k + 1)) (hn : n ∈ small R) (hl : ∀ r ∈ R, load n ≤ load r) :
    Spared R (bump load n) k := by
  intro a ha hb
  have hr := room_bump hn (h.lt_level hl ha hb)
  have := h a ha hb
  rw [level_bump (mem_small.mp hn).right hb]
  omega

theorem Spared.small_of_least (h : Spared R load (k + 1)) (hl : ∀ r ∈ R, load n ≤ load r)
    (hn : n ∈ R) (hne : n.toNat + 1 ≠ UInt64.size) : n ∈ small R := by
  refine mem_small.mpr ⟨hn, ?_⟩
  by_contra hb
  have := h.lt_level hl hn (Nat.not_lt.mp hb)
  simp [level, hne] at this

theorem Spared.exists_least (h : Spared R load (k + 1)) (hR : R.Nonempty) :
    ∃ n ∈ R, (∀ r ∈ R, load n ≤ load r) ∧ n.toNat + 1 ≠ UInt64.size := by
  obtain ⟨a, ha, hl⟩ := R.exists_min_image load hR
  by_cases hb : a.toNat + 1 = UInt64.size
  case neg => exact ⟨a, ha, hl, hb⟩
  case pos =>
    have hb' : 2 ^ 63 ≤ a.toNat := by
      rw [UInt64.size] at hb
      omega
    obtain ⟨r, hr, hlt⟩ := exists_lt_of_room <| Nat.lt_of_lt_of_le (Nat.succ_pos k) (h a ha hb')
    obtain ⟨hr, hs⟩ := mem_small.mp hr
    rw [level, if_pos hb] at hlt
    refine ⟨r, hr, fun r' hr' => (Nat.lt_succ_iff.mp hlt).trans (hl r' hr'), ?_⟩
    rw [UInt64.size]
    omega

def picks (M : Machine) (group : UInt64) :
    List ShardInfo → GoMap Int64 Nat → List UInt64 × Option Error
  | [], _ => ([], none)
  | orphan :: orphans, freqs =>
    match newShardOwner orphan freqs (M.order group orphan.id freqs) with
    | .error e => ([], some e)
    | .ok (owner, freqs) => (picks M group orphans freqs).map (owner :: ·) id

def assignAll (orphans : List ShardInfo) (owners : List UInt64) (shards : List ShardInfo) :
    List ShardInfo :=
  (orphans.zip owners).foldl (fun l p => assign p.1.id p.2 l) shards

theorem reassign_eq_picks (M : Machine) (group : UInt64) (orphans shards : List ShardInfo)
    (freqs : GoMap Int64 Nat) :
    reassign M group orphans freqs shards =
      (assignAll orphans (picks M group orphans freqs).1 shards,
        (picks M group orphans freqs).2) := by
  induction orphans generalizing freqs shards
  case nil => rfl
  case cons orphan orphans hi =>
    rw [reassign, picks]
    cases newShardOwner orphan freqs (M.order group orphan.id freqs)
    case error => rfl
    case ok => exact hi _ _

theorem picks_fair (M : Machine) (group : UInt64) {orphans : List ShardInfo}
    (hc : Counts R load freqs) (hR : R.Nonempty) (h : Spared R load orphans.length) :
    (picks M group orphans freqs).2 = none
      ∧ (picks M group orphans freqs).1.length = orphans.length
      ∧ Fair R load (picks M group orphans freqs).1 := by
  induction orphans generalizing load freqs
  case nil => exact ⟨rfl, rfl, trivial⟩
  case cons orphan orphans hi =>
    have ⟨x, hx, hl, hxn⟩ := h.exists_least hR
    have ⟨k, hk, hkn, ho⟩ := newShardOwner.eq_of_least (s := orphan)
      (M.visits group orphan.id freqs) (hc.least_iff.mpr ⟨hx, hl⟩)
      ((toInt64_eq_neg_one_iff x).not.mpr hxn)
    rw [← Int64.toInt64_toUInt64 k] at hk hkn
    have ⟨hm, hl⟩ := hc.least_iff.mp hk
    have hs := h.small_of_least hl hm ((toInt64_eq_neg_one_iff _).not.mp hkn)
    have hn : ¬k < 0 := by
      rw [← Int64.toInt64_toUInt64 k, toInt64_lt_zero_iff]
      exact Nat.not_le.mpr (mem_small.mp hs).right
    rw [if_neg hn] at ho
    have hi := hi (hc.incr hm) (h.bump hs hl)
    rw [Int64.toInt64_toUInt64] at hi
    simp only [picks, ho, Prod.map_fst, Prod.map_snd, id, length_cons, Fair]
    exact ⟨hi.1, congrArg (· + 1) hi.2.1, ⟨hm, hl⟩, hi.2.2⟩

theorem le_room_of_fair (M : Machine) (group : UInt64) {orphans : List ShardInfo}
    (hM : ∀ group shard (m : GoMap Int64 Nat), a.toInt64 ∈ m →
      ∃ ks, M.order group shard m = a.toInt64 :: ks)
    (hc : Counts R load freqs) (ha : a ∈ R) (hb : 2 ^ 63 ≤ a.toNat)
    (he : (picks M group orphans freqs).2 = none)
    (hf : Fair R load (picks M group orphans freqs).1) :
    orphans.length ≤ room (small R) load (level load a) := by
  induction orphans generalizing load freqs
  case nil => exact Nat.zero_le _
  case cons orphan orphans hi =>
    have hv := M.visits group orphan.id freqs
    cases ho : newShardOwner orphan freqs (M.order group orphan.id freqs)
    case error => simp [picks, ho] at he
    case ok r =>
      obtain ⟨n, freqs'⟩ := r
      have ⟨hm, hn, hu⟩ := newShardOwner.mem_of_ok hv ho
      simp only [picks, ho, Prod.map_fst, Prod.map_snd, id, Fair] at he hf
      obtain ⟨⟨hmem, hl⟩, hf⟩ := hf
      have hsm : n.toNat < 2 ^ 63 := by
        rw [toInt64_lt_zero_iff] at hn
        omega
      have hs : n ∈ small R := mem_small.mpr ⟨hmem, hsm⟩
      have hlt : load n < level load a := by
        rw [level]
        split
        case isTrue => exact Nat.lt_succ_of_le (hl a ha)
        case isFalse hne =>
          obtain ⟨ks, hks⟩ := hM group orphan.id freqs ((hc.mem a).mpr ha)
          rw [hks] at hv ho
          have := newShardOwner.count_lt_of_first hv ((toInt64_lt_zero_iff a).mpr hb)
            ((toInt64_eq_neg_one_iff a).not.mpr hne) (hc.least_iff.mpr ⟨hmem, hl⟩).right ho
          rwa [hc.count n hmem, hc.count a ha] at this
      have hi := hi (hu ▸ hc.incr hmem) he hf
      rw [level_bump hsm hb] at hi
      have := room_bump hs hlt
      rw [length_cons]
      omega

section Freqs

variable {id : UInt64} {g : ShardGroupInfo} {shards : List ShardInfo}

theorem ownedBy_iff {s : ShardInfo} : s.OwnedBy n ↔ n ∈ ownerIDs s := by
  simp [Influx.ShardInfo.OwnedBy, ownerIDs]

theorem owned_cons (s : ShardInfo) :
    owned (s :: shards) n = owned shards n + if s.OwnedBy n then 1 else 0 := by
  simp [owned, countP_cons]

theorem owned_append : owned (l₁ ++ l₂) n = owned l₁ n + owned l₂ n :=
  countP_append

theorem owned_pos_iff : 0 < owned shards n ↔ ∃ s ∈ shards, s.OwnedBy n := by
  simp [owned, countP_pos_iff]

theorem count_owners (h : ∀ s ∈ shards, (ownerIDs s).Nodup) (n : UInt64) :
    ((shards.flatMap (·.owners)).map (·.nodeID.toInt64)).count n.toInt64 = owned shards n := by
  induction shards
  case nil => rfl
  case cons s l hi =>
    obtain ⟨hs, hl⟩ := forall_mem_cons.mp h
    have hc : (s.owners.map (·.nodeID.toInt64)).count n.toInt64 = (ownerIDs s).count n := by
      rw [ownerIDs, ← count_map_of_injective _ _ toInt64_injective, map_map]
      rfl
    rw [flatMap_cons, map_append, count_append, hi hl, owned_cons, hc, Nat.add_comm,
      hs.count]
    simp only [ownedBy_iff]

theorem nodeOwnerFreqs_eq : nodeOwnerFreqs id g =
    (((g.shards.flatMap (·.owners)).map (·.nodeID.toInt64)).foldl GoMap.incr ∅).erase id.toInt64 := by
  rw [nodeOwnerFreqs, foldl_map]

theorem mem_nodeOwnerFreqs :
    n.toInt64 ∈ nodeOwnerFreqs id g ↔ n ≠ id ∧ ∃ s ∈ g.shards, s.OwnedBy n := by
  rw [nodeOwnerFreqs_eq, Finmap.mem_erase, GoMap.mem_foldl_incr, toInt64_injective.ne_iff]
  refine and_congr_right fun _ => ?_
  simp only [mem_map, mem_flatMap, Finmap.notMem_empty, or_false,
    toInt64_injective.eq_iff, Influx.ShardInfo.OwnedBy]
  tauto

theorem count_nodeOwnerFreqs (h : ∀ s ∈ g.shards, (ownerIDs s).Nodup) (hn : n ≠ id) :
    (nodeOwnerFreqs id g).count n.toInt64 = owned g.shards n := by
  rw [nodeOwnerFreqs_eq, GoMap.count, Finmap.lookup_erase_ne (toInt64_injective.ne hn), ← GoMap.count,
    GoMap.count_foldl_incr, count_owners h]
  simp [GoMap.count]

end Freqs

section Fill

variable {shards l : List ShardInfo} {s t : ShardInfo} {i j : Nat}

def fill : List ShardInfo → List UInt64 → List ShardInfo
  | [], _ => []
  | s :: l, [] => s :: l
  | s :: l, n :: ns =>
    if s.owners = [] then addOwner n s :: fill l ns else s :: fill l (n :: ns)

theorem assignAll_cons_of_ne (h : ∀ o ∈ orphans, s.id ≠ o.id) :
    assignAll orphans ns (s :: l) = s :: assignAll orphans ns l := by
  induction orphans generalizing ns l
  case nil => rfl
  case cons o orphans hi =>
    obtain ⟨ho, h⟩ := forall_mem_cons.mp h
    cases ns
    case nil => rfl
    case cons n ns =>
      have ha : assign o.id n (s :: l) = s :: assign o.id n l := by rw [assign, if_neg ho]
      simp only [assignAll, zip_cons_cons, foldl_cons, ha]
      exact hi h

theorem assignAll_eq_fill (h : shards.Pairwise fun t s => s.owners = [] → t.id ≠ s.id) :
    assignAll (shards.filter (·.owners.isEmpty)) ns shards = fill shards ns := by
  induction shards generalizing ns
  case nil => rfl
  case cons s l hi =>
    obtain ⟨hs, hl⟩ := pairwise_cons.mp h
    have hne {s' : ShardInfo} (he : s'.id = s.id) :
        ∀ o ∈ l.filter (·.owners.isEmpty), s'.id ≠ o.id := fun o ho => by
      obtain ⟨ho, hemp⟩ := mem_filter.mp ho
      exact he ▸ hs o ho (by simpa using hemp)
    by_cases he : s.owners = []
    case neg =>
      rw [filter_cons_of_neg (by simpa using he), assignAll_cons_of_ne (hne rfl), hi hl]
      cases ns <;> simp [fill, he]
      case nil => cases l <;> rfl
    case pos =>
      rw [filter_cons_of_pos (by simpa using he)]
      cases ns
      case nil => rfl
      case cons n ns =>
        have ha : assign s.id n (s :: l) = addOwner n s :: l := by rw [assign, if_pos rfl]
        simp only [assignAll, zip_cons_cons, foldl_cons, ha, fill, if_pos he]
        have hs : (addOwner n s).id = s.id := rfl
        exact (assignAll_cons_of_ne (hne hs)).trans (congrArg _ (hi hl))

theorem getElem?_assign_of_ne (h : ∀ s : ShardInfo, shards[j]? = some s → s.id ≠ o) :
    (assign o n shards)[j]? = shards[j]? := by
  induction shards generalizing j
  case nil => rfl
  case cons a l hi =>
    rw [assign]
    cases j
    case zero =>
      rw [if_neg (h a rfl)]
      rfl
    case succ j =>
      split
      case isTrue => rfl
      case isFalse => exact hi h

theorem getElem?_assign_of_earlier (hi : shards[i]? = some t) (hj : shards[j]? = some s)
    (hlt : i < j) (he : t.id = s.id) : (assign o n shards)[j]? = shards[j]? := by
  induction shards generalizing i j
  case nil => rfl
  case cons a l hind =>
    rw [assign]
    obtain ⟨j, rfl⟩ := Nat.exists_eq_succ_of_ne_zero (by omega : j ≠ 0)
    split
    case isTrue => rfl
    case isFalse ho =>
      cases i
      case zero =>
        obtain rfl : a = t := by simpa using hi
        refine getElem?_assign_of_ne fun s' hs' => ?_
        obtain rfl : s' = s := by simpa [hs'] using hj
        exact he ▸ ho
      case succ i => exact hind hi hj (by omega)

theorem map_id_assign (o n : UInt64) (shards : List ShardInfo) :
    (assign o n shards).map (·.id) = shards.map (·.id) := by
  induction shards
  case nil => rfl
  case cons a l hi =>
    rw [assign]
    split
    case isTrue => rfl
    case isFalse => rw [map_cons, hi, map_cons]

theorem getElem?_assignAll_of_earlier (orphans : List ShardInfo) (ns : List UInt64)
    (hi : shards[i]? = some t) (hj : shards[j]? = some s) (hlt : i < j) (he : t.id = s.id) :
    (assignAll orphans ns shards)[j]? = some s := by
  rw [assignAll]
  induction orphans.zip ns generalizing shards t
  case nil => exact hj
  case cons p l hind =>
    have hm := map_id_assign p.1.id p.2 shards
    have ht : ((assign p.1.id p.2 shards).map (·.id))[i]? = some t.id := by
      rw [hm, getElem?_map, hi]
      rfl
    obtain ⟨t', ht', he'⟩ := by simpa using ht
    exact hind ht' ((getElem?_assign_of_earlier hi hj hlt he).trans hj) (he'.trans he)

end Fill

section Adopts

variable {shards shards' l l' : List ShardInfo} {s s' : ShardInfo}

def Adopts (R : Finset UInt64) (b : UInt64 → Nat) (shards shards' : List ShardInfo) : Prop :=
  ∀ (p : Nat) (s : ShardInfo), shards[p]? = some s → s.owners = [] →
    ∃ n ∈ R, shards'[p]? = some (addOwner n s) ∧
      ∀ r ∈ R, b n + owned (shards'.take p ++ shards.drop p) n
        ≤ b r + owned (shards'.take p ++ shards.drop p) r

theorem adopts_cons_iff {b : UInt64 → Nat} : Adopts R b (s :: l) (s' :: l') ↔
    (s.owners = [] → ∃ n ∈ R, s' = addOwner n s ∧
      ∀ r ∈ R, b n + owned (s :: l) n ≤ b r + owned (s :: l) r)
    ∧ Adopts R (fun r => b r + if s'.OwnedBy r then 1 else 0) l l' := by
  have hb (p : Nat) (r : UInt64) :
      b r + owned ((s' :: l').take (p + 1) ++ (s :: l).drop (p + 1)) r
        = (b r + if s'.OwnedBy r then 1 else 0) + owned (l'.take p ++ l.drop p) r := by
    rw [take_succ_cons, drop_succ_cons, cons_append, owned_cons]
    omega
  constructor
  case mp =>
    refine fun h => ⟨fun hs => ?_, fun p t ht he => ?_⟩
    · obtain ⟨n, hn, hs', hl⟩ := h 0 s rfl hs
      exact ⟨n, hn, by simpa using hs', hl⟩
    · obtain ⟨n, hn, hs', hl⟩ := h (p + 1) t ht he
      simp only [hb] at hl
      exact ⟨n, hn, hs', hl⟩
  case mpr =>
    rintro ⟨h₀, h⟩ (_ | p) t ht he
    case zero =>
      obtain rfl : s = t := by simpa using ht
      obtain ⟨n, hn, rfl, hl⟩ := h₀ he
      exact ⟨n, hn, rfl, hl⟩
    case succ =>
      obtain ⟨n, hn, hs', hl⟩ := h p t ht he
      simp only [← hb] at hl
      exact ⟨n, hn, hs', hl⟩

theorem ownedBy_addOwner (h : s.owners = []) : (addOwner n s).OwnedBy r ↔ r = n := by
  simp [addOwner, h, Influx.ShardInfo.OwnedBy, eq_comm]

theorem owned_cons_of_nil (h : s.owners = []) : owned (s :: l) r = owned l r := by
  simp [owned_cons, Influx.ShardInfo.OwnedBy, h]

theorem adopts_fill_iff {b : UInt64 → Nat} (h : ns.length = shards.countP (·.owners.isEmpty)) :
    Adopts R b shards (fill shards ns) ↔ Fair R (fun r => b r + owned shards r) ns := by
  induction shards generalizing b ns
  case nil =>
    obtain rfl := length_eq_zero_iff.mp h
    exact iff_of_true (by simp [Adopts]) trivial
  case cons s l hi =>
    by_cases he : s.owners = []
    case neg =>
      rw [countP_cons_of_neg (by simpa using he)] at h
      have hf : fill (s :: l) ns = s :: fill l ns := by
        cases ns
        case nil => cases l <;> rfl
        case cons n ns => rw [fill, if_neg he]
      have hb : (fun r => b r + owned (s :: l) r)
          = fun r => (b r + if s.OwnedBy r then 1 else 0) + owned l r := by
        funext r
        rw [owned_cons]
        omega
      rw [hf, adopts_cons_iff, hi h, hb]
      exact and_iff_right fun h => absurd h he
    case pos =>
      rw [countP_cons_of_pos (by simpa using he)] at h
      cases ns
      case nil => simp at h
      case cons n ns =>
        have hb : bump (fun r => b r + owned (s :: l) r) n
            = fun r => (b r + if (addOwner n s).OwnedBy r then 1 else 0) + owned l r := by
          funext r
          by_cases hr : r = n
          case pos =>
            rw [hr, bump_self, if_pos ((ownedBy_addOwner he).mpr rfl), owned_cons_of_nil he]
            omega
          case neg =>
            rw [bump_of_ne _ hr, if_neg ((ownedBy_addOwner he).not.mpr hr), owned_cons_of_nil he]
            omega
        rw [fill, if_pos he, adopts_cons_iff, hi (by simpa using h), Fair, hb]
        refine and_congr_left fun _ => ⟨fun h => ?_, fun h _ => ⟨n, h.left, rfl, h.right⟩⟩
        obtain ⟨m, hm, heq, hl⟩ := h he
        have : m = n := by
          have := (ownedBy_addOwner (n := m) (r := n) he).mp <|
            heq ▸ (ownedBy_addOwner he).mpr rfl
          exact this.symm
        exact this ▸ ⟨hm, hl⟩

end Adopts

section Remaining

variable {id : UInt64} {s : ShardInfo} {g : ShardGroupInfo}

theorem ownedBy_relinquish (h : (ownerIDs s).Nodup) :
    (relinquish id s).OwnedBy n ↔ s.OwnedBy n ∧ n ≠ id := by
  rw [ownedBy_iff, mem_ownerIDs_relinquish h, ownedBy_iff]

theorem relinquish_of_not_ownedBy (h : ¬s.OwnedBy id) : relinquish id s = s := by
  have hn : Slice.lastIdx? (·.nodeID == id) s.owners = none :=
    Slice.lastIdx?_eq_none.mpr fun o ho => by
      by_contra he
      exact h ⟨o, ho, by simpa using he⟩
  rw [relinquish, hn]

theorem owners_eq_nil_iff : s.owners = [] ↔ ∀ n, ¬s.OwnedBy n := by
  simp only [ownedBy_iff, ownerIDs, ← eq_nil_iff_forall_not_mem, map_eq_nil_iff]

theorem relinquish_owners_eq_nil_iff (h : (ownerIDs s).Nodup) :
    (relinquish id s).owners = [] ↔ ∀ o ∈ s.owners, o.nodeID = id := by
  rw [owners_eq_nil_iff]
  constructor
  case mp =>
    intro hr o ho
    by_contra hn
    exact hr o.nodeID <| (ownedBy_relinquish h).mpr ⟨⟨o, ho, rfl⟩, hn⟩
  case mpr =>
    intro ho n hn
    obtain ⟨⟨o, hm, rfl⟩, hne⟩ := (ownedBy_relinquish h).mp hn
    exact hne (ho o hm)

theorem alone_of_forall (h : (ownerIDs s).Nodup) (hs : s.owners ≠ [])
    (ho : ∀ o ∈ s.owners, o.nodeID = id) : Alone id s := by
  rw [ownerIDs] at h
  rw [Alone]
  rcases hl : s.owners with _ | ⟨o, _ | ⟨p, l⟩⟩
  case nil => exact absurd hl hs
  case cons.nil => rw [← ho o (by simp [hl])]
  case cons.cons =>
    rw [hl] at h ho
    simp [ho o (by simp), ho p (by simp)] at h

theorem relinquish_owners_eq_nil_iff_alone (h : (ownerIDs s).Nodup) (hs : s.owners ≠ []) :
    (relinquish id s).owners = [] ↔ Alone id s := by
  rw [relinquish_owners_eq_nil_iff h]
  refine ⟨alone_of_forall h hs, fun ha o ho => ?_⟩
  rw [ha, mem_singleton] at ho
  rw [ho]

theorem allOrphaned_iff (h : ∀ s ∈ g.shards, (ownerIDs s).Nodup) :
    AllOrphaned id g ↔ ¬HeldElsewhere id g := by
  have hl : (orphanedShards id g).length = g.shards.length
      ↔ ∀ s ∈ g.shards, (relinquish id s).owners = [] := by
    have hr : (remaining id g).length = g.shards.length := length_map _
    rw [orphanedShards, ← hr, length_filter_eq_length_iff, remaining, forall_mem_map]
    simp
  have hh : ¬HeldElsewhere id g ↔ ∀ s ∈ g.shards, (relinquish id s).owners = [] := by
    rw [HeldElsewhere]
    push Not
    exact forall₂_congr fun s hs => (relinquish_owners_eq_nil_iff (h s hs)).symm
  rw [AllOrphaned, hl, hh]
  refine or_iff_right_of_imp fun he => ?_
  simp [he]

theorem owned_remaining {l : List ShardInfo} (h : ∀ s ∈ l, (ownerIDs s).Nodup)
    (hn : n ≠ id) : owned (l.map (relinquish id)) n = owned l n := by
  rw [owned, countP_map]
  refine countP_congr fun s hs => ?_
  simp [ownedBy_relinquish (h s hs), hn]

end Remaining

section DeleteNode

variable {id : UInt64} {g : ShardGroupInfo} {M : Machine}

structure Based (R : Finset UInt64) (id : UInt64) (g : ShardGroupInfo) : Prop where
  nodup : ∀ s ∈ g.shards, (ownerIDs s).Nodup
  exist : ∀ s ∈ g.shards, ∀ n, s.OwnedBy n → n ≠ id → n ∈ R
  gone : id ∉ R

theorem Based.ne (h : Based R id g) (hn : n ∈ R) : n ≠ id :=
  fun he => h.gone (he ▸ hn)

def newOwners (id : UInt64) (M : Machine) (g : ShardGroupInfo) : List UInt64 × Option Error :=
  picks M g.id (orphanedShards id g) (nodeOwnerFreqs id g)

theorem deleteNode_of_not_held (hb : Based R id g) (h : ¬HeldElsewhere id g) :
    deleteNode id M g = ({ g with shards := remaining id g, deletedAt := M.now }, none) := by
  rw [deleteNode, if_pos ((allOrphaned_iff hb.nodup).mpr h)]

theorem deleteNode_of_held (hb : Based R id g) (h : HeldElsewhere id g) :
    deleteNode id M g =
      ({ g with shards := assignAll (orphanedShards id g) (newOwners id M g).1 (remaining id g) },
        (newOwners id M g).2) := by
  rw [deleteNode, if_neg ((allOrphaned_iff hb.nodup).not.mpr (not_not.mpr h)), reassign_eq_picks]
  rfl

theorem getElem?_remaining {p : Nat} {s : ShardInfo} (h : g.shards[p]? = some s) :
    (remaining id g)[p]? = some (relinquish id s) := by
  rw [remaining, getElem?_map, h]
  rfl

theorem length_fill (shards : List ShardInfo) (ns : List UInt64) :
    (fill shards ns).length = shards.length := by
  induction shards generalizing ns
  case nil => rfl
  case cons s l hi =>
    cases ns
    case nil => rfl
    case cons n ns =>
      rw [fill]
      split <;> simp [hi]

theorem getElem?_fill_of_ne {shards : List ShardInfo} {p : Nat} {s : ShardInfo}
    (h : shards[p]? = some s) (hs : s.owners ≠ []) : (fill shards ns)[p]? = some s := by
  induction shards generalizing p ns
  case nil => simp at h
  case cons t l hi =>
    cases ns
    case nil => exact h
    case cons n ns =>
      rw [fill]
      cases p
      case zero =>
        obtain rfl : t = s := by simpa using h
        rw [if_neg hs]
        rfl
      case succ p => split <;> exact hi h

theorem Adopts.cases {shards shards' : List ShardInfo} {b : UInt64 → Nat} {s : ShardInfo}
    (h : Adopts R b shards shards') (hl : shards'.length = shards.length)
    (hk : ∀ {p : Nat} {s : ShardInfo}, shards[p]? = some s → s.owners ≠ [] → shards'[p]? = some s)
    (hs : s ∈ shards') :
    (s ∈ shards ∧ s.owners ≠ []) ∨ ∃ n ∈ R, s.owners = [{ nodeID := n }] := by
  obtain ⟨p, hp, rfl⟩ := mem_iff_getElem.mp hs
  have ht : shards[p]? = some shards[p] := getElem?_eq_getElem (hl ▸ hp)
  by_cases he : shards[p].owners = []
  case pos =>
    obtain ⟨n, hn, hs', -⟩ := h p _ ht he
    rw [getElem?_eq_getElem hp, Option.some.injEq] at hs'
    exact .inr ⟨n, hn, by rw [hs', addOwner, he]; rfl⟩
  case neg =>
    have hs' := hk ht he
    rw [getElem?_eq_getElem hp, Option.some.injEq] at hs'
    exact .inl ⟨hs' ▸ getElem_mem _, hs' ▸ he⟩

theorem removed_of_not_held (hb : Based R id g) (ho : ∀ s ∈ g.shards, s.owners ≠ [])
    (h : ¬HeldElsewhere id g) :
    Removed M.now R id g (deleteNode id M g).1
      ∧ ∀ s ∈ (deleteNode id M g).1.shards, ¬s.OwnedBy id := by
  have ha : ∀ s ∈ g.shards, Alone id s := fun s hs =>
    alone_of_forall (hb.nodup s hs) (ho s hs) fun o hm => by_contra fun hn => h ⟨s, hs, o, hm, hn⟩
  rw [deleteNode_of_not_held hb h]
  refine ⟨⟨?_, fun hh => absurd hh h, fun hh => absurd hh h, fun p s hp hs => ?_⟩, ?_⟩
  · rw [if_pos (.inr ha)]
  · exact (getElem?_remaining hp).trans <| by rw [relinquish_of_not_ownedBy hs]
  · refine forall_mem_map.mpr fun s hs => ?_
    rw [ownedBy_relinquish (hb.nodup s hs)]
    exact fun h => h.right rfl

theorem owned_moment (hb : Based R id g) {l : List ShardInfo} {p : Nat} (hn : n ∈ R) :
    owned (l ++ (remaining id g).drop p) n = owned (l ++ g.shards.drop p) n := by
  have hd : ∀ s ∈ g.shards.drop p, (ownerIDs s).Nodup := fun s hs =>
    hb.nodup s (mem_of_mem_drop hs)
  rw [remaining, ← map_drop, owned_append, owned_append, owned_remaining hd (hb.ne hn)]

theorem addOwner_relinquish {s : ShardInfo} (h : (relinquish id s).owners = []) :
    addOwner n (relinquish id s) = { s with owners := [{ nodeID := n }] } := by
  rw [addOwner, h, relinquish_id]
  rfl

theorem adopts_remaining_iff (hb : Based R id g) (ho : ∀ s ∈ g.shards, s.owners ≠ [])
    {shards' : List ShardInfo} :
    Adopts R (fun _ => 0) (remaining id g) shards' ↔ ∀ p s, g.shards[p]? = some s → Alone id s →
      ∃ n ∈ R, shards'[p]? = some { s with owners := [{ nodeID := n }] } ∧
        ∀ r ∈ R, owned (shards'.take p ++ g.shards.drop p) n
          ≤ owned (shards'.take p ++ g.shards.drop p) r := by
  have hs {p : Nat} {s : ShardInfo} (hp : g.shards[p]? = some s) :
      (relinquish id s).owners = [] ↔ Alone id s :=
    have hm := mem_of_getElem? hp
    relinquish_owners_eq_nil_iff_alone (hb.nodup s hm) (ho s hm)
  constructor
  case mp =>
    intro h p s hp ha
    obtain ⟨n, hn, hs', hl⟩ := h p _ (getElem?_remaining hp) ((hs hp).mpr ha)
    rw [addOwner_relinquish ((hs hp).mpr ha)] at hs'
    refine ⟨n, hn, hs', fun r hr => ?_⟩
    simpa only [Nat.zero_add, owned_moment hb hn, owned_moment hb hr] using hl r hr
  case mpr =>
    intro h p t ht he
    obtain ⟨s, hp, rfl⟩ : ∃ s, g.shards[p]? = some s ∧ relinquish id s = t := by
      simpa [remaining] using ht
    obtain ⟨n, hn, hs', hl⟩ := h p s hp ((hs hp).mp he)
    refine ⟨n, hn, by rw [hs', addOwner_relinquish he], fun r hr => ?_⟩
    simpa only [Nat.zero_add, owned_moment hb hn, owned_moment hb hr] using hl r hr

theorem removed_of_adopts (hb : Based R id g) (ho : ∀ s ∈ g.shards, s.owners ≠ [])
    (h : HeldElsewhere id g)
    (hf : (deleteNode id M g).1 = { g with shards := fill (remaining id g) ns })
    (ha : Adopts R (fun _ => 0) (remaining id g) (fill (remaining id g) ns)) :
    Removed M.now R id g (deleteNode id M g).1
      ∧ ∀ s ∈ (deleteNode id M g).1.shards, ¬s.OwnedBy id := by
  have hc {s : ShardInfo} (hs : s ∈ fill (remaining id g) ns) :=
    ha.cases (length_fill _ _) getElem?_fill_of_ne hs
  have hm : ¬(g.shards = [] ∨ ∀ s ∈ g.shards, Alone id s) := by
    obtain ⟨s, hs, o, hm, hn⟩ := h
    rintro (he | he)
    case inl => simp [he] at hs
    case inr =>
      rw [he s hs, mem_singleton] at hm
      exact hn (hm ▸ rfl)
  rw [hf]
  refine ⟨⟨?_, fun _ s hs => ?_, fun _ => (adopts_remaining_iff hb ho).mp ha, fun p s hp hs => ?_⟩,
    fun s hs => ?_⟩
  · rw [if_neg hm]
  · rcases hc hs with ⟨hs, hne⟩ | ⟨n, hn, he⟩
    case inl =>
      obtain ⟨t, ht, rfl⟩ := mem_map.mp hs
      refine ⟨hne, fun o hm => ?_⟩
      have ⟨hto, hid⟩ := (ownedBy_relinquish (hb.nodup t ht)).mp ⟨o, hm, rfl⟩
      exact hb.exist t ht _ hto hid
    case inr => simp [he, hn]
  · refine getElem?_fill_of_ne ?_ (ho s (mem_of_getElem? hp))
    rw [getElem?_remaining hp, relinquish_of_not_ownedBy hs]
  · rcases hc hs with ⟨hs, _⟩ | ⟨n, hn, he⟩
    case inl =>
      obtain ⟨t, ht, rfl⟩ := mem_map.mp hs
      rw [ownedBy_relinquish (hb.nodup t ht)]
      exact fun h => h.right rfl
    case inr =>
      rintro ⟨o, ho, rfl⟩
      rw [he, mem_singleton] at ho
      exact hb.gone (by rwa [ho])

theorem orphans_length (hb : Based R id g) (ho : ∀ s ∈ g.shards, s.owners ≠ []) :
    (orphanedShards id g).length = g.shards.countP fun s => decide (Alone id s) := by
  rw [orphanedShards, ← countP_eq_length_filter, remaining, countP_map]
  refine countP_congr fun s hs => ?_
  simp [relinquish_owners_eq_nil_iff_alone (hb.nodup s hs) (ho s hs)]

theorem countP_remaining :
    (remaining id g).countP (·.owners.isEmpty) = (orphanedShards id g).length := by
  rw [orphanedShards, countP_eq_length_filter]

theorem pairwise_remaining_iff (hb : Based R id g) (ho : ∀ s ∈ g.shards, s.owners ≠ []) :
    (remaining id g).Pairwise (fun t s => s.owners = [] → t.id ≠ s.id)
      ↔ g.shards.Pairwise fun t s => Alone id s → t.id ≠ s.id := by
  rw [remaining, pairwise_map]
  refine List.Pairwise.iff_of_mem fun {t s} _ hs => ?_
  rw [relinquish_owners_eq_nil_iff_alone (hb.nodup s hs) (ho s hs), relinquish_id,
    relinquish_id]

theorem counts_nodeOwnerFreqs (hb : Based R id g) (hs : ∀ r ∈ R, ∃ s ∈ g.shards, s.OwnedBy r) :
    Counts R (owned g.shards) (nodeOwnerFreqs id g) where
  mem n := by
    rw [mem_nodeOwnerFreqs]
    exact ⟨fun ⟨hn, s, hm, ho⟩ => hb.exist s hm n ho hn,
      fun hn => ⟨hb.ne hn, hs n hn⟩⟩
  count n hn := count_nodeOwnerFreqs hb.nodup (hb.ne hn)

theorem picks_length {orphans : List ShardInfo} {freqs : GoMap Int64 Nat}
    (h : (picks M group orphans freqs).2 = none) :
    (picks M group orphans freqs).1.length = orphans.length := by
  induction orphans generalizing freqs
  case nil => rfl
  case cons o orphans hi =>
    cases ho : newShardOwner o freqs (M.order group o.id freqs)
    case error => simp [picks, ho] at h
    case ok r =>
      simp only [picks, ho, Prod.map_snd, id] at h
      simp [picks, ho, hi h]

theorem fair_newOwners_iff (hb : Based R id g) (hl : ns.length = (orphanedShards id g).length) :
    Adopts R (fun _ => 0) (remaining id g) (fill (remaining id g) ns)
      ↔ Fair R (owned g.shards) ns := by
  rw [adopts_fill_iff (hl.trans countP_remaining.symm)]
  refine fair_congr fun r hr => ?_
  rw [Nat.zero_add, remaining, owned_remaining hb.nodup (hb.ne hr)]

theorem removed_of_adoptable (hb : Based R id g) (ho : ∀ s ∈ g.shards, s.owners ≠ [])
    (h : HeldElsewhere id g) (ha : (∃ s ∈ g.shards, Alone id s) → Adoptable R id g) :
    (deleteNode id M g).2 = none ∧ Removed M.now R id g (deleteNode id M g).1
      ∧ ∀ s ∈ (deleteNode id M g).1.shards, ¬s.OwnedBy id := by
  have ⟨hp, he, hl, hf⟩ : g.shards.Pairwise (fun t s => Alone id s → t.id ≠ s.id)
      ∧ (newOwners id M g).2 = none
      ∧ (newOwners id M g).1.length = (orphanedShards id g).length
      ∧ Fair R (owned g.shards) (newOwners id M g).1 := by
    by_cases hs : ∃ s ∈ g.shards, Alone id s
    case pos =>
      have ha := ha hs
      have hR : R.Nonempty := by
        obtain ⟨s, hs, o, hm, hn⟩ := h
        exact ⟨o.nodeID, hb.exist s hs _ ⟨o, hm, rfl⟩ hn⟩
      have hsp : Spared R (owned g.shards) (orphanedShards id g).length := fun a hm hbig =>
        orphans_length hb ho ▸ ha.turns a hm hbig
      exact ⟨ha.first, picks_fair M g.id (counts_nodeOwnerFreqs hb ha.shared) hR hsp⟩
    case neg =>
      push Not at hs
      have hz : orphanedShards id g = [] := by
        rw [← length_eq_zero_iff, orphans_length hb ho, countP_eq_zero]
        simpa using hs
      have hn : newOwners id M g = ([], none) := by rw [newOwners, hz]; rfl
      rw [hn, hz]
      refine ⟨List.Pairwise.imp_of_mem (fun {t s} _ hm _ => ?_) (pairwise_of_forall fun _ _ => trivial),
        rfl, rfl, trivial⟩
      exact fun ha => absurd ha (hs s hm)
  have hd := deleteNode_of_held (M := M) hb h
  rw [orphanedShards, assignAll_eq_fill ((pairwise_remaining_iff hb ho).mpr hp)] at hd
  exact ⟨by rw [hd, he], removed_of_adopts hb ho h (by rw [hd]) ((fair_newOwners_iff hb hl).mpr hf)⟩

theorem owners_ne_nil_of_removed (hb : Based R id g)
    (h : ∀ M : Machine, Removed M.now R id g (deleteNode id M g).1) :
    ∀ s ∈ g.shards, s.owners ≠ [] := by
  intro s hs he
  have hn : ¬s.OwnedBy id := owners_eq_nil_iff.mp he id
  by_cases hh : HeldElsewhere id g
  case pos =>
    obtain ⟨p, hp⟩ := mem_iff_getElem?.mp hs
    have hr := h (.ascending .zero)
    exact (hr.owners hh s <| mem_of_getElem? (hr.kept p s hp hn)).left he
  case neg =>
    -- The group is marked as deleted, although the shard had no owner to lose.
    have hr := (h (.ascending (g.deletedAt + 1))).marked
    have hm : ¬(g.shards = [] ∨ ∀ s ∈ g.shards, Alone id s) := by
      rintro (hz | ha)
      case inl => simp [hz] at hs
      case inr => simpa [Alone, he] using ha s hs
    rw [deleteNode_of_not_held hb hh, if_neg hm] at hr
    exact absurd hr (Int.ne_of_gt (Int.lt_succ g.deletedAt))

theorem fair_of_removed (hb : Based R id g) (ho : ∀ s ∈ g.shards, s.owners ≠ [])
    (hh : HeldElsewhere id g) (hp : g.shards.Pairwise fun t s => Alone id s → t.id ≠ s.id)
    (he : (deleteNode id M g).2 = none) (h : Removed M.now R id g (deleteNode id M g).1) :
    (newOwners id M g).2 = none ∧ Fair R (owned g.shards) (newOwners id M g).1 := by
  have hd := deleteNode_of_held (M := M) hb hh
  rw [orphanedShards, assignAll_eq_fill ((pairwise_remaining_iff hb ho).mpr hp)] at hd
  rw [hd] at he h
  exact ⟨he, (fair_newOwners_iff hb (picks_length he)).mp <|
    (adopts_remaining_iff hb ho).mpr (h.adopted hh)⟩

theorem pairwise_of_removed (hb : Based R id g) (ho : ∀ s ∈ g.shards, s.owners ≠ [])
    (hh : HeldElsewhere id g) (h : Removed M.now R id g (deleteNode id M g).1) :
    g.shards.Pairwise fun t s => Alone id s → t.id ≠ s.id := by
  refine pairwise_iff_getElem.mpr fun i j hi hj hlt ha he => ?_
  have hm := getElem_mem hj
  have hn := (relinquish_owners_eq_nil_iff_alone (hb.nodup _ hm) (ho _ hm)).mpr ha
  have hr {k : Nat} (hk : k < g.shards.length) :
      (remaining id g)[k]? = some (relinquish id g.shards[k]) :=
    getElem?_remaining (getElem?_eq_getElem hk)
  have hs := getElem?_assignAll_of_earlier (orphanedShards id g) (newOwners id M g).1 (hr hi) (hr hj)
    hlt (by simpa using he)
  rw [deleteNode_of_held hb hh] at h
  exact (h.owners hh _ (mem_of_getElem? hs)).left hn

theorem adoptable_of_removed (hb : Based R id g) (ho : ∀ s ∈ g.shards, s.owners ≠ [])
    (hh : HeldElsewhere id g) (hs : ∃ s ∈ g.shards, Alone id s)
    (h : ∀ M : Machine,
      (deleteNode id M g).2 = none ∧ Removed M.now R id g (deleteNode id M g).1) :
    Adoptable R id g := by
  have hp := pairwise_of_removed hb ho hh (h (.ascending .zero)).right
  have hf (M : Machine) := fair_of_removed hb ho hh hp (h M).left (h M).right
  have hl := orphans_length hb ho
  have shared : ∀ r ∈ R, ∃ s ∈ g.shards, s.OwnedBy r := by
    intro r hr
    -- The first orphan gets a node that owns a shard, so no other node owns none.
    have ⟨he, hf⟩ := hf (.ascending .zero)
    match hos : orphanedShards id g with
    | [] =>
      obtain ⟨s, hs, ha⟩ := hs
      rw [hos, length_nil, eq_comm, countP_eq_zero] at hl
      simpa [ha] using hl s hs
    | o :: os =>
      rw [newOwners, hos] at he hf
      cases hk : newShardOwner o (nodeOwnerFreqs id g)
        ((Machine.ascending .zero).order g.id o.id (nodeOwnerFreqs id g))
      case error => simp [picks, hk] at he
      case ok r' =>
        obtain ⟨n, freqs'⟩ := r'
        have ⟨hm, _⟩ := newShardOwner.mem_of_ok (Machine.visits _ _ _ _) hk
        have hn := owned_pos_iff.mpr (mem_nodeOwnerFreqs.mp hm).right
        simp only [picks, hk, Prod.map_fst, Fair] at hf
        exact owned_pos_iff.mp <| lt_of_lt_of_le hn (hf.left.right r hr)
  refine ⟨hp, shared, fun a ha hbig => ?_⟩
  have ⟨he, hf⟩ := hf (.first a.toInt64)
  exact hl ▸ le_room_of_fair (.first a.toInt64) g.id
    (fun group shard _ => Machine.order_first group shard)
    (counts_nodeOwnerFreqs hb shared) ha hbig he hf

end DeleteNode

end ShardGroupInfo

namespace Data

variable {d d' : Data} {id : UInt64} {M : Machine}

open ShardGroupInfo

theorem based_of_wellOwned (id : UInt64) (hw : d.WellOwned) (hg : g ∈ d.data.groups) :
    Based (d.others id) id g where
  nodup s hs := (hw s (mem_flatMap.mpr ⟨g, hg, hs⟩)).left
  exist s hs n ho hn := by
    have := (hw s (mem_flatMap.mpr ⟨g, hg, hs⟩)).right (ownedBy_iff.mp ho)
    simpa [others, hn] using this
  gone := by simp [others]

theorem nodeRemoved_iff_groups (hid : id ∈ d.nodeIDs) : d.NodeRemoved M id ↔
    ∀ g ∈ d.data.groups, (deleteNode id M g).2 = none
      ∧ Removed M.now (d.others id) id g (deleteNode id M g).1
      ∧ ∀ s ∈ (deleteNode id M g).1.shards, ¬s.OwnedBy id := by
  have hn : (d.dataNode id).isSome := by
    obtain ⟨node, hm, rfl⟩ := mem_map.mp hid
    exact find?_isSome.mpr ⟨node, hm, by simp⟩
  constructor
  case mp =>
    rintro ⟨d', hd, -, hs, hr⟩
    obtain ⟨_, he, rfl⟩ := deleteDataNode_eq_ok.mp hd
    rw [Influx.Data.shards, groups_withoutNode he] at hs
    rw [groups_withoutNode he, forall₂_map_right_iff, forall₂_same] at hr
    intro g hg
    exact ⟨he g hg, hr g hg, fun s hm => hs s (mem_flatMap.mpr ⟨_, mem_map_of_mem hg, hm⟩)⟩
  case mpr =>
    intro h
    have he g (hg : g ∈ d.data.groups) := (h g hg).left
    refine ⟨_, deleteDataNode_eq_ok.mpr ⟨hn, he, rfl⟩, rfl, ?_, ?_⟩
    · rw [Influx.Data.shards, groups_withoutNode he]
      intro s hs
      obtain ⟨g', hg', hm⟩ := mem_flatMap.mp hs
      obtain ⟨g, hg, rfl⟩ := mem_map.mp hg'
      exact (h g hg).right.right s hm
    · rw [groups_withoutNode he]
      exact forall₂_map_right_iff.mpr <| forall₂_same.mpr fun g hg => (h g hg).right.left

theorem nodeRemoved_iff (hw : d.WellOwned) (hid : id ∈ d.nodeIDs) :
    (∀ M, d.NodeRemoved M id) ↔ d.Removable id := by
  simp only [nodeRemoved_iff_groups hid]
  constructor
  case mp =>
    intro h g hg
    have hb := based_of_wellOwned id hw hg
    have ho := owners_ne_nil_of_removed hb fun M => (h M g hg).right.left
    exact ⟨ho, fun hs hh =>
      adoptable_of_removed hb ho hh hs fun M => ⟨(h M g hg).left, (h M g hg).right.left⟩⟩
  case mpr =>
    intro h M g hg
    have hb := based_of_wellOwned id hw hg
    have ⟨ho, ha⟩ := h g hg
    by_cases hh : HeldElsewhere id g
    case pos => exact removed_of_adoptable hb ho hh fun hs => ha hs hh
    case neg => exact ⟨by rw [deleteNode_of_not_held hb hh], removed_of_not_held hb ho hh⟩

def ofOwners (owners : List UInt64) : Data :=
  { Data.empty with
    dataNodes := [⟨1, "h1", "t1"⟩, ⟨2, "h2", "t2"⟩, ⟨3, "h3", "t3"⟩]
    data.databases := [{
      name := "db"
      defaultRetentionPolicy := "rp"
      continuousQueries := []
      retentionPolicies := [{ Influx.Package.standard.newRetentionPolicyInfo "rp" with
        shardGroups := [{
          id := 1
          startTime := .zero
          endTime := .zero
          deletedAt := .zero
          truncatedAt := .zero
          shards := owners.zipIdx.map fun (n, i) => ⟨.ofNat (i + 1), [⟨n⟩]⟩ }] }] }] }

theorem removable_one : (ofOwners [1, 2, 3]).Removable 1 := by
  have hR : (ofOwners [1, 2, 3]).others 1 = {2, 3} := by decide +kernel
  intro g hg
  obtain rfl := mem_singleton.mp hg
  refine ⟨by decide +kernel, fun _ _ => ⟨by decide +kernel, fun r hr => ?_, fun a ha hb => ?_⟩⟩
  · rw [hR, Finset.mem_insert, Finset.mem_singleton] at hr
    rcases hr with rfl | rfl <;> decide +kernel
  · rw [hR, Finset.mem_insert, Finset.mem_singleton] at ha
    rcases ha with rfl | rfl <;> simp at hb

theorem nodeRemoved_one :
    ((ofOwners [1, 2, 3]).WellOwned ∧ 1 ∈ (ofOwners [1, 2, 3]).nodeIDs)
      ∧ ∀ M, (ofOwners [1, 2, 3]).NodeRemoved M 1 :=
  ⟨by decide +kernel,
    (nodeRemoved_iff (by decide +kernel) (by decide +kernel)).mpr removable_one⟩

-- Node 3 owns no shard, but the shard of node 1 goes to node 2, which already owns one.
theorem idle_node_passed_over :
    let d := Frame.final (deleteDataNode (.ascending .zero) 1 (ofOwners [1, 2]))
    (ofOwners [1, 2]).WellOwned ∧ 1 ∈ (ofOwners [1, 2]).nodeIDs
      ∧ d.nodeIDs = [2, 3] ∧ d.data.shards.map ownerIDs = [[2], [2]]
      ∧ ¬(ofOwners [1, 2]).NodeRemoved (.ascending .zero) 1 := by
  refine ⟨by decide +kernel, by decide +kernel, by decide +kernel, by decide +kernel, ?_⟩
  rintro ⟨d', he, -, -, hf⟩
  have hs : d'.data.groups.map (·.shards[0]?.map ownerIDs) = [some [2]] := by
    have hd : d' = Frame.final (deleteDataNode (.ascending .zero) 1 (ofOwners [1, 2])) := by
      rw [he, Frame.final_ok]
    rw [hd]
    decide +kernel
  cases hg : d'.data.groups
  case nil => rw [hg] at hf; cases hf
  case cons g gs =>
    rw [hg] at hf hs
    have ⟨n, _, hn, hmin⟩ :=
      (forall₂_cons.mp hf).1.adopted (by decide +kernel) 0 _ rfl (by decide +kernel)
    have hn : n = 2 := by simpa [hn, ownerIDs] using (cons.inj hs).1
    have hle := hmin 3 (by decide +kernel)
    rw [hn, take_zero, nil_append, drop_zero] at hle
    exact absurd hle (by decide +kernel)

end Data
end Meta
