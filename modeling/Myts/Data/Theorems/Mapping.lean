import Myts.Data.Mapping
import Myts.Lib.Frame

open List

namespace Influx.Standard

theorem byEndTime_sortsGroups : byEndTime.SortsGroups where
  perm l := perm_insertionSort _ _
  sorted l := by
    let r (g h : ShardGroupInfo) : Prop :=
      g.endTime < h.endTime ∨ g.endTime = h.endTime ∧ g.startTime ≤ h.startTime
    have : Std.Total r := ⟨fun a b => by grind⟩
    have : IsTrans ShardGroupInfo r := ⟨fun a b c => by grind⟩
    exact l.pairwise_insertionSort r

theorem mem_of_shardFor (g : ShardGroupInfo) (n : UInt64) (s : ShardInfo)
    (h : shardFor g n = some s) : s ∈ g.shards :=
  mem_of_getElem? h

end Influx.Standard

open Influx (Package Point RetentionPolicyInfo ShardInfo ShardGroupInfo)

namespace SgList

variable {l : SgList}

def Sorted (l : SgList) : Prop :=
  l.Pairwise fun g h => g.endTime < h.endTime ∨ g.endTime = h.endTime ∧ g.startTime ≤ h.startTime

theorem shardGroupAt_eq (h : l.Sorted) (t : GoTime) :
    l.shardGroupAt t = (l.find? (t < ·.endTime)).filter (·.startTime ≤ t) := by
  have hp : l.Pairwise fun g h => decide (t < g.endTime) → decide (t < h.endTime) :=
    h.imp fun hgh hg => by
      have hg := of_decide_eq_true hg
      exact decide_eq_true <| by rcases hgh with hgh | ⟨hgh, _⟩ <;> linarith
  rw [shardGroupAt, Search.getElem?_search hp]
  cases l.find? (t < ·.endTime)
  case none => rfl
  case some g => by_cases hg : t < g.startTime <;> simp [Option.filter, hg, not_lt.mp]

theorem of_shardGroupAt_eq_some (h : l.Sorted) (hg : l.shardGroupAt t = some g) :
    g ∈ l ∧ g.Contains t ∧ ∀ f ∈ l, t < f.endTime → g.endTime ≤ f.endTime := by
  rw [shardGroupAt_eq h, Option.filter_eq_some_iff] at hg
  obtain ⟨hf, hst⟩ := hg
  obtain ⟨hend, l₁, l₂, rfl, hl₁⟩ := find?_eq_some_iff_append.mp hf
  refine ⟨by simp, ⟨of_decide_eq_true hst, of_decide_eq_true hend⟩, fun f hf ht => ?_⟩
  rcases mem_append.mp hf with hf | hf
  case inl => simpa [ht] using hl₁ f hf
  case inr =>
    rcases mem_cons.mp hf with rfl | hf
    case inl => exact le_rfl
    case inr =>
      rcases rel_of_pairwise_cons (pairwise_append.mp h).2.1 hf with hp | ⟨hp, _⟩
      all_goals exact hp.le

theorem of_shardGroupAt_eq_none (h : l.Sorted) (hn : l.shardGroupAt t = none)
    (hg : ∃ g ∈ l, g.Contains t) :
    ∃ f ∈ l, t < f.startTime ∧ ∀ g ∈ l, g.Contains t → f.endTime < g.endTime := by
  rw [shardGroupAt_eq h] at hn
  cases hf : l.find? (t < ·.endTime)
  case none =>
    obtain ⟨g, hg, hc⟩ := hg
    exact (find?_eq_none.mp hf g hg <| decide_eq_true hc.right).elim
  case some f =>
    have hst : t < f.startTime := by simpa [hf, Option.filter] using hn
    obtain ⟨_, l₁, l₂, rfl, hl₁⟩ := find?_eq_some_iff_append.mp hf
    refine ⟨f, by simp, hst, fun g hg hc => ?_⟩
    rcases mem_append.mp hg with hg | hg
    case inl => exact (by simpa [hc.right] using hl₁ g hg : False).elim
    case inr =>
      rcases mem_cons.mp hg with rfl | hg
      case inl => exact (hc.left.not_gt hst).elim
      case inr =>
        rcases rel_of_pairwise_cons (pairwise_append.mp h).2.1 hg with hp | ⟨_, hp⟩
        case inl => exact hp
        case inr => exact (hc.left.not_gt <| hst.trans_le hp).elim

theorem isSome_shardGroupAt_iff (h : l.Sorted) (hl : ∀ f ∈ l, f.startTime < f.endTime) :
    (l.shardGroupAt t).isSome ↔ (∃ g ∈ l, g.Contains t) ∧ PointsWriter.NotBefore l t := by
  constructor
  case mp =>
    intro hg
    obtain ⟨g, hg⟩ := Option.isSome_iff_exists.mp hg
    obtain ⟨hm, hc, he⟩ := of_shardGroupAt_eq_some h hg
    exact ⟨⟨g, hm, hc⟩, fun f hf ht => ⟨g, hm, hc, he f hf <| ht.trans <| hl f hf⟩⟩
  case mpr =>
    rintro ⟨hg, hb⟩
    by_contra hn
    obtain ⟨f, hf, ht, hlt⟩ := of_shardGroupAt_eq_none h (Option.not_isSome_iff_eq_none.mp hn) hg
    obtain ⟨g, hg, hc, hle⟩ := hb f hf ht
    exact (hlt g hg hc).not_ge hle

end SgList

namespace ShardMapping

variable {m : ShardMapping P}

def Roomy (m : ShardMapping P) : Prop :=
  ∀ {id b}, m.points.lookup id = some b → m.n ≤ b.cap

theorem roomy_new {n : Nat} : (new n : ShardMapping P).Roomy := by
  simp [Roomy, new]

theorem Roomy.mapPoint (h : m.Roomy) : (m.mapPoint sh p).Roomy := by
  intro id b hb
  by_cases he : id = sh.id
  case neg =>
    rw [ShardMapping.mapPoint, Finmap.lookup_insert_of_ne _ he] at hb
    exact h hb
  case pos =>
    subst he
    rw [ShardMapping.mapPoint, Finmap.lookup_insert] at hb
    cases hb
    change m.n ≤ max _ _
    split
    case isTrue => exact le_max_left m.n _
    case isFalse => exact le_max_of_le_left <| by omega

theorem under_mapPoint (h : m.Roomy) (id : UInt64) :
    (m.mapPoint sh p).under id = m.under id ++ if id = sh.id then [p] else [] := by
  by_cases he : id = sh.id
  case neg => rw [under, under, mapPoint, Finmap.lookup_insert_of_ne _ he, if_neg he, append_nil]
  case pos =>
    subst he
    rw [under, under, mapPoint, Finmap.lookup_insert, if_pos rfl]
    cases hl : m.points.lookup sh.id
    case none => by_cases hn : 0 < m.n <;> simp [Buffer.nil, Buffer.make, Buffer.append, hn]
    case some b => simp [Buffer.append, (h hl).not_gt]

theorem keys_mapPoint : (m.mapPoint sh p).points.keys = insert sh.id m.points.keys := by
  ext id
  simp [mapPoint, Finmap.mem_keys]

theorem keys_mapPoint_eq (h : m.points.keys = m.shards.keys) :
    (m.mapPoint sh p).points.keys = (m.mapPoint sh p).shards.keys := by
  rw [keys_mapPoint, h]
  ext id
  simp [mapPoint, Finmap.mem_keys]

theorem all_mapPoint (h : m.Roomy) : (m.mapPoint sh p).all = p ::ₘ m.all := by
  have hz : sh.id ∉ m.points.keys → (m.under sh.id : Multiset P) = 0 := fun hn => by
    rw [under, Finmap.lookup_eq_none.mpr <| Finmap.mem_keys.not.mp hn]
    rfl
  have hp : ∑ id ∈ insert sh.id m.points.keys, ((if id = sh.id then [p] else [] : List P) : Multiset P)
      = {p} := by
    rw [Finset.sum_eq_single sh.id] <;> simp +contextual
  calc (m.mapPoint sh p).all
    _ = ∑ id ∈ insert sh.id m.points.keys,
          ((m.under id : Multiset P) + (if id = sh.id then [p] else [] : List P)) + m.dropped := by
      simp only [all, keys_mapPoint, under_mapPoint h, ← Multiset.coe_add]
      rfl
    _ = ∑ id ∈ m.points.keys, (m.under id : Multiset P) + {p} + m.dropped := by
      rw [Finset.sum_add_distrib, hp, Finset.sum_insert_of_eq_zero_if_notMem hz]
    _ = p ::ₘ m.all := by
      rw [all, ← Multiset.singleton_add]
      abel

end ShardMapping

namespace PointsWriter

section MapShards

variable [Point P] {I : Package} {shardFor : ShardGroupInfo → UInt64 → Option ShardInfo}

section MapPoints

variable {list : SgList} {m m' : ShardMapping P}

def shardOf (shardFor : ShardGroupInfo → UInt64 → Option ShardInfo) (list : SgList) (p : P) :
    Option ShardInfo :=
  (list.shardGroupAt (Point.time p)).bind (shardFor · (Point.hashID p))

structure Mapped (shardFor : ShardGroupInfo → UInt64 → Option ShardInfo) (list : SgList)
    (points : List P) (m m' : ShardMapping P) : Prop where
  all : m'.all = points + m.all
  dropped : m'.dropped = m.dropped ++ points.filter fun p => (list.shardGroupAt (Point.time p)).isNone
  under : ∀ id, m'.under id
    = m.under id ++ points.filter fun p => (shardOf shardFor list p).any (·.id = id)
  keys : m.points.keys = m.shards.keys → m'.points.keys = m'.shards.keys

theorem mapPoints_mapped (hr : m.Roomy) (h : mapPoints shardFor list points m = .ok m') :
    Mapped shardFor list points m m' := by
  induction points generalizing m
  case nil =>
    cases h
    exact { all := (zero_add m'.all).symm, dropped := by simp, under := by simp, keys := id }
  case cons p points hi =>
    rw [mapPoints] at h
    split at h
    case h_1 hg =>
      have hi := hi (m := m.drop p) hr h
      have ha : (m.drop p).all = p ::ₘ m.all := by
        rw [ShardMapping.all, ShardMapping.all, ← Multiset.singleton_add]
        change ∑ id ∈ m.points.keys, (m.under id : Multiset P) + (m.dropped ++ [p] : List P) = _
        rw [← Multiset.coe_add, Multiset.coe_singleton]
        abel
      exact {
        all := by rw [hi.all, ha, ← Multiset.cons_coe, Multiset.add_cons, Multiset.cons_add]
        dropped := by simp [hi.dropped, ShardMapping.drop, hg]
        under := fun id => by
          simp only [hi.under, filter_cons, shardOf, hg]
          rfl
        keys := hi.keys }
    case h_2 sg hg =>
      split at h
      case h_1 => cases h
      case h_2 sh hs =>
        have hi := hi hr.mapPoint h
        exact {
          all := by
            rw [hi.all, ShardMapping.all_mapPoint hr, ← Multiset.cons_coe, Multiset.add_cons,
              Multiset.cons_add]
          dropped := by simp [hi.dropped, ShardMapping.mapPoint, hg]
          under := fun id => by
            have he : shardOf shardFor list p = some sh := by rw [shardOf, hg, Option.bind_some, hs]
            by_cases hid : sh.id = id
            case pos => simp [hi.under, ShardMapping.under_mapPoint hr, he, hid]
            case neg => simp [hi.under, ShardMapping.under_mapPoint hr, he, hid, Ne.symm hid]
          keys := fun hk => hi.keys <| ShardMapping.keys_mapPoint_eq hk }

end MapPoints

section ShardGroups

variable {c c' : MetaClient} {list list' : SgList} {min : GoTime}

theorem createShardGroup_bind {f : Option ShardGroupInfo → ClientM α}
    (h : (MetaClient.createShardGroup t >>= f) c = .ok a c') :
    ∃ sg? answers, c.answers = .ok sg? :: answers
      ∧ f sg? { c with answers, asked := c.asked ++ [t] } = .ok a c' := by
  obtain ⟨sg?, c, hc, hf⟩ := Frame.of_bind_eq_ok h
  rw [MetaClient.createShardGroup] at hc
  split at hc <;> cases hc
  case h_3 answers ha => exact ⟨sg?, answers, ha, hf⟩

structure Fetched (min : GoTime) (points : List P) (list list' : SgList) (groups : List ShardGroupInfo)
    (times : List GoTime) : Prop where
  sorted : list'.Sorted
  perm : list'.Perm (list ++ groups)
  length : times.length = groups.length
  covers : List.Forall₂ (fun t g => g.Contains t) times groups →
    ∀ p ∈ points, min ≤ Point.time p → ∃ g ∈ list', g.Contains (Point.time p)

theorem shardGroups_fetched {points : List P} (hI : I.SortsGroups) (hs : list.Sorted)
    (h : shardGroups I min points list c = .ok list' c') :
    ∃ groups times, c.answers = groups.map (.ok ∘ some) ++ c'.answers
      ∧ c'.asked = c.asked ++ times ∧ Fetched min points list list' groups times := by
  induction points generalizing list c
  case nil =>
    cases h
    exact ⟨[], [], rfl, (append_nil _).symm, {
      sorted := hs, perm := by simp, length := rfl, covers := nofun }⟩
  case cons p points hi =>
    rw [shardGroups] at h
    split at h
    case isTrue hp =>
      obtain ⟨groups, times, ha, ht, hf⟩ := hi hs h
      refine ⟨groups, times, ha, ht, { hf with covers := fun hc => ?_ }⟩
      refine forall_mem_cons.mpr ⟨fun hm => ?_, hf.covers hc⟩
      have hp := hp.resolve_left hm.not_gt
      rw [SgList.covers] at hp
      split at hp
      case isTrue => cases hp
      case isFalse =>
        obtain ⟨g, hg⟩ := Option.isSome_iff_exists.mp hp
        obtain ⟨hg, hcon, _⟩ := SgList.of_shardGroupAt_eq_some hs hg
        exact ⟨g, hf.perm.mem_iff.mpr <| mem_append_left groups hg, hcon⟩
    case isFalse hp =>
      obtain ⟨sg?, answers, ha, h⟩ := createShardGroup_bind h
      split at h
      case h_1 => cases h
      case h_2 sg =>
        have hs := hI.sorted (list ++ [sg])
        obtain ⟨groups, times, ha', ht, hf⟩ := hi hs h
        refine ⟨sg :: groups, Point.time p :: times, ?_, ?_, {
          sorted := hf.sorted
          perm := ?_
          length := congrArg (· + 1) hf.length
          covers := fun hc => ?_ }⟩
        · exact ha.trans <| congrArg (Except.ok (some sg) :: ·) ha'
        · exact ht.trans <| append_assoc c.asked [Point.time p] times
        · refine hf.perm.trans <| (hI.perm _).append_right groups |>.trans ?_
          rw [append_assoc]; rfl
        · obtain ⟨hc, hcs⟩ := forall₂_cons.mp hc
          refine forall_mem_cons.mpr ⟨fun _ => ⟨sg, ?_, hc⟩, hf.covers hcs⟩
          refine hf.perm.mem_iff.mpr <| mem_append_left groups ?_
          exact (hI.perm _).mem_iff.mpr <| by simp

end ShardGroups

section Inversion

variable {wp : WritePointsRequest P} {c c' : MetaClient}

theorem loops_of_mapShards (h : mapShards I shardFor now wp c = .ok m c') :
    ∃ rp list, c.retentionPolicy wp.database wp.retentionPolicy = .ok (some rp)
      ∧ shardGroups I (minTime rp now) wp.points [] c = .ok list c'
      ∧ mapPoints shardFor list wp.points (.new wp.points.length) = .ok m := by
  rw [mapShards] at h
  split at h
  case h_1 => cases h
  case h_2 => cases h
  case h_3 rp hrp =>
    split at h
    case h_1 => cases h
    case h_2 list c hl =>
      cases hm : mapPoints shardFor list wp.points (.new wp.points.length) <;> rw [hm] at h <;> cases h
      exact ⟨rp, list, hrp, hl, hm⟩

theorem keys_of_mapShards (h : mapShards I shardFor now wp c = .ok m c') :
    m.points.keys = m.shards.keys := by
  obtain ⟨_, _, _, _, hm⟩ := loops_of_mapShards h
  exact (mapPoints_mapped ShardMapping.roomy_new hm).keys rfl

theorem fetched_of_mapShards (hI : I.SortsGroups) (h : mapShards I shardFor now wp c = .ok m c') :
    ∃ rp list groups times, c.retentionPolicy wp.database wp.retentionPolicy = .ok (some rp)
      ∧ c.answers = groups.map (.ok ∘ some) ++ c'.answers ∧ c'.asked = c.asked ++ times
      ∧ Fetched (minTime rp now) wp.points [] list groups times
      ∧ Mapped shardFor list wp.points (.new wp.points.length) m := by
  obtain ⟨rp, list, hrp, hl, hm⟩ := loops_of_mapShards h
  obtain ⟨groups, times, ha, ht, hf⟩ := shardGroups_fetched hI .nil hl
  exact ⟨rp, list, groups, times, hrp, ha, ht, hf, mapPoints_mapped ShardMapping.roomy_new hm⟩

end Inversion

theorem Mapped.exact_iff {m : ShardMapping P} (h : Mapped shardFor list points (.new n) m)
    (hf : Fetched t points [] list groups times)
    (hS : ∀ g n s, shardFor g n = some s → s ∈ g.shards) :
    Exact rp now groups points m ↔
      ∀ p ∈ points, ¬Expired rp now (Point.time p) → (list.shardGroupAt (Point.time p)).isSome := by
  have hu : ∀ {p id}, p ∈ m.under id →
      p ∈ points ∧ ∃ s, shardOf shardFor list p = some s ∧ s.id = id := fun hp => by
    rw [h.under] at hp
    simpa [ShardMapping.under, ShardMapping.new, Option.any_eq_true] using hp
  have hd : ∀ {p}, p ∈ m.dropped ↔ p ∈ points ∧ (list.shardGroupAt (Point.time p)).isNone := by
    simp [h.dropped, ShardMapping.new]
  constructor
  case mp =>
    intro he p hp hn
    by_contra hs
    exact hn <| he.dropped p <| hd.mpr ⟨hp, by simpa using hs⟩
  case mpr =>
    intro hs
    refine {
      all := h.all.trans <| add_zero _
      unique := fun h₁ h₂ => ?_
      placed := fun hp => ?_
      dropped := fun p hp => ?_ }
    · obtain ⟨_, s₁, hs₁, rfl⟩ := hu h₁
      obtain ⟨_, s₂, hs₂, rfl⟩ := hu h₂
      rw [Option.some.inj <| hs₁.symm.trans hs₂]
    · obtain ⟨_, s, hs, rfl⟩ := hu hp
      obtain ⟨g, hg, hs⟩ := Option.bind_eq_some_iff.mp hs
      obtain ⟨hm, hcon, _⟩ := SgList.of_shardGroupAt_eq_some hf.sorted hg
      exact ⟨fun hp => by simp [hd, hg] at hp, g, hf.perm.mem_iff.mp hm, hcon, s, hS g _ s hs, rfl⟩
    · obtain ⟨hp, hn⟩ := hd.mp hp
      by_contra he
      rw [Option.isNone_iff_eq_none] at hn
      simpa [hn] using hs p hp he

theorem minTime_le (h : ¬Expired rp now t) (ht : ¬t < .unix Influx.minNanoTime) :
    minTime rp now ≤ t := by
  rw [minTime]
  split
  case isTrue hd => exact not_lt.mp fun hlt => h ⟨hd, hlt⟩
  case isFalse => exact not_lt.mp ht

-- The condition on the groups that the meta client returned decides whether a point is dropped that
-- is not too old.
theorem mapShards_exact_iff {wp : WritePointsRequest P} {c c' : MetaClient} (hI : I.SortsGroups)
    (hS : ∀ g n s, shardFor g n = some s → s ∈ g.shards)
    (h : mapShards I shardFor now wp c = .ok m c')
    (hrp : c.retentionPolicy wp.database wp.retentionPolicy = .ok (some rp))
    (hg : c.answers = groups.map (.ok ∘ some) ++ c'.answers)
    (ht : c'.asked = c.asked ++ times)
    (hc : List.Forall₂ (fun t g => g.Contains t) times groups) :
    Exact rp now groups wp.points m ↔ ∀ p ∈ wp.points, ¬Expired rp now (Point.time p) →
      NotBefore groups (Point.time p) ∧
        (Point.time p < .unix Influx.minNanoTime → ∃ g ∈ groups, g.Contains (Point.time p)) := by
  obtain ⟨rp', list, groups', times', hrp', hg', ht', hf, hm⟩ := fetched_of_mapShards hI h
  obtain rfl : rp' = rp := by simpa using hrp'.symm.trans hrp
  obtain rfl : times' = times := append_cancel_left <| ht'.symm.trans ht
  obtain rfl : groups' = groups := by
    refine map_injective_iff.mpr ?_ <| append_cancel_right <| hg'.symm.trans hg
    exact fun _ _ he => Option.some.inj <| Except.ok.inj he
  have hmem : ∀ {g}, g ∈ list ↔ g ∈ groups' := hf.perm.mem_iff
  have hlt : ∀ f ∈ list, f.startTime < f.endTime := fun f hf' => by
    obtain ⟨t, _, hct⟩ := Slice.exists_of_forall₂ hc (hmem.mp hf')
    exact hct.left.trans_lt hct.right
  have hb : ∀ {t}, NotBefore list t ↔ NotBefore groups' t := by simp [NotBefore, hmem]
  rw [hm.exact_iff hf hS]
  refine forall₃_congr fun p hp he => ?_
  rw [SgList.isSome_shardGroupAt_iff hf.sorted hlt, hb, and_comm]
  refine and_congr_right fun _ => ⟨fun ⟨g, hg, hcon⟩ _ => ⟨g, hmem.mp hg, hcon⟩, fun hn => ?_⟩
  by_cases hmin : Point.time p < .unix Influx.minNanoTime
  case pos =>
    obtain ⟨g, hg, hcon⟩ := hn hmin
    exact ⟨g, hmem.mpr hg, hcon⟩
  case neg => exact hf.covers hc p hp <| minTime_le he hmin

end MapShards

section Standard

open Influx.Standard

theorem mapShards_exact_overlapping :
    let groups := [group 1 1 10, group 2 5 12]
    let wp := write [3, 11, 0, 6]
    let r := mapShards byEndTime shardFor 21 wp (client (policy 20) groups)
    (Frame.ok? r).isSome ∧ ∀ mc ∈ Frame.ok? r, Exact (policy 20) 21 groups wp.points mc.1 := by
  refine ⟨by decide +kernel, fun mc hmc => ?_⟩
  have hc : mc.2.answers = [] ∧ mc.2.asked = [3, 11] := by
    revert mc
    decide +kernel
  refine (mapShards_exact_iff byEndTime_sortsGroups mem_of_shardFor (Frame.of_mem_ok? hmc) rfl
    (by rw [hc.left]; rfl) hc.right ?_).mpr ?_
  all_goals decide +kernel

-- The second group was created for the second point, which is dropped all the same.
theorem mapShards_drops :
    let groups := [group 1 5 7, group 2 0 10]
    let r := mapShards byEndTime shardFor 10 (write [6, 3]) (client (policy 10) groups)
    ∃ mc ∈ Frame.ok? r, List.Forall₂ (fun t g => g.Contains t) mc.2.asked groups
      ∧ ∃ p ∈ mc.1.dropped, ¬p.time < 10 - (policy 10).duration := by
  decide +kernel

end Standard

end PointsWriter
