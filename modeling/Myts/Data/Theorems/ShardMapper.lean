import Myts.Data.ShardMapper
import Myts.Meta.Standard

open List

open Influx (Package ShardInfo ShardGroupInfo)

namespace NodeShards

variable {b : NodeShards}

def get? (b : NodeShards) (node : UInt64) (q : Source) : Option (List UInt64) :=
  (b.lookup node).bind (·.lookup q)

theorem get?_append : (b.append n q x).get? n' q' =
    if n' = n ∧ q' = q then some (b.ids n q ++ [x]) else b.get? n' q' := by
  rw [get?, append]
  by_cases hn : n' = n
  case neg => rw [Finmap.lookup_insert_of_ne _ hn, if_neg fun h => hn h.1, get?]
  case pos =>
    subst hn
    rw [Finmap.lookup_insert, Option.bind_some]
    by_cases hq : q' = q
    case pos => rw [hq, Finmap.lookup_insert, if_pos ⟨rfl, rfl⟩]
    case neg =>
      rw [Finmap.lookup_insert_of_ne _ hq, if_neg fun h => hq h.2, get?]
      cases b.lookup n' <;> rfl

theorem ids_append : (b.append n q x).ids n' q' =
    if n' = n ∧ q' = q then b.ids n q ++ [x] else b.ids n' q' := by
  change ((b.append n q x).get? n' q').getD [] = _
  rw [get?_append]
  split <;> rfl

theorem ids_of_notMem (h : n ∉ b.keys) : b.ids n q = [] := by
  rw [ids, Finmap.lookup_eq_none.mpr fun hm => h (Finmap.mem_keys.mpr hm)]
  rfl

theorem keys_append : (b.append n q x).keys = insert n b.keys := by
  ext n'
  rw [Finmap.mem_keys, append, Finmap.mem_insert, Finset.mem_insert, Finmap.mem_keys]

def Filled (b : NodeShards) : Prop :=
  ∀ n q, b.get? n q ≠ some []

theorem filled_empty : Filled ∅ :=
  fun _ _ => by rw [get?, Finmap.lookup_empty]; exact nofun

theorem Filled.append (h : b.Filled) : (b.append n q x).Filled := by
  intro n' q'
  rw [get?_append]
  split
  case isTrue => simp
  case isFalse => exact h n' q'

theorem Filled.getD_get? (h : b.Filled) :
    (b.get? n q).getD l = if b.ids n q = [] then l else b.ids n q := by
  change _ = if (b.get? n q).getD [] = [] then l else (b.get? n q).getD []
  have := h n q
  cases hg : b.get? n q
  case none => rfl
  case some x => rw [hg] at this; simp_all

def others (b : NodeShards) (node : UInt64) (q : Source) : Multiset (UInt64 × UInt64) :=
  ∑ n ∈ b.keys.erase node, ((b.ids n q).map (n, ·) : Multiset (UInt64 × UInt64))

theorem others_append : (b.append n q x).others node q' =
    b.others node q' + if n ≠ node ∧ q' = q then {(n, x)} else 0 := by
  have hs : b.others node q' = ∑ n' ∈ (insert n b.keys).erase node,
      ((b.ids n' q').map (n', ·) : Multiset (UInt64 × UInt64)) := by
    refine Finset.sum_subset (Finset.erase_subset_erase _ (Finset.subset_insert _ _)) ?_
    intro n' hn hn'
    rw [ids_of_notMem fun hk => hn' (Finset.mem_erase.mpr ⟨Finset.ne_of_mem_erase hn, hk⟩)]
    rfl
  have hi (n') : ((b.append n q x).ids n' q').map (n', ·) = ((b.ids n' q').map (n', ·) +
      if n' = n then (if q' = q then {(n, x)} else 0) else 0 : Multiset (UInt64 × UInt64)) := by
    rw [ids_append]
    by_cases hn : n' = n <;> by_cases hq : q' = q <;> simp [hn, hq, ← Multiset.coe_add]
  rw [hs, others, keys_append, Finset.sum_congr rfl fun n' _ => hi n', Finset.sum_add_distrib,
    Finset.sum_ite_eq']
  by_cases hn : n = node <;> by_cases hq : q' = q <;> simp [hn, hq]

end NodeShards

namespace DistributedShardMapper

variable {c : DistributedShardMapper}

section Choose

theorem ownedBy_iff {si : ShardInfo} : si.OwnedBy n ↔ n ∈ si.owners.map (·.nodeID) := by
  simp [ShardInfo.OwnedBy]

theorem readable_iff : c.Readable si ↔ ∃ n, c.ReadableOn si n := by
  simp only [Readable, ReadableOn, ShardInfo.OwnedBy]
  constructor
  case mp =>
    rintro ⟨o, ho, hr⟩
    exact ⟨o.nodeID, ⟨o, ho, rfl⟩, hr⟩
  case mpr =>
    rintro ⟨n, ⟨o, ho, rfl⟩, hr⟩
    exact ⟨o, ho, hr⟩

theorem find?_owner_eq_none_iff :
    (si.owners.map (·.nodeID)).find? (c.shardIsReadable si.id) = none ↔ ¬c.Readable si := by
  simp [Readable, find?_eq_none]

theorem readableOn_of_find?
    (h : (si.owners.map (·.nodeID)).find? (c.shardIsReadable si.id) = some n) :
    c.ReadableOn si n :=
  ⟨ownedBy_iff.mpr (mem_of_find?_eq_some h), find?_some h⟩

theorem chooseNode_eq (c : DistributedShardMapper) (r : Nat) (si : ShardInfo) :
    (c.chooseNode r si = none ∧ ¬c.Readable si) ∨
    ∃ n, c.chooseNode r si = some n ∧ c.ReadableOn si n ∧
      (n = c.nodeID ↔ c.ReadableOn si c.nodeID) := by
  rw [chooseNode]
  by_cases ho : si.OwnedBy c.nodeID
  case pos =>
    rw [if_pos ho, Option.bind_some]
    split
    case isTrue hr => exact .inr ⟨c.nodeID, rfl, ⟨ho, hr⟩, iff_of_true rfl ⟨ho, hr⟩⟩
    case isFalse hr =>
      cases hf : (si.owners.map (·.nodeID)).find? (c.shardIsReadable si.id)
      case none => exact .inl ⟨rfl, find?_owner_eq_none_iff.mp hf⟩
      case some n =>
        have hn := readableOn_of_find? hf
        refine .inr ⟨n, rfl, hn, iff_of_false ?_ fun h => hr h.2⟩
        rintro rfl
        exact hr hn.2
  case neg =>
    have hne {n} (hn : c.ReadableOn si n) : n = c.nodeID ↔ c.ReadableOn si c.nodeID :=
      iff_of_false (fun h => ho (h ▸ hn.1)) fun h => ho h.1
    rw [if_neg ho]
    cases hi : si.owners[r % si.owners.length]?
    case none =>
      have hl : si.owners = [] := by
        by_contra hl
        have := Nat.mod_lt r (length_pos_iff.mpr hl)
        have := List.getElem?_eq_none_iff.mp hi
        omega
      exact .inl ⟨rfl, by simp [Readable, hl]⟩
    case some o =>
      have hm : si.OwnedBy o.nodeID := ⟨o, mem_of_getElem? hi, rfl⟩
      rw [Option.map_some, Option.bind_some]
      split
      case isTrue hr => exact .inr ⟨o.nodeID, rfl, ⟨hm, hr⟩, hne ⟨hm, hr⟩⟩
      case isFalse hr =>
        cases hf : (si.owners.map (·.nodeID)).find? (c.shardIsReadable si.id)
        case none => exact .inl ⟨rfl, find?_owner_eq_none_iff.mp hf⟩
        case some n => exact .inr ⟨n, rfl, readableOn_of_find? hf, hne (readableOn_of_find? hf)⟩

end Choose

section Visit

variable {sis : List ShardInfo}

variable (c) in
def Spread (sis : List ShardInfo) (X : Multiset (UInt64 × UInt64)) : Prop :=
  ∃ ps : List (ShardInfo × UInt64),
    ps.map Prod.fst = sis.filter (fun si => c.Readable si ∧ ¬c.ReadableOn si c.nodeID) ∧
    (∀ p ∈ ps, c.ReadableOn p.1 p.2) ∧ X = ps.map fun p => (p.2, p.1.id)

variable (c) in
def localIDs (sis : List ShardInfo) : List UInt64 :=
  (sis.filter (c.ReadableOn · c.nodeID)).map (·.id)

theorem foldl_visit_ne (hq : q' ≠ q) (b : NodeShards × Nat) :
    (sis.foldl (c.visit q) b).1.get? n q' = b.1.get? n q' ∧
    (sis.foldl (c.visit q) b).1.others n q' = b.1.others n q' := by
  induction sis generalizing b
  case nil => exact ⟨rfl, rfl⟩
  case cons si sis hi =>
    rw [foldl_cons, (hi _).1, (hi _).2, visit]
    split
    case h_1 => exact ⟨rfl, rfl⟩
    case h_2 =>
      rw [NodeShards.get?_append, NodeShards.others_append, if_neg fun h => hq h.2,
        if_neg fun h => hq h.2, add_zero]
      exact ⟨rfl, rfl⟩

theorem foldl_visit_ids (b : NodeShards × Nat) :
    (sis.foldl (c.visit q) b).1.ids c.nodeID q = b.1.ids c.nodeID q ++ c.localIDs sis := by
  induction sis generalizing b
  case nil => exact (append_nil _).symm
  case cons si sis hi =>
    have hc : c.localIDs (si :: sis) =
        if c.ReadableOn si c.nodeID then si.id :: c.localIDs sis else c.localIDs sis := by
      rw [localIDs, filter_cons]
      split <;> simp_all [localIDs]
    rw [foldl_cons, hi, hc]
    obtain ⟨hn, hr⟩ | ⟨n, hn, hr, hl⟩ := c.chooseNode_eq (c.rand b.2) si
    case inl =>
      have : ¬c.ReadableOn si c.nodeID := fun h => hr (readable_iff.mpr ⟨_, h⟩)
      simp [visit, hn, this]
    case inr =>
      rw [visit, hn, NodeShards.ids_append]
      simp only [← hl, and_true, eq_comm (a := c.nodeID)]
      split
      case isTrue h => simp [h]
      case isFalse h => rfl

theorem foldl_visit_others (b : NodeShards × Nat) :
    ∃ X, c.Spread sis X ∧
      (sis.foldl (c.visit q) b).1.others c.nodeID q = b.1.others c.nodeID q + X := by
  induction sis generalizing b
  case nil => exact ⟨0, ⟨[], rfl, nofun, rfl⟩, (add_zero _).symm⟩
  case cons si sis hi =>
    obtain ⟨X, ⟨ps, hps, hr, rfl⟩, hX⟩ := hi (c.visit q b si)
    rw [foldl_cons, hX]
    obtain ⟨hn, hr'⟩ | ⟨n, hn, hr', hl⟩ := c.chooseNode_eq (c.rand b.2) si
    case inl =>
      refine ⟨_, ⟨ps, ?_, hr, rfl⟩, ?_⟩
      · simp [hps, hr']
      · simp [visit, hn]
    case inr =>
      rw [visit, hn, NodeShards.others_append]
      by_cases hl' : n = c.nodeID
      case pos =>
        refine ⟨_, ⟨ps, ?_, hr, rfl⟩, ?_⟩
        · simp [hps, hl.mp hl']
        · simp [hl']
      case neg =>
        refine ⟨_, ⟨(si, n) :: ps, ?_, forall_mem_cons.mpr ⟨hr', hr⟩, rfl⟩, ?_⟩
        · simp [hps, readable_iff.mpr ⟨n, hr'⟩, hl.not.mp hl']
        · simp [hl', add_assoc]

theorem foldl_visit_filled (b : NodeShards × Nat) (h : b.1.Filled) :
    (sis.foldl (c.visit q) b).1.Filled := by
  induction sis generalizing b
  case nil => exact h
  case cons si sis hi =>
    refine hi _ ?_
    rw [visit]
    split
    case h_1 => exact h
    case h_2 => exact h.append

end Visit

section Merge

variable {m : ShardMappings}

def localOf (m : ShardMappings) (q : Source) : List UInt64 :=
  if m.hasLocal then (m.localMap?.bind (·.lookup q)).getD [] else []

def remotesOf (m : ShardMappings) (q : Source) : Multiset (UInt64 × UInt64) :=
  m.remotes.bind fun (node, shardMap) => ((shardMap.lookup q).getD []).map (node, ·)

theorem assigned_eq :
    c.assigned m q =
      ((localOf m q).map (c.nodeID, ·) : Multiset (UInt64 × UInt64)) + remotesOf m q := by
  rw [assigned, localOf]
  split <;> rfl

theorem remotesOf_merge : remotesOf (c.merge m b) q = remotesOf m q + b.others c.nodeID q := by
  have hi (n) : (((b.lookup n).getD ∅).lookup q).getD [] = b.ids n q := by
    rw [NodeShards.ids]
    cases b.lookup n <;> rfl
  rw [remotesOf, merge, Multiset.add_bind, Multiset.bind_map]
  simp only [hi]
  rfl

def WellFormed (m : ShardMappings) : Prop :=
  m.hasLocal = m.localMap?.isSome

theorem WellFormed.merge (h : WellFormed m) : WellFormed (c.merge m b) := by
  rw [WellFormed, DistributedShardMapper.merge]
  dsimp only
  cases hb : b.lookup c.nodeID
  case none =>
    have : c.nodeID ∉ b := Finmap.lookup_eq_none.mp hb
    simpa [this, WellFormed] using h
  case some =>
    have : c.nodeID ∈ b := Finmap.mem_of_lookup_eq_some hb
    simp [this]

theorem localOf_merge (h : WellFormed m) :
    localOf (c.merge m b) q = (b.get? c.nodeID q).getD (localOf m q) := by
  rw [localOf, merge, NodeShards.get?]
  dsimp only
  cases hb : b.lookup c.nodeID
  case none =>
    have : c.nodeID ∉ b := Finmap.lookup_eq_none.mp hb
    simp [this, localOf]
  case some shardMap =>
    have hl : localOf m q = ((m.localMap?.getD ∅).lookup q).getD [] := by
      rw [localOf, h]
      cases m.localMap? <;> rfl
    rw [decide_eq_true (Finmap.mem_of_lookup_eq_some hb), Bool.or_true, if_pos rfl, hl]
    simp only [Option.bind_some]
    cases hq : shardMap.lookup q
    case none =>
      rw [Finmap.lookup_union_right (Finmap.lookup_eq_none.mp hq), Option.getD_none]
    case some =>
      rw [Finmap.lookup_union_left (Finmap.mem_of_lookup_eq_some hq), hq, Option.getD_some,
        Option.getD_some]

end Merge

section Walk

variable (c) in
inductive Spreads (sis : List ShardInfo) : Nat → Multiset (UInt64 × UInt64) → Prop
  | zero : Spreads sis 0 0
  | add : Spreads sis k X → c.Spread sis Y → Spreads sis (k + 1) (X + Y)

theorem Spreads.one (h : c.Spread sis X) : c.Spreads sis 1 X :=
  zero_add X ▸ .add .zero h

theorem Spreads.add_add (hX : c.Spreads sis j X) (hY : c.Spreads sis k Y) :
    c.Spreads sis (j + k) (X + Y) := by
  induction hY
  case zero => simpa using hX
  case add hZ hi => exact add_assoc X _ _ ▸ .add hi hZ

theorem Spreads.card (h : c.Spreads sis k X) : X.card =
    k * (sis.filter fun si => c.Readable si ∧ ¬c.ReadableOn si c.nodeID).length := by
  induction h
  case zero => simp
  case add hY hi =>
    obtain ⟨ps, hps, _, rfl⟩ := hY
    rw [Multiset.card_add, hi, ← hps]
    simp [add_mul]

variable (c) in
structure Walked (sis : List ShardInfo) (q : Source) (s : Sources) (p : Progress) (m : ShardMappings)
    (p' : Progress) (m' : ShardMappings) : Prop where
  wf : WellFormed m'
  filled : p'.shards.Filled
  ids : p'.shards.ids c.nodeID q = p.shards.ids c.nodeID q ++
            if Mentions q s ∧ q ∉ p.all then c.localIDs sis else []
  others : ∃ X, c.Spreads sis (if Mentions q s ∧ q ∉ p.all then 1 else 0) X ∧
            p'.shards.others c.nodeID q = p.shards.others c.nodeID q + X
  remotes : ∃ X, c.Spreads sis (nested q s) X ∧ remotesOf m' q = remotesOf m q + X
  own : localOf m' q = if nested q s = 0 then localOf m q else c.localIDs sis

theorem Walked.merge (h : c.Walked sis q s .start m p' m')
    (hl : localOf m q = [] ∨ localOf m q = c.localIDs sis) :
    (∃ X, c.Spreads sis (lists q s) X ∧
      remotesOf (c.merge m' p'.shards) q = remotesOf m q + X) ∧
    localOf (c.merge m' p'.shards) q = if lists q s = 0 then localOf m q else c.localIDs sis := by
  obtain ⟨X, hX, hXe⟩ := h.others
  obtain ⟨Y, hY, hYe⟩ := h.remotes
  have hids := h.ids
  have h₀ : Progress.start.shards.ids c.nodeID q = [] := rfl
  have h₁ : Progress.start.shards.others c.nodeID q = 0 := rfl
  have hall : q ∉ Progress.start.all := Finset.notMem_empty q
  simp only [hall, not_false_eq_true, and_true, h₀, h₁, zero_add, nil_append] at hX hXe hids
  refine ⟨⟨Y + X, hY.add_add hX, ?_⟩, ?_⟩
  · rw [remotesOf_merge, hYe, hXe, add_assoc]
  · rw [localOf_merge h.wf, h.filled.getD_get?, h.own, hids, lists]
    by_cases hm : Mentions q s
    case neg => simp [hm]
    case pos =>
      simp only [hm, if_true, Nat.add_eq_zero_iff, one_ne_zero, and_false, if_false]
      split
      case isFalse => rfl
      case isTrue hn =>
        rw [hn] at hl ⊢
        rw [or_self] at hl
        rw [hl, ite_self]

theorem shards_eq (h : c.shardGroupsByTimeRange q tmin tmax = .ok groups) :
    c.shards q tmin tmax = groups.flatMap (·.shards) := by
  rw [shards, h]

theorem walked_mapSources
    (h : c.mapSources tmin tmax s p m = .ok (p', m')) (hw : WellFormed m.1) (hf : p.shards.Filled)
    (hl : localOf m.1 q = [] ∨ localOf m.1 q = c.localIDs (c.shards q tmin tmax)) :
    c.Walked (c.shards q tmin tmax) q s p m.1 p' m'.1 := by
  induction s generalizing p m p' m'
  case nil =>
    cases h
    exact {
      wf := hw
      filled := hf
      ids := by simp [Mentions]
      others := ⟨0, by simpa [Mentions] using .zero, by simp⟩
      remotes := ⟨0, .zero, by simp⟩
      own := by simp [nested] }
  case measurement s rest hi =>
    rw [mapSources] at h
    split at h
    case isTrue hs =>
      have hw := hi h hw hf hl
      have hm : Mentions q (.measurement s rest) ∧ q ∉ p.all ↔ Mentions q rest ∧ q ∉ p.all := by
        refine and_congr_left fun hq => or_iff_right ?_
        rintro rfl
        exact hq hs
      exact {
        wf := hw.wf
        filled := hw.filled
        ids := by rw [hw.ids]; simp only [hm]
        others := by simp only [hm]; exact hw.others
        remotes := hw.remotes
        own := hw.own }
    case isFalse hs =>
      split at h
      case h_1 => cases h
      case h_2 groups hg =>
        have hsis : ∃ X, c.Spread (c.shards s tmin tmax) X ∧
            ((c.shards s tmin tmax).foldl (c.visit s) (p.shards, m.2)).1.others c.nodeID s
              = p.shards.others c.nodeID s + X :=
          foldl_visit_others _
        rw [← shards_eq hg] at h
        have hf' : ((c.shards s tmin tmax).foldl (c.visit s) (p.shards, m.2)).1.Filled :=
          foldl_visit_filled _ hf
        have hw := hi (m := (m.1, _)) h hw hf' hl
        by_cases hq : q = s
        case pos =>
          subst hq
          have hq' : q ∉ insert q p.all ↔ False := by simp
          obtain ⟨X, hX, hXe⟩ := hsis
          obtain ⟨Y, hY, hYe⟩ := hw.others
          have hids := hw.ids
          simp only [hq', and_false, if_false, append_nil] at hY hids
          cases hY
          have hm : Mentions q (.measurement q rest) ∧ q ∉ p.all := ⟨.inl rfl, hs⟩
          exact {
            wf := hw.wf
            filled := hw.filled
            ids := by rw [hids, foldl_visit_ids, if_pos hm]
            others := ⟨X, by rw [if_pos hm]; exact .one hX, by rw [hYe, hXe, add_zero]⟩
            remotes := hw.remotes
            own := hw.own }
        case neg =>
          have hm : Mentions q (.measurement s rest) ∧ q ∉ p.all ↔
              Mentions q rest ∧ q ∉ insert s p.all := by
            rw [Finset.mem_insert, not_or]
            refine and_congr (or_iff_right (Ne.symm hq)) (and_iff_right hq).symm
          have hne (n) :
              ((c.shards s tmin tmax).foldl (c.visit s) (p.shards, m.2)).1.get? n q = _ ∧
              ((c.shards s tmin tmax).foldl (c.visit s) (p.shards, m.2)).1.others n q = _ :=
            foldl_visit_ne hq _
          have hids : NodeShards.ids _ c.nodeID q = _ := congrArg (·.getD []) (hne c.nodeID).1
          exact {
            wf := hw.wf
            filled := hw.filled
            ids := by rw [hw.ids, hids]; simp only [hm]; rfl
            others := by
              obtain ⟨X, hX, hXe⟩ := hw.others
              simp only [hm]
              exact ⟨X, hX, by rw [hXe, (hne c.nodeID).2]⟩
            remotes := hw.remotes
            own := hw.own }
  case subQuery inner rest hi hr =>
    rw [mapSources] at h
    split at h
    case h_1 => cases h
    case h_2 p₁ m₁ h₁ =>
      have hw₁ := hi h₁ hw NodeShards.filled_empty hl
      have ⟨⟨X, hX, hXe⟩, hown⟩ := hw₁.merge hl
      have hl₂ : localOf (c.merge m₁.1 p₁.shards) q = [] ∨
          localOf (c.merge m₁.1 p₁.shards) q = c.localIDs (c.shards q tmin tmax) := by
        rw [hown]
        split
        case isTrue => exact hl
        case isFalse => exact .inr rfl
      have hw₂ := hr h hw₁.wf.merge hf hl₂
      obtain ⟨Y, hY, hYe⟩ := hw₂.remotes
      exact {
        wf := hw₂.wf
        filled := hw₂.filled
        ids := hw₂.ids
        others := hw₂.others
        remotes := ⟨X + Y, hX.add_add hY, by rw [hYe, hXe, add_assoc]⟩
        own := by
          rw [hw₂.own, hown]
          change _ = if lists q inner + nested q rest = 0 then _ else _
          simp only [Nat.add_eq_zero_iff]
          split_ifs <;> simp_all }

end Walk

section Exact

variable {tmin tmax : GoTime} {m : ShardMappings}

theorem assigned_mapShards (h : c.mapShards tmin tmax s = .ok m) (hq : 0 < lists q s) :
    ∃ X, c.Spreads (c.shards q tmin tmax) (lists q s) X ∧ c.assigned m q =
      ((c.localIDs (c.shards q tmin tmax)).map (c.nodeID, ·) : Multiset (UInt64 × UInt64)) + X := by
  rw [mapShards] at h
  split at h
  case h_1 => cases h
  case h_2 p m' hm =>
    cases h
    have hw := walked_mapSources (q := q) hm rfl NodeShards.filled_empty (.inl rfl)
    obtain ⟨⟨X, hX, hXe⟩, hl⟩ := hw.merge (.inl rfl)
    refine ⟨X, hX, ?_⟩
    rw [assigned_eq, hl, if_neg hq.ne', hXe]
    exact congrArg _ (zero_add X)

theorem filter_readableOn_filter_readable (sis : List ShardInfo) :
    (sis.filter c.Readable).filter (c.ReadableOn · c.nodeID) =
      sis.filter (c.ReadableOn · c.nodeID) := by
  rw [filter_filter]
  refine filter_congr fun si _ => ?_
  rw [Bool.and_eq_left_iff_imp, decide_eq_true_eq, decide_eq_true_eq]
  exact fun h => readable_iff.mpr ⟨_, h⟩

theorem perm_filter_readable (sis : List ShardInfo) :
    (sis.filter (c.ReadableOn · c.nodeID) ++
      sis.filter (fun si => c.Readable si ∧ ¬c.ReadableOn si c.nodeID)).Perm
      (sis.filter c.Readable) := by
  have hp := filter_append_perm (c.ReadableOn · c.nodeID) (sis.filter c.Readable)
  have hr : (sis.filter c.Readable).filter (fun si => !decide (c.ReadableOn si c.nodeID)) =
      sis.filter (fun si => c.Readable si ∧ ¬c.ReadableOn si c.nodeID) := by
    rw [filter_filter]
    exact filter_congr fun si _ => by simp [Bool.and_comm]
  rwa [filter_readableOn_filter_readable, hr] at hp

theorem exact_of_spread (h : c.Spread (c.shards q tmin tmax) X) (ha : c.assigned m q =
      ((c.localIDs (c.shards q tmin tmax)).map (c.nodeID, ·) : Multiset (UInt64 × UInt64)) + X) :
    c.Exact tmin tmax m q := by
  obtain ⟨ps, hps, hr, rfl⟩ := h
  refine ⟨((c.shards q tmin tmax).filter (c.ReadableOn · c.nodeID)).map (·, c.nodeID) ++ ps,
    ?_, ?_, ?_⟩
  · rw [map_append, hps, map_map]
    exact (map_id _).symm ▸ perm_filter_readable _
  · intro p hp
    obtain hp | hp := mem_append.mp hp
    case inr => exact hr p hp
    case inl =>
      obtain ⟨si, hsi, rfl⟩ := mem_map.mp hp
      exact of_decide_eq_true (mem_filter.mp hsi).2
  · rw [ha, localIDs, map_append, ← Multiset.coe_add, map_map, map_map]
    rfl

theorem exact_iff (h : c.mapShards tmin tmax s = .ok m) (hq : 0 < lists q s) :
    c.Exact tmin tmax m q ↔ lists q s = 1 ∨
      ∀ si ∈ c.shards q tmin tmax, c.Readable si → c.ReadableOn si c.nodeID := by
  obtain ⟨X, hX, ha⟩ := assigned_mapShards h hq
  have hcard := hX.card
  have hnil : (c.shards q tmin tmax).filter
      (fun si => c.Readable si ∧ ¬c.ReadableOn si c.nodeID) = [] ↔
      ∀ si ∈ c.shards q tmin tmax, c.Readable si → c.ReadableOn si c.nodeID := by
    simp [filter_eq_nil_iff]
  rw [← hnil]
  constructor
  case mp =>
    rintro ⟨ps, hps, _, he⟩
    have hl := (perm_filter_readable (c := c) (c.shards q tmin tmax)).length_eq
    have hn := congrArg Multiset.card (he.symm.trans ha)
    rw [Multiset.card_add, hcard, Multiset.coe_card, Multiset.coe_card, length_map,
      length_map, localIDs, length_map] at hn
    rw [← hps.length_eq, length_map, length_append] at hl
    have hk := Nat.add_left_cancel (hn.symm.trans hl.symm)
    obtain hr | hr := eq_or_ne (List.length (List.filter _ _)) 0
    case inl => exact .inr (length_eq_zero_iff.mp hr)
    case inr => exact .inl ((mul_eq_right₀ hr).mp hk)
  case mpr =>
    rintro (h₁ | h₀)
    case inl =>
      rw [h₁] at hX
      obtain _ | ⟨hZ, hY⟩ := hX
      cases hZ
      exact exact_of_spread hY (by rwa [zero_add] at ha)
    case inr =>
      rw [h₀, length_nil, mul_zero, Multiset.card_eq_zero] at hcard
      exact exact_of_spread ⟨[], h₀.symm, nofun, hcard⟩ ha

-- A source that is mentioned by several lists of sources must have all its shards on this node.
theorem mapShards_assigned_iff (h : c.mapShards tmin tmax s = .ok m) :
    (∀ q, 0 < lists q s → c.Exact tmin tmax m q) ↔
      ∀ q, 1 < lists q s → ∀ si ∈ c.shards q tmin tmax, c.Readable si →
        c.ReadableOn si c.nodeID := by
  refine forall_congr' fun q => ⟨fun hx hq => ?_, fun hl hq => ?_⟩
  · refine ((exact_iff h (by omega)).mp (hx (by omega))).resolve_left (by omega)
  · refine (exact_iff h hq).mpr ?_
    obtain hq | hq := (Nat.succ_le_of_lt hq).eq_or_lt
    case inl => exact .inl hq.symm
    case inr => exact .inr (hl hq)

end Exact

section TwoPolicies

def policy (name : String) (shard : ShardInfo) : Influx.RetentionPolicyInfo where
  name
  replicaN := 1
  duration := 0
  shardGroupDuration := 10
  shardGroups := [⟨1, 0, 10, 0, 0, [shard]⟩]
  subscriptions := []

def onNode1 : DistributedShardMapper where
  package := .standard
  data := { Meta.Data.empty with
    data := { Meta.Data.empty.data with
      databases := [{
        name := "db"
        defaultRetentionPolicy := "rp"
        retentionPolicies := [policy "rp" ⟨7, [⟨2⟩]⟩, policy "here" ⟨8, [⟨1⟩]⟩]
        continuousQueries := [] }] }
    shardStatus := some <| Finmap.insert 8 (Finmap.singleton 1 Meta.shardWriteRead)
      (Finmap.singleton 7 (Finmap.singleton 2 Meta.shardWriteRead)) }
  nodeID := 1
  rand := fun _ => 0

def cpu : Source := ⟨"db", "rp"⟩

def mem : Source := ⟨"db", "here"⟩

def twice : Sources :=
  .subQuery (.measurement cpu .nil) (.measurement cpu .nil)

theorem mapShards_assigns_twice :
    (onNode1.mapShards 0 5 twice).toOption.map (onNode1.assigned · cpu) = some {(2, 7), (2, 7)} ∧
    ∀ m, onNode1.mapShards 0 5 twice = .ok m → ¬onNode1.Exact 0 5 m cpu := by
  refine ⟨by decide +kernel, fun m hm => ?_⟩
  rw [exact_iff hm (by decide +kernel)]
  decide +kernel

def once : Sources :=
  .subQuery (.measurement mem .nil) (.measurement cpu (.measurement mem .nil))

theorem mapShards_assigned_once : ∃ m, onNode1.mapShards 0 5 once = .ok m ∧
    onNode1.Exact 0 5 m cpu ∧ onNode1.Exact 0 5 m mem := by
  obtain ⟨m, hm⟩ : ∃ m, onNode1.mapShards 0 5 once = .ok m := ⟨_, rfl⟩
  have hx := (mapShards_assigned_iff hm).mpr fun q hq => by
    by_cases h : q = mem
    case pos => subst h; decide +kernel
    case neg =>
      simp only [lists, once, nested, Mentions, Ne.symm h, or_false, if_false] at hq
      split at hq <;> omega
  exact ⟨m, hm, hx cpu (by decide +kernel), hx mem (by decide +kernel)⟩

end TwoPolicies

end DistributedShardMapper
