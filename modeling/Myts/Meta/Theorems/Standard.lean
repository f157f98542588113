import Myts.Meta.Standard

open List

-- The package that the model is run with keeps the laws.
namespace Influx

open Standard Package

namespace Standard

theorem forall₂_modify {R : α → α → Prop} (hr : ∀ a, R a a) (hf : ∀ a, R a (f a)) (l : List α) :
    List.Forall₂ R l (l.modify i f) := by
  induction l generalizing i
  case nil => cases i <;> exact .nil
  case cons a l hi =>
    cases i
    case zero => exact .cons (hf a) <| forall₂_same.mpr fun b _ => hr b
    case succ i => exact .cons (hr a) hi

theorem modifyFirst_eq {l : List α} (h : l.find? p = some a) (f : α → α) :
    ∃ l₁ l₂, l = l₁ ++ a :: l₂ ∧ modifyFirst p f l = l₁ ++ f a :: l₂ := by
  obtain ⟨_, l₁, l₂, rfl, hl⟩ := find?_eq_some_iff_append.mp h
  have hi : (l₁ ++ a :: l₂).findIdx p = l₁.length := by
    rw [findIdx_append, findIdx_eq_length.mpr fun x hx => by simpa using hl x hx]
    simp [findIdx_cons, *]
  refine ⟨l₁, l₂, rfl, ?_⟩
  rw [modifyFirst, hi, modify_eq_take_cons_drop (by simp)]
  simp

theorem modifyFirst_eq_self {l : List α} (h : l.find? p = none) : modifyFirst p f l = l := by
  rw [modifyFirst, findIdx_eq_length.mpr fun x hx => by simpa using find?_eq_none.mp h x hx]
  exact modify_eq_self (Nat.le_refl _)

theorem flatMap_modifyFirst {F : α → List β} (h : l.find? p = some a) (hf : F (f a) = F a) :
    (modifyFirst p f l).flatMap F = l.flatMap F := by
  obtain ⟨l₁, l₂, hl, hl'⟩ := modifyFirst_eq h f
  rw [hl', hl]
  simp [hf]

theorem of_onDatabase (h : onDatabase name f d = .ok d') :
    ∃ db db', d.databases.find? (·.name == name) = some db ∧ f db = .ok db' ∧
      d' = { d with databases := modifyFirst (·.name == name) (fun _ => db') d.databases } := by
  simp only [onDatabase] at h
  split at h
  case h_1 => cases h
  case h_2 db hdb =>
    cases hf : f db <;> rw [hf] at h <;> cases h
    exact ⟨db, _, hdb, hf, rfl⟩

theorem of_onPolicy (h : onPolicy database name f d = .ok d') :
    ∃ db rp rp', d.databases.find? (·.name == database) = some db ∧
      db.retentionPolicies.find? (·.name == name) = some rp ∧ f rp = .ok rp' ∧
      let policies := modifyFirst (·.name == name) (fun _ => rp') db.retentionPolicies
      let db' := { db with retentionPolicies := policies }
      d' = { d with databases := modifyFirst (·.name == database) (fun _ => db') d.databases } := by
  obtain ⟨db, db', hdb, hf, rfl⟩ := of_onDatabase h
  simp only at hf
  split at hf
  case h_1 => cases hf
  case h_2 rp hrp =>
    cases hr : f rp <;> rw [hr] at hf <;> cases hf
    exact ⟨db, rp, _, hdb, hrp, hr, rfl⟩

def policyShards (rp : RetentionPolicyInfo) : List ShardInfo :=
  rp.shardGroups.flatMap (·.shards)

theorem shards_eq (d : Data) : d.shards = d.policies.flatMap policyShards := by
  simp only [Data.shards, Data.groups, Data.policies, DatabaseInfo.groups, flatMap_assoc]
  rfl

-- The policy has taken over its groups from the other one, and its replication factor unless the
-- method sets it.
structure Version (op : Op) (rp rp' : RetentionPolicyInfo) : Prop where
  replicaN : rp.replicaN = rp'.replicaN ∨ op.SetsReplicaN rp'.replicaN
  groups : Forall₂ (fun g g' => g.id = g'.id ∧ g.shards = g'.shards) rp.shardGroups rp'.shardGroups

theorem Version.of_groups_eq (hr : rp.replicaN = rp'.replicaN ∨ op.SetsReplicaN rp'.replicaN)
    (hg : rp.shardGroups = rp'.shardGroups) : Version op rp rp' where
  replicaN := hr
  groups := hg ▸ forall₂_same.mpr fun _ _ => ⟨rfl, rfl⟩

theorem Version.refl : Version op rp rp :=
  .of_groups_eq (.inl rfl) rfl

theorem Version.shards (h : Version op rp rp') : policyShards rp = policyShards rp' := by
  have ⟨_, hg⟩ := h
  rw [policyShards, policyShards]
  generalize rp.shardGroups = l, rp'.shardGroups = l' at hg
  induction hg
  case nil => rfl
  case cons he _ hi => rw [flatMap_cons, flatMap_cons, he.right, hi]

theorem exists_of_forall₂ {R : α → β → Prop} (h : Forall₂ R l l') (hb : b ∈ l') :
    ∃ a ∈ l, R a b := by
  induction h
  case nil => cases hb
  case cons hr _ hi => grind

-- A policy is kept in some version, dropped, or brought by the call.
inductive Evolves (op : Op) (D : RetentionPolicyInfo → Prop) :
    List RetentionPolicyInfo → List RetentionPolicyInfo → Prop
  | nil : Evolves op D [] []
  | keep : Version op rp rp' → Evolves op D l l' → Evolves op D (rp :: l) (rp' :: l')
  | drop : D rp → Evolves op D l l' → Evolves op D (rp :: l) l'
  | bring : op.SetsReplicaN rp.replicaN → op.Brings rp.shardGroups → Evolves op D l l' →
    Evolves op D l (rp :: l')

namespace Evolves

theorem refl : Evolves op D l l := by
  induction l
  case nil => exact .nil
  case cons hi => exact .keep .refl hi

theorem append (h₁ : Evolves op D l₁ l₁') (h₂ : Evolves op D l₂ l₂') :
    Evolves op D (l₁ ++ l₂) (l₁' ++ l₂') := by
  induction h₁
  case nil => exact h₂
  case keep hv _ hi => exact .keep hv hi
  case drop hd _ hi => exact .drop hd hi
  case bring hs hb _ hi => exact .bring hs hb hi

theorem drops (hd : ∀ rp ∈ l, D rp) : Evolves op D l [] := by
  induction l
  case nil => exact .nil
  case cons hi =>
    obtain ⟨hr, hl⟩ := forall_mem_cons.mp hd
    exact .drop hr (hi hl)

theorem flatMap_filter {l : List α} {F : α → List RetentionPolicyInfo}
    (hd : ∀ a ∈ l, q a = false → ∀ rp ∈ F a, D rp) :
    Evolves op D (l.flatMap F) ((l.filter q).flatMap F) := by
  induction l
  case nil => exact .nil
  case cons a l hi =>
    obtain ⟨ha, hl⟩ := forall_mem_cons.mp hd
    cases hq : q a
    case true => simpa [hq] using refl.append (hi hl)
    case false => simpa [hq] using (drops (ha hq)).append (hi hl)

theorem filter (hd : ∀ rp ∈ l, q rp = false → D rp) : Evolves op D l (l.filter q) := by
  have h : Evolves op D (l.flatMap ([·])) ((l.filter q).flatMap ([·])) :=
    flatMap_filter <| by simpa using hd
  simpa using h

theorem concat (hs : op.SetsReplicaN rp.replicaN) (hb : op.Brings rp.shardGroups) :
    Evolves op D l (l ++ [rp]) := by
  simpa using (refl (l := l)).append (.bring hs hb .nil)

theorem modifyFirst (hr : l.find? p = some rp) (hv : Version op rp (f rp)) :
    Evolves op D l (modifyFirst p f l) := by
  obtain ⟨l₁, l₂, hl, hl'⟩ := modifyFirst_eq hr f
  rw [hl', hl]
  exact refl.append (.keep hv refl)

theorem database {dbs : List DatabaseInfo} (hd : dbs.find? p = some db)
    (he : Evolves op D db.retentionPolicies (f db).retentionPolicies) :
    Evolves op D (dbs.flatMap (·.retentionPolicies))
      ((Standard.modifyFirst p f dbs).flatMap (·.retentionPolicies)) := by
  obtain ⟨l₁, l₂, hl, hl'⟩ := modifyFirst_eq hd f
  rw [hl', hl, flatMap_append, flatMap_append]
  exact refl.append (he.append refl)

theorem flatMap_shards (h : Evolves op D l l') (hd : ∀ rp, D rp → policyShards rp = [])
    (hb : ∀ rp, op.Brings rp.shardGroups → policyShards rp = []) :
    l'.flatMap policyShards = l.flatMap policyShards := by
  induction h
  case nil => rfl
  case keep hv _ hi => rw [flatMap_cons, flatMap_cons, hi, hv.shards]
  case drop hr _ hi => rw [flatMap_cons, hi, hd _ hr, nil_append]
  case bring _ hr _ hi => rw [flatMap_cons, hi, hb _ hr, nil_append]

theorem of_mem (h : Evolves op D l l') (hm : rp ∈ l') :
    (∃ rp' ∈ l, Version op rp' rp) ∨ op.SetsReplicaN rp.replicaN ∧ op.Brings rp.shardGroups := by
  induction h
  case nil => cases hm
  case keep hv _ hi => grind
  case drop _ _ hi => grind
  case bring hs hb _ hi => grind

end Evolves

structure Evolved (op : Op) (d d' : Data) : Prop where
  policies : Evolves op (fun rp => op.KeepsShards d → policyShards rp = []) d.policies d'.policies
  maxShardGroupID : d'.maxShardGroupID = d.maxShardGroupID
  maxShardID : d'.maxShardID = d.maxShardID

namespace Evolved

theorem users (d : Data) (users : List UserInfo) : Evolved op d { d with users } :=
  ⟨.refl, rfl, rfl⟩

theorem onUser (h : onUser name f d = .ok d') : Evolved op d d' := by
  rw [Standard.onUser] at h
  split at h <;> cases h
  exact users d _

theorem onDatabase (h : onDatabase name f d = .ok d') (hf : ∀ {D db db'}, f db = .ok db' →
    Evolves op D db.retentionPolicies db'.retentionPolicies) : Evolved op d d' := by
  obtain ⟨db, db', hd, hr, rfl⟩ := of_onDatabase h
  exact ⟨.database hd (hf hr), rfl, rfl⟩

theorem onPolicy (h : onPolicy database name f d = .ok d')
    (hf : ∀ {rp rp'}, f rp = .ok rp' → Version op rp rp') : Evolved op d d' := by
  obtain ⟨db, rp, rp', hd, hp, hr, rfl⟩ := of_onPolicy h
  exact ⟨.database hd <| .modifyFirst hp <| hf hr, rfl, rfl⟩

theorem createDatabase (h : createDatabase name d = .ok d') : Evolved op d d' := by
  rw [Standard.createDatabase] at h
  split at h
  case isTrue => cases h
  split at h
  case isTrue => cases h; exact users d d.users
  case isFalse => cases h; exact ⟨by simpa [Data.policies] using .refl, rfl, rfl⟩

theorem dropDatabase (h : dropDatabase name d = .ok d') : Evolved (.dropDatabase name) d d' := by
  cases h
  refine ⟨.flatMap_filter fun db hd hn rp hr hk => ?_, rfl, rfl⟩
  have hs := hk db hd (by simpa using hn)
  simp only [policyShards, flatMap_eq_nil_iff]
  exact fun g hg => hs g <| mem_flatMap.mpr ⟨rp, hr, hg⟩

theorem createRetentionPolicy (h : createRetentionPolicy database rpi makeDefault d = .ok d') :
    Evolved (.createRetentionPolicy database rpi makeDefault) d d' := by
  simp only [Standard.createRetentionPolicy] at h
  iterate 3
    split at h
    case isTrue => cases h
  refine onDatabase h fun {D db db'} h => ?_
  split at h
  case h_1 =>
    cases h
    exact .concat rfl rfl
  case h_2 =>
    split at h
    case isTrue => split at h <;> cases h; exact .refl
    case isFalse => cases h

theorem dropRetentionPolicy (h : run (.dropRetentionPolicy database name) d = .ok d') :
    Evolved (.dropRetentionPolicy database name) d d' := by
  cases h
  refine ⟨?_, rfl, rfl⟩
  cases hd : d.databases.find? (·.name == database)
  case none => rw [modifyFirst_eq_self hd]; exact .refl
  case some db =>
    refine .database hd <| .filter fun rp hr hn hk => ?_
    have hs := hk db (mem_of_find?_eq_some hd) (by simpa using find?_some hd) rp hr
      (by simpa using hn)
    simpa [policyShards] using hs

theorem updateRetentionPolicy (h : updateRetentionPolicy database name rpu makeDefault d = .ok d') :
    Evolved (.updateRetentionPolicy database name rpu makeDefault) d d' := by
  rw [Standard.updateRetentionPolicy] at h
  generalize h₁ : Standard.onPolicy database name _ d = r at h
  cases r
  case error => cases h
  case ok d₁ =>
    have hp : Evolved (.updateRetentionPolicy database name rpu makeDefault) d d₁ := by
      refine onPolicy h₁ fun h => ?_
      cases h
      refine .of_groups_eq ?_ rfl
      cases hr : rpu.replicaN <;> simp [Op.SetsReplicaN, hr]
    obtain ⟨db, _, hd, hr, rfl⟩ := of_onDatabase h
    cases hr
    refine ⟨?_, hp.maxShardGroupID, hp.maxShardID⟩
    rw [Data.policies, Data.policies, flatMap_modifyFirst hd rfl]
    exact hp.policies

theorem deleteShardGroup {id : UInt64}
    (h : run (.deleteShardGroup database name id now) d = .ok d') : Evolved op d d' := by
  refine onPolicy h fun {rp rp'} h => ?_
  simp only at h
  split at h <;> cases h
  exact ⟨.inl rfl, forall₂_modify (fun _ => ⟨rfl, rfl⟩) (fun _ => ⟨rfl, rfl⟩) _⟩

end Evolved

theorem evolved_run (h : run op d = .ok d') : Evolved op d d' := by
  cases op
  case createDatabase => exact .createDatabase h
  case dropDatabase => exact .dropDatabase h
  case createRetentionPolicy => exact .createRetentionPolicy h
  case dropRetentionPolicy => exact .dropRetentionPolicy h
  case updateRetentionPolicy => exact .updateRetentionPolicy h
  case deleteShardGroup => exact .deleteShardGroup h
  case createContinuousQuery =>
    refine .onDatabase h fun h => ?_
    split at h <;> cases h
    exact .refl
  case dropContinuousQuery =>
    refine .onDatabase h fun h => ?_
    cases h
    exact .refl
  case createSubscription =>
    refine .onPolicy h fun h => ?_
    split at h <;> cases h
    exact .of_groups_eq (.inl rfl) rfl
  case dropSubscription =>
    refine .onPolicy h fun h => ?_
    split at h <;> cases h
    exact .of_groups_eq (.inl rfl) rfl
  case createUser =>
    simp only [run] at h
    split at h
    case isTrue => cases h
    split at h <;> cases h
    exact .users d _
  case dropUser =>
    simp only [run] at h
    split at h <;> cases h
    exact .users d _
  all_goals exact .onUser h

theorem evolved_standard (op : Op) (d : Data) : Evolved op d (standard.run op d).1 := by
  simp only [standard]
  split
  case h_1 h => exact evolved_run h
  case h_2 => exact .users d d.users

end Standard

theorem standard_policyLaws : standard.PolicyLaws where
  policy_isSome {d database name i j} h := by
    simp only [standard] at h
    split at h
    case h_1 => cases h
    case h_2 i' hi =>
      rw [Except.ok.injEq, Option.map_eq_some_iff] at h
      obtain ⟨j', hj, he⟩ := h
      cases he
      obtain ⟨db, hd, hj⟩ := Option.bind_eq_some_iff.mp hj
      have hl := (findIdx?_eq_some_iff_getElem.mp hj).choose
      simp [Data.policy?, hd, hl]
  replicaN_run {op d rp} hm := by
    rcases (evolved_standard op d).policies.of_mem hm with ⟨rp', hm', hv⟩ | ⟨hs, _⟩
    case inl => exact hv.replicaN.imp_left fun he => ⟨rp', hm', he⟩
    case inr => exact .inr hs

theorem standard_counterLaws : standard.CounterLaws where
  maxShardGroupID_run op d := (evolved_standard op d).maxShardGroupID
  maxShardID_run op d := (evolved_standard op d).maxShardID
  new_shardGroups := rfl
  groups_run {op d g} hm := by
    have ⟨db, hd, hm⟩ := mem_flatMap.mp hm
    have ⟨rp, hr, hg⟩ := mem_flatMap.mp hm
    have hp : rp ∈ (standard.run op d).1.policies := mem_flatMap.mpr ⟨db, hd, hr⟩
    rcases (evolved_standard op d).policies.of_mem hp with ⟨rp', hm', hv⟩ | ⟨_, hb⟩
    case inr => exact .inr ⟨_, hb, hg⟩
    have ⟨g', hg', hi, hs⟩ := exists_of_forall₂ hv.groups hg
    have ⟨db', hd', hr'⟩ := mem_flatMap.mp hm'
    refine .inl ⟨g', ?_, hi, hs⟩
    exact mem_flatMap.mpr ⟨db', hd', mem_flatMap.mpr ⟨rp', hr', hg'⟩⟩

namespace Standard

theorem find?_eq_getElem? {l : List α} (h : l.find? p = some a) : l[l.findIdx p]? = some a := by
  induction l
  case nil => cases h
  case cons b l hi => cases hb : p b <;> simp_all [findIdx_cons]

theorem getElem?_modifyFirst {l : List α} (hi : l[i]? = some a) :
    (modifyFirst p f l)[i]? = some (if l.findIdx p = i then f a else a) := by
  rw [modifyFirst, getElem?_modify, hi]
  split <;> rfl

def GroupsMarked (now : GoTime) (rp rp' : RetentionPolicyInfo) : Prop :=
  ∃ gs, rp' = { rp with shardGroups := gs }
    ∧ List.Forall₂ (fun g g' => g' = g ∨ g' = { g with deletedAt := now }) rp.shardGroups gs

theorem GroupsMarked.refl : GroupsMarked now rp rp :=
  ⟨rp.shardGroups, rfl, forall₂_same.mpr fun _ _ => .inl rfl⟩

theorem policy?_onPolicy (hf : ∀ rp rp', f rp = .ok rp' → GroupsMarked now rp rp')
    (h : onPolicy database name f d = .ok d') (hp : d.policy? i j = some rp) :
    ∃ rp', d'.policy? i j = some rp' ∧ GroupsMarked now rp rp' := by
  obtain ⟨db, rp₀, rp₁, hd, hr, hf₀, rfl⟩ := of_onPolicy h
  obtain ⟨db', hi, hj⟩ := Option.bind_eq_some_iff.mp hp
  simp only [Data.policy?, getElem?_modifyFirst hi, Option.bind_some]
  split
  case isFalse => exact ⟨rp, hj, .refl⟩
  case isTrue he =>
    obtain rfl : db' = db := Option.some.inj <| (he ▸ hi).symm.trans <| find?_eq_getElem? hd
    refine ⟨_, getElem?_modifyFirst hj, ?_⟩
    split
    case isFalse => exact .refl
    case isTrue he =>
      obtain rfl : rp = rp₀ := Option.some.inj <| (he ▸ hj).symm.trans <| find?_eq_getElem? hr
      exact hf rp rp₁ hf₀

theorem accepts_iff {g : ShardGroupInfo} : g.Accepts t ↔ g.startTime ≤ t ∧ t < g.endTime ∧ ¬g.Deleted
    ∧ (g.truncatedAt = GoTime.zero ∨ t < g.truncatedAt) := by
  rw [ShardGroupInfo.Accepts, ShardGroupInfo.Contains, ShardGroupInfo.Truncated]
  tauto

theorem groupsMarked_deleteShardGroup
    (h : run (.deleteShardGroup database name node now) d = .ok d')
    (hp : d.policy? i j = some rp) : ∃ rp', d'.policy? i j = some rp' ∧ GroupsMarked now rp rp' := by
  refine policy?_onPolicy (fun rp rp' hr => ?_) h hp
  simp only at hr
  split at hr <;> cases hr
  exact ⟨_, rfl, forall₂_modify (fun _ => .inl rfl) (fun _ => .inr rfl) _⟩

end Standard

theorem standard_groupLaws : standard.GroupLaws where
  sorted {l} hl := by
    let groupEnd (g : ShardGroupInfo) : GoTime :=
      if g.truncatedAt = GoTime.zero then g.endTime else g.truncatedAt
    let r (a b : ShardGroupInfo) : Prop :=
      groupEnd a < groupEnd b ∨ groupEnd a = groupEnd b ∧ a.startTime ≤ b.startTime
    have : Std.Total r := ⟨fun a b => by grind⟩
    have : IsTrans ShardGroupInfo r := ⟨fun a b c => by grind⟩
    refine (l.pairwise_insertionSort r).imp_of_mem fun {a b} ha hb hr => ?_
    have he : ∀ g ∈ l.insertionSort r, groupEnd g = g.endTime := fun g hg =>
      if_pos <| not_not.mp <| hl g <| (l.perm_insertionSort r).mem_iff.mp hg
    simp only [r, he a ha, he b hb] at hr
    exact hr
  byTimestamp_some {rp t g} h := by
    have ha := find?_some h
    exact ⟨mem_of_find?_eq_some h, accepts_iff.mpr <| of_decide_eq_true ha⟩
  byTimestamp_none h g hg ha := by
    simpa [accepts_iff.mp ha] using find?_eq_none.mp h g hg
  delete_run database policy group now {d i j rp} hp := by
    simp only [standard]
    split
    case h_1 h =>
      obtain ⟨_, hp', gs, rfl, hg⟩ := groupsMarked_deleteShardGroup h hp
      exact ⟨gs, hp', hg⟩
    case h_2 => exact ⟨rp.shardGroups, hp, forall₂_same.mpr fun _ _ => .inl rfl⟩

theorem standard_deleteLaws : standard.DeleteLaws := by
  have ho {database policy group now d d'} (h : standard.run
      (.deleteShardGroup database policy group now) d = (d', none)) :
      run (.deleteShardGroup database policy group now) d = .ok d' := by
    simp only [standard] at h
    split at h <;> cases h
    assumption
  refine ⟨fun {database policy group now d d'} h => ?_, fun h => ?_⟩
  · obtain ⟨db, rp, rp', hdb, hrp, hf, rfl⟩ := of_onPolicy (ho h)
    simp only at hf
    split at hf
    case isFalse => cases hf
    case isTrue ha =>
      cases hf
      obtain ⟨g, hg⟩ := Option.isSome_iff_exists.mp <| find?_isSome.mpr <|
        any_eq_true.mp ha
      obtain ⟨l₁, l₂, hl, hl'⟩ := modifyFirst_eq hg fun g => { g with deletedAt := now }
      obtain ⟨p₁, p₂, hp, hp'⟩ := modifyFirst_eq hrp fun _ => { rp with
        shardGroups := l₁ ++ { g with deletedAt := now } :: l₂ }
      obtain ⟨d₁, d₂, hd, hd'⟩ := modifyFirst_eq hdb fun _ => { db with
        retentionPolicies := p₁ ++ { rp with
          shardGroups := l₁ ++ { g with deletedAt := now } :: l₂ } :: p₂ }
      refine ⟨d₁.flatMap DatabaseInfo.groups ++ p₁.flatMap (·.shardGroups) ++ l₁, g,
        l₂ ++ p₂.flatMap (·.shardGroups) ++ d₂.flatMap DatabaseInfo.groups, ?_, ?_, ?_⟩
      · simp [Data.groups, DatabaseInfo.groups, hd, hp, hl]
      · simpa using find?_some hg
      · simp [Data.groups, hl', hp', hd', DatabaseInfo.groups]
  · obtain ⟨_, _, _, _, _, _, rfl⟩ := of_onPolicy (ho h)
    exact ⟨rfl, rfl⟩

theorem standard_sortLaws : standard.SortLaws where
  nodes_perm _ := perm_insertionSort _ _
  groups_perm _ := perm_insertionSort _ _

theorem standard_shardLaws : standard.ShardLaws where
  shards_run {op d} hk := by
    rw [shards_eq, shards_eq]
    refine (evolved_standard op d).policies.flatMap_shards (fun rp hr => hr hk) fun rp hb => ?_
    cases op <;> simp_all [policyShards, Op.KeepsShards, Op.Brings]
  maxShardID_run {op d} _ := (evolved_standard op d).maxShardID
  new_shardGroups := rfl

end Influx
