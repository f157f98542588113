import Myts.Meta.Theorems.Standard
import Myts.Meta.Theorems.Data
import Myts.Retention.Service

open List

namespace Retention

open Meta.Data

open Influx (Package RetentionPolicyInfo ShardGroupInfo)

section Authority

variable {d d' : Meta.Data}

theorem Precedes.refl (d : Meta.Data) : Precedes d d :=
  fun g hg => ⟨g, hg, rfl, rfl, id⟩

theorem Precedes.trans (h₁ : Precedes d₁ d₂) (h₂ : Precedes d₂ d₃) : Precedes d₁ d₃ := by
  intro g hg
  obtain ⟨g₂, hg₂, hid₂, hs₂, hd₂⟩ := h₁ g hg
  obtain ⟨g₃, hg₃, hid₃, hs₃, hd₃⟩ := h₂ g₂ hg₂
  exact ⟨g₃, hg₃, hid₃.trans hid₂, hs₃.trans hs₂, hd₃ ∘ hd₂⟩

structure Advances (d d' : Meta.Data) : Prop where
  precedes : Precedes d d'
  numbered : Numbered d'
  maxShardID : d.data.maxShardID ≤ d'.data.maxShardID
  live : ∀ {node x}, x ≤ d.data.maxShardID → Live d' node x → Live d node x

theorem mem_shardIDsByNode : x ∈ shardIDsByNode d node ↔ Live d node x := by
  simp only [shardIDsByNode, mem_insertionSort, mem_flatMap, mem_filter,
    mem_map, Live, decide_eq_true_eq]
  grind

theorem Disposable.of_not_live (h : ¬Live d node x) : Disposable d node x := by
  by_cases ho : ∃ g ∈ d.data.groups, ∃ si ∈ g.shards, si.id = x ∧ si.OwnedBy node
  case neg => exact .inr ho
  case pos =>
    obtain ⟨g, hg, si, hsi, hid, ho⟩ := ho
    refine .inl ⟨g, hg, by_contra fun hd => ?_, si, hsi, hid⟩
    exact h ⟨g, hg, hd, si, hsi, hid, ho⟩

theorem Advances.refl (h : Numbered d) : Advances d d where
  precedes := .refl d
  numbered := h
  maxShardID := UInt64.le_refl _
  live _ := id

theorem advances_addShardGroup {I : Package} (hI : I.SortLaws) (hn : Numbered d)
    (hp : d.data.policy? i j = some rpi)
    (hs : d.data.maxShardID.toNat + n < UInt64.size)
    (hg : d.data.maxShardGroupID.toNat + 1 < UInt64.size) :
    Advances d (d.addShardGroup I i j (d.newShardGroup rpi t (d.newShards r n))) := by
  have hm := groups_addShardGroup (g := d.newShardGroup rpi t (d.newShards r n)) hI hp
  have hsm := shards_addShardGroup (g := d.newShardGroup rpi t (d.newShards r n)) hI hp
  have hmax : (d.addShardGroup I i j (d.newShardGroup rpi t (d.newShards r n))).data.maxShardID.toNat
      = d.data.maxShardID.toNat + n := by
    have hl : (d.newShards r n).length = n := by simp [newShards]
    change (d.data.maxShardID + .ofNat (d.newShards r n).length).toNat = _
    rw [hl, UInt64.toNat_add, UInt64.toNat_ofNat']
    rw [UInt64.size] at hs
    omega
  have hmaxg : (d.data.maxShardGroupID + 1).toNat = d.data.maxShardGroupID.toNat + 1 := by
    rw [UInt64.toNat_add, UInt64.toNat_one]
    rw [UInt64.size] at hg
    omega
  have hnew {si} (hsi : si ∈ d.newShards r n) :
      d.data.maxShardID.toNat < si.id.toNat ∧ si.id.toNat ≤ d.data.maxShardID.toNat + n := by
    obtain ⟨k, hk, he, _⟩ := mem_newShards hsi
    rw [he, toNat_newShards_id hs hk]
    omega
  refine ⟨fun g' hg' => ⟨g', ?_, rfl, rfl, id⟩, ⟨?_, ?_, ?_⟩, ?_, ?_⟩
  · exact hm.mem_iff.mpr (mem_append_left _ hg')
  · refine ((hm.map (·.id)).nodup_iff).mpr ?_
    rw [map_append, nodup_append]
    refine ⟨hn.nodup, nodup_singleton _, fun x hx y hy he => ?_⟩
    obtain ⟨g', hg', rfl⟩ := mem_map.mp hx
    obtain rfl := mem_singleton.mp hy
    have hle := UInt64.le_iff_toNat_le.mp (hn.groups g' hg')
    have he := congrArg UInt64.toNat he
    rw [newShardGroup, hmaxg] at he
    omega
  · intro g' hg'
    change g'.id ≤ d.data.maxShardGroupID + 1
    rw [UInt64.le_iff_toNat_le, hmaxg]
    obtain hg' | hg' := mem_append.mp (hm.mem_iff.mp hg')
    case inl =>
      have hle := UInt64.le_iff_toNat_le.mp (hn.groups g' hg')
      omega
    case inr =>
      obtain rfl := mem_singleton.mp hg'
      rw [newShardGroup, hmaxg]
  · intro si hsi
    rw [UInt64.le_iff_toNat_le, hmax]
    obtain hsi | hsi := mem_append.mp (hsm.mem_iff.mp hsi)
    case inl =>
      have hle := UInt64.le_iff_toNat_le.mp (hn.shards si hsi)
      omega
    case inr => exact (hnew hsi).2
  · rw [UInt64.le_iff_toNat_le, hmax]
    omega
  · rintro node x hx ⟨g', hg', hd, si, hsi, rfl, ho⟩
    obtain hg' | hg' := mem_append.mp (hm.mem_iff.mp hg')
    case inl => exact ⟨g', hg', hd, si, hsi, rfl, ho⟩
    case inr =>
      obtain rfl := mem_singleton.mp hg'
      have hlt := (hnew hsi).1
      have hle := UInt64.le_iff_toNat_le.mp hx
      omega

theorem advances_createShardGroup {I : Package} (hI : I.SortLaws) (hn : Numbered d)
    (hs : d.data.maxShardID.toNat + d.dataNodes.length < UInt64.size)
    (hg : d.data.maxShardGroupID.toNat + 1 < UInt64.size)
    (h : d.createShardGroup I database policy t = .ok u d') : Advances d d' := by
  rw [createShardGroup] at h
  split at h
  case h_1 => cases h
  case h_2 => cases h; exact .refl hn
  case h_3 hc =>
    cases h
    obtain ⟨hd, rpi, _, hp, _, rfl⟩ := groupToCreate_ok hc
    refine advances_addShardGroup hI hn hp ?_ hg
    have := shardN_le (d := d) (r := d.replicaN rpi)
    omega

def DeletedIn (d : Meta.Data) (x : UInt64) : Prop :=
  ∃ g ∈ d.data.groups, g.Deleted ∧ ∃ si ∈ g.shards, si.id = x

theorem DeletedIn.advance (h : DeletedIn d x) (ha : Precedes d d') : DeletedIn d' x := by
  obtain ⟨g, hg, hd, hx⟩ := h
  obtain ⟨g', hg', _, hs, hd'⟩ := ha g hg
  exact ⟨g', hg', hd' hd, hs ▸ hx⟩

theorem advances_delete {I : Package} (hI : I.DeleteLaws) (hn : Numbered d)
    (ht : now ≠ GoTime.zero) (h : I.run (.deleteShardGroup db rp x now) d.data = (data, none)) :
    Advances d { d with data } ∧
    ∀ g ∈ d.data.groups, g.id = x → ∀ si ∈ g.shards, DeletedIn { d with data } si.id := by
  obtain ⟨l₁, g, l₂, hd, hid, hd'⟩ := hI.groups h
  obtain ⟨hmg, hms⟩ := hI.max h
  have hmem {g'} : g' ∈ d.data.groups ↔ g' ∈ l₁ ∨ g' = g ∨ g' ∈ l₂ := by
    rw [hd, mem_append, mem_cons]
  have hmem' {g'} : g' ∈ data.groups ↔ g' ∈ l₁ ∨ g' = { g with deletedAt := now } ∨ g' ∈ l₂ := by
    rw [hd', mem_append, mem_cons]
  have hids : data.groups.map (·.id) = d.data.groups.map (·.id) := by simp [hd, hd']
  have hshards : data.shards = d.data.shards := by simp [Influx.Data.shards, hd, hd']
  have hmark : { g with deletedAt := now } ∈ data.groups := hmem'.mpr (.inr (.inl rfl))
  refine ⟨⟨?_, ⟨?_, ?_, ?_⟩, ?_, ?_⟩, ?_⟩
  · intro g' hg'
    obtain h₁ | rfl | h₂ := hmem.mp hg'
    case inl => exact ⟨g', hmem'.mpr (.inl h₁), rfl, rfl, id⟩
    case inr.inl => exact ⟨_, hmark, rfl, rfl, fun _ => ht⟩
    case inr.inr => exact ⟨g', hmem'.mpr (.inr (.inr h₂)), rfl, rfl, id⟩
  · exact hids ▸ hn.nodup
  · intro g' hg'
    have hg' : g'.id ∈ data.groups.map (·.id) := mem_map_of_mem hg'
    obtain ⟨g'', hg'', he⟩ := mem_map.mp (hids ▸ hg')
    exact he ▸ hmg ▸ hn.groups g'' hg''
  · exact fun si hsi => hms ▸ hn.shards si (hshards ▸ hsi)
  · exact hms ▸ UInt64.le_refl _
  · rintro node y _ ⟨g', hg', hd, hsi⟩
    obtain h₁ | rfl | h₂ := hmem'.mp hg'
    case inl => exact ⟨g', hmem.mpr (.inl h₁), hd, hsi⟩
    case inr.inl => exact absurd ht hd
    case inr.inr => exact ⟨g', hmem.mpr (.inr (.inr h₂)), hd, hsi⟩
  · intro g' hg' he si hsi
    have hg : g ∈ d.data.groups := hmem.mpr (.inr (.inl rfl))
    obtain rfl := inj_on_of_nodup_map hn.nodup hg' hg (he.trans hid.symm)
    exact ⟨_, hmark, ht, si, hsi, rfl⟩

end Authority

namespace System

section Steps

variable {I : Package} {expired : RetentionPolicyInfo → GoTime → List ShardGroupInfo} {node : UInt64}
variable {s : System}

def Noted (node : UInt64) (s : System) : Pass → Prop
  | .idle => True
  | .expired groups deletedShardIDs =>
    (∀ x ∈ groups, ∃ g ∈ s.authority.data.groups, g.id = x.2.2.id ∧ g.shards = x.2.2.shards) ∧
    ∀ x ∈ deletedShardIDs, DeletedIn s.authority x
  | .stored _ deletedShardIDs => ∀ x ∈ deletedShardIDs, DeletedIn s.authority x
  | .expected expectedShardIds =>
    ∀ x ∈ s.shardIDs, x ∉ expectedShardIds → ¬Live s.authority node x
  | .removing ids expectedShardIds =>
    ∀ x ∈ ids, x ≤ s.authority.data.maxShardID ∧ (x ∉ expectedShardIds → ¬Live s.authority node x)

structure Sound (node : UInt64) (s : System) : Prop where
  numbered : Numbered s.authority
  cache : Precedes s.cache s.authority
  snapshot : Precedes s.snapshot s.authority
  shardIDs : ∀ x ∈ s.shardIDs, x ≤ s.authority.data.maxShardID
  noted : s.Noted node s.pass
  calls : ∀ c ∈ s.calls, Disposable c.2 node c.1

theorem Initial.sound (h : s.Initial) : s.Sound node where
  numbered := h.numbered
  cache := h.cache
  snapshot := h.snapshot
  shardIDs := h.shardIDs
  noted := by rw [h.pass]; trivial
  calls := by rw [h.calls]; nofun

theorem Sound.advance (h : s.Sound node) (ha : Advances s.authority d) :
    { s with authority := d }.Sound node where
  numbered := ha.numbered
  cache := h.cache.trans ha.precedes
  snapshot := h.snapshot.trans ha.precedes
  shardIDs x hx := UInt64.le_trans (h.shardIDs x hx) ha.maxShardID
  noted := by
    have hn := h.noted
    cases hp : s.pass <;> rw [hp] at hn
    case idle => trivial
    case expired =>
      refine ⟨fun x hx => ?_, fun x hx => (hn.2 x hx).advance ha.precedes⟩
      obtain ⟨g, hg, hid, hs⟩ := hn.1 x hx
      obtain ⟨g', hg', hid', hs', _⟩ := ha.precedes g hg
      exact ⟨g', hg', hid'.trans hid, hs'.trans hs⟩
    case stored => exact fun x hx => (hn x hx).advance ha.precedes
    case expected => exact fun x hx hne hl => hn x hx hne (ha.live (h.shardIDs x hx) hl)
    case removing =>
      intro x hx
      obtain ⟨hle, hne⟩ := hn x hx
      exact ⟨UInt64.le_trans hle ha.maxShardID, fun hx hl => hne hx (ha.live hle hl)⟩
  calls := h.calls

theorem Sound.setPass (h : s.Sound node) (hn : s.Noted node p) : { s with pass := p }.Sound node :=
  { h with noted := by cases p <;> exact hn }

theorem Sound.start (hE : ∀ {rp t g}, g ∈ expired rp t → g ∈ rp.shardGroups) (h : s.Sound node) :
    (s.start expired now).Sound node := by
  unfold System.start
  split
  case h_2 => exact h
  case h_1 =>
    refine h.setPass ⟨fun x hx => ?_, nofun⟩
    obtain ⟨db, hdb, hx⟩ := mem_flatMap.mp hx
    obtain ⟨rp, hrp, hx⟩ := mem_flatMap.mp hx
    obtain ⟨g, hg, rfl⟩ := mem_map.mp hx
    have hm : g ∈ s.cache.data.groups :=
      mem_flatMap.mpr ⟨db, hdb, mem_flatMap.mpr ⟨rp, hrp, hE hg⟩⟩
    obtain ⟨g', hg', hid, hs, _⟩ := h.cache g hm
    exact ⟨g', hg', hid, hs⟩

theorem Sound.deleteShardGroup (hI : I.DeleteLaws) (h : s.Sound node) (ht : now ≠ GoTime.zero) :
    (s.deleteShardGroup I applied reported now).Sound node := by
  unfold System.deleteShardGroup
  split
  case h_2 => exact h
  case h_1 db rp g groups deleted hp =>
    have hn := h.noted
    rw [hp] at hn
    obtain ⟨hg, hd⟩ := hn
    rw [forall_mem_cons] at hg
    split
    case h_2 => exact h.setPass ⟨hg.2, hd⟩
    case h_1 data hr =>
      obtain ⟨ha, hdel⟩ := advances_delete hI h.numbered ht hr
      have hs := h.advance ha
      have h := h.setPass (p := .expired groups deleted) ⟨hg.2, hd⟩
      obtain ⟨hg', hd'⟩ : _ ∧ _ := (h.advance ha).noted
      refine hs.setPass ⟨hg', fun x hx => ?_⟩
      split at hx
      case isFalse => exact hd' x hx
      case isTrue =>
        obtain hx | hx := mem_append.mp hx
        case inr => exact hd' x hx
        case inl =>
          obtain ⟨si, hsi, rfl⟩ := mem_map.mp hx
          obtain ⟨g', hm, hid, hsh⟩ := hg.1
          exact hdel g' hm hid si (hsh ▸ hsi)

theorem Sound.readStore (h : s.Sound node) : s.readStore.Sound node := by
  have hn := h.noted
  unfold System.readStore
  split
  case h_1 hp => rw [hp] at hn; exact h.setPass hn.2
  case h_2 hp => rw [hp] at hn; exact h.setPass fun x hx => ⟨h.shardIDs x hx, hn x hx⟩
  case h_3 => exact h

theorem Sound.callDelete (h : s.Sound node) (hx : Disposable s.authority node x)
    (hp : ∀ ids, s.pass ≠ .expected ids) : (s.callDelete ok x).Sound node := by
  have hsub {y} (hy : y ∈ (s.callDelete ok x).shardIDs) : y ∈ s.shardIDs := by
    unfold System.callDelete at hy
    dsimp only at hy
    split at hy
    case isTrue => exact mem_of_mem_filter hy
    case isFalse => exact hy
  have hn := h.noted
  exact { h with
    shardIDs y hy := h.shardIDs y (hsub hy)
    noted := by
      change (s.callDelete ok x).Noted node s.pass
      cases hq : s.pass <;> rw [hq] at hn
      case expected => exact absurd hq (hp _)
      all_goals exact hn
    calls := forall_mem_append.mpr ⟨h.calls, by simpa using hx⟩ }

theorem Sound.deleteShard (h : s.Sound node) : (s.deleteShard ok).Sound node := by
  have hn := h.noted
  unfold System.deleteShard
  split
  case h_3 => exact h
  case h_1 x ids deleted hp =>
    rw [hp] at hn
    have hs : { s with pass := .stored ids deleted }.Sound node := h.setPass hn
    dsimp only
    split
    case isFalse => exact hs
    case isTrue hx =>
      obtain ⟨g, hg, hd, hsi⟩ := hn x hx
      exact hs.callDelete (.inl ⟨g, hg, hd, hsi⟩) nofun
  case h_2 x ids expected hp =>
    rw [hp] at hn
    obtain ⟨hx, hids⟩ := forall_mem_cons.mp hn
    have hs : { s with pass := .removing ids expected }.Sound node := h.setPass hids
    dsimp only
    split
    case isFalse => exact hs
    case isTrue hx' => exact hs.callDelete (.of_not_live (hx.2 hx')) nofun

theorem Sound.readExpected (h : s.Sound node)
    (hc : ∀ x ∈ s.shardIDs, Live s.authority node x → Live s.cache node x) :
    (s.readExpected node).Sound node := by
  unfold System.readExpected
  split
  case h_2 => exact h
  case h_1 =>
    refine h.setPass fun x hx hne hl => hne ?_
    exact mem_shardIDsByNode.mpr (hc x hx hl)

theorem Sound.finish (h : s.Sound node) : s.finish.Sound node := by
  unfold System.finish
  split
  case h_1 => exact h.setPass trivial
  case h_2 => exact h

theorem Sound.createShardGroup (hI : I.SortLaws) (h : s.Sound node)
    (hs : s.authority.data.maxShardID.toNat + s.authority.dataNodes.length < UInt64.size)
    (hg : s.authority.data.maxShardGroupID.toNat + 1 < UInt64.size) :
    (s.createShardGroup I database policy t).Sound node := by
  unfold System.createShardGroup
  split
  case h_1 hc => exact h.advance (advances_createShardGroup hI h.numbered hs hg hc)
  case h_2 => exact h

theorem Sound.createShard (h : s.Sound node) (hc : s.Careful node (.createShard x)) :
    (s.createShard x).Sound node := by
  unfold System.createShard
  split
  case isFalse => exact h
  case isTrue hx =>
    obtain ⟨si, hsi, hid⟩ := hx.1
    have hn := h.noted
    exact { h with
      shardIDs := forall_mem_append.mpr
        ⟨h.shardIDs, by simpa using hid ▸ h.numbered.shards si hsi⟩
      noted := by
        rw [Careful] at hc
        change Noted node { s with shardIDs := s.shardIDs ++ [x] } s.pass
        cases hp : s.pass <;> rw [hp] at hn hc
        case expected => exact forall_mem_append.mpr ⟨hn, by simpa using fun h => absurd hc h⟩
        all_goals exact hn }

theorem Sound.step (hS : I.SortLaws) (hD : I.DeleteLaws)
    (hE : ∀ {rp t g}, g ∈ expired rp t → g ∈ rp.shardGroups) (h : s.Sound node)
    (hc : s.Careful node e) : (s.step I expired node e).Sound node := by
  cases e
  case start => exact h.start hE
  case deleteShardGroup => exact h.deleteShardGroup hD hc
  case readStore => exact h.readStore
  case deleteShard => exact h.deleteShard
  case readExpected => exact h.readExpected hc
  case finish => exact h.finish
  case createShardGroup => exact h.createShardGroup hS hc.1 hc.2
  case sendSnapshot => exact { h with snapshot := .refl _ }
  case receiveSnapshot => exact { h with cache := h.snapshot }
  case createShard => exact h.createShard hc

end Steps

-- In a run whose steps are all careful no live shard is deleted.
theorem deletes_only_disposable (I : Package) (hS : I.SortLaws) (hD : I.DeleteLaws)
    (expired : RetentionPolicyInfo → GoTime → List ShardGroupInfo)
    (hE : ∀ {rp t g}, g ∈ expired rp t → g ∈ rp.shardGroups) (node : UInt64) (s₀ s : System)
    (h₀ : s₀.Initial) (h : Run (System.step I expired node) (Careful node) s₀ s) :
    ∀ c ∈ s.calls, Disposable c.2 node c.1 :=
  (h.invariant (I := Sound node) h₀.sound fun hs hc => hs.step hS hD hE hc).calls

section OneNode

def expiredShardGroups (rp : RetentionPolicyInfo) (t : GoTime) : List ShardGroupInfo :=
  rp.shardGroups.filter fun g => ¬g.Deleted ∧ rp.duration ≠ 0 ∧ g.endTime + rp.duration < t

def policy (name : String) (duration : Int) : RetentionPolicyInfo where
  name
  replicaN := 1
  duration
  shardGroupDuration := 10
  shardGroups := []
  subscriptions := []

def metadata : Meta.Data :=
  { empty with
    data := { empty.data with
      databases := [{
        name := "db"
        defaultRetentionPolicy := "rp"
        retentionPolicies := [policy "rp" 0, policy "short" 10]
        continuousQueries := [] }] }
    dataNodes := [⟨1, "node", "node"⟩]
    maxNodeID := 1 }

def fresh : System where
  authority := metadata
  cache := metadata
  snapshot := metadata
  shardIDs := []
  pass := .idle
  calls := []

def creating : List Event :=
  [.start fun _ _ => 100, .readStore, .readExpected, .createShardGroup "db" "rp" 5, .createShard 1,
    .readStore, .deleteShard true]

def passing : List Event :=
  [.createShardGroup "db" "rp" 5, .createShardGroup "db" "short" 5, .sendSnapshot, .createShard 1,
    .createShard 2, .receiveSnapshot, .start fun _ _ => 100, .deleteShardGroup true true 100,
    .readStore, .deleteShard true, .deleteShard true, .readExpected, .readStore, .deleteShard true,
    .finish]

theorem deletes_live_shard :
    ∃ c ∈ (creating.foldl (System.step .standard expiredShardGroups 1) fresh).calls,
      c.1 = 1 ∧ ¬Disposable c.2 1 c.1 := by
  decide +kernel

theorem deletes_only_disposable_expired :
    let s := passing.foldl (System.step .standard expiredShardGroups 1) fresh
    s.shardIDs = [1] ∧ s.calls.map (·.1) = [2] ∧ ∀ c ∈ s.calls, Disposable c.2 1 c.1 := by
  have h₀ : fresh.Initial :=
    ⟨by decide +kernel, by decide +kernel, by decide +kernel, nofun, rfl, rfl⟩
  refine ⟨by decide +kernel, by decide +kernel, ?_⟩
  exact deletes_only_disposable .standard Influx.standard_sortLaws Influx.standard_deleteLaws
    expiredShardGroups (fun hg => mem_of_mem_filter hg) 1 fresh _ h₀
    (Run.foldl (by decide +kernel))

end OneNode

end System

end Retention
