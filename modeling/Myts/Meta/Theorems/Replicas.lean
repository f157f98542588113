import Myts.Meta.Replicas
import Myts.Meta.Standard
import Myts.Meta.Theorems.Store

open List

namespace Meta

open Influx (Package ShardInfo ShardGroupInfo)

variable {freqs : GoMap Int64 Nat} {I : Package} {E₁ E₂ : Env} {l : Log}

namespace newShardOwner

theorem foldl_least (freqs : GoMap Int64 Nat) (ha : a ≠ -1) (hk : -1 ∉ ks) :
    ∃ k ∈ a :: ks, ks.foldl (least freqs) (a, freqs.count a) = (k, freqs.count k)
      ∧ ∀ k' ∈ a :: ks, freqs.count k ≤ freqs.count k' := by
  induction ks generalizing a
  case nil => exact ⟨a, by simp⟩
  case cons b ks hi =>
    obtain ⟨hb, hk⟩ := not_or.mp <| mem_cons.not.mp hk
    rw [foldl_cons]
    by_cases hf : freqs.count b < freqs.count a
    case pos =>
      have hs : least freqs (a, freqs.count a) b = (b, freqs.count b) := by simp [least, hf]
      obtain ⟨k, hm, hl, hle⟩ := hi (Ne.symm hb) hk
      have hkb := hle b mem_cons_self
      rw [hs]
      exact ⟨k, mem_cons_of_mem a hm, hl, forall_mem_cons.mpr ⟨by omega, hle⟩⟩
    case neg =>
      have hs : least freqs (a, freqs.count a) b = (a, freqs.count a) := by simp [least, hf, ha]
      obtain ⟨k, hm, hl, hle⟩ := hi ha hk
      have hka := hle a mem_cons_self
      rw [hs]
      refine ⟨k, ?_, hl, ?_⟩
      · exact (mem_cons.mp hm).elim (· ▸ mem_cons_self) (by simp [·])
      · simp only [forall_mem_cons] at hle ⊢
        exact ⟨hle.left, by omega, hle.right⟩

theorem eq_ok_or_error (hv : freqs.Visits ks) (hn : -1 ∉ freqs.keys) :
    (freqs.keys = ∅ ∧ newShardOwner s freqs ks = .error (.cannotReassign s.id))
      ∨ ∃ k, freqs.Least k ∧ newShardOwner s freqs ks =
        if k < 0 then .error (.cannotReassign s.id) else .ok (k.toUInt64, freqs.incr k) := by
  cases ks
  case nil =>
    refine .inl ⟨Finset.val_eq_zero.mp hv.symm, ?_⟩
    simp [newShardOwner]
  case cons a ks =>
    have hm : ∀ {k}, k ∈ a :: ks ↔ k ∈ freqs.keys := hv.mem_iff.trans Finmap.mem_keys.symm
    have ⟨ha, hk⟩ := not_or.mp <| mem_cons.not.mp <| hm.not.mpr hn
    have ⟨k, hmem, hl, hle⟩ := foldl_least freqs (Ne.symm ha) hk
    have hs : least freqs (-1, 0) a = (a, freqs.count a) := by simp [least]
    refine .inr ⟨k, ⟨hm.mp hmem, fun k' hk' => hle k' <| hm.mpr hk'⟩, ?_⟩
    rw [newShardOwner, foldl_cons, hs, hl]

theorem eq_of_tieFree (hv₁ : freqs.Visits ks₁) (hv₂ : freqs.Visits ks₂) (hn : -1 ∉ freqs.keys)
    (ht : freqs.AtMostOneLeast) :
    newShardOwner s freqs ks₁ = newShardOwner s freqs ks₂ := by
  rcases eq_ok_or_error (s := s) hv₁ hn with ⟨he, h₁⟩ | ⟨a, ha, h₁⟩
  case inl =>
    rcases eq_ok_or_error (s := s) hv₂ hn with ⟨_, h₂⟩ | ⟨b, hb, _⟩
    case inl => rw [h₁, h₂]
    case inr => exact absurd hb.left (by simp [he])
  case inr =>
    rcases eq_ok_or_error (s := s) hv₂ hn with ⟨he, _⟩ | ⟨b, hb, h₂⟩
    case inl => exact absurd ha.left (by simp [he])
    case inr => rw [h₁, h₂, ht a ha.left b hb.left ha hb]

end newShardOwner

namespace ShardGroupInfo

theorem reassign_eq (h : TieFree orphans freqs) :
    reassign E₁.toMachine g orphans freqs shards = reassign E₂.toMachine g orphans freqs shards := by
  induction orphans generalizing freqs shards
  case nil => rfl
  case cons orphan orphans hi =>
    obtain ⟨hn, ht, hr⟩ := h
    have he := newShardOwner.eq_of_tieFree (s := orphan) (E₁.visits g orphan.id freqs)
      (E₂.visits g orphan.id freqs) hn ht
    simp only [reassign, he]
    rcases newShardOwner.eq_ok_or_error (s := orphan) (E₂.visits g orphan.id freqs) hn
      with ⟨_, h₂⟩ | ⟨k, hk, h₂⟩
    case inl => rw [h₂]
    case inr =>
      rw [h₂]
      split
      case h_1 => rfl
      case h_2 freqs' h₂ =>
        split at h₂
        case isTrue => cases h₂
        case isFalse =>
          cases h₂
          exact hi <| hr k hk.left hk

theorem deleteNode_eq (h : AgreeOnGroup E₁ E₂ node g) :
    deleteNode node E₁.toMachine g = deleteNode node E₂.toMachine g := by
  rw [deleteNode, deleteNode]
  split
  case isTrue ha => rw [h.now ha]
  case isFalse ha => rw [reassign_eq (h.tieFree ha)]

end ShardGroupInfo

namespace Data

theorem mem_groups {d : Influx.Data} (hd : db ∈ d.databases) (hr : rp ∈ db.retentionPolicies)
    (hg : g ∈ rp.shardGroups) : g ∈ d.groups :=
  mem_flatMap.mpr ⟨db, hd, mem_flatMap.mpr ⟨rp, hr, hg⟩⟩

theorem eachGroup_congr {d : Influx.Data} {f g : ShardGroupInfo → σ → Slice.Loop ShardGroupInfo σ Error}
    (h : ∀ a ∈ d.groups, ∀ s, f a s = g a s) :
    eachGroup f d.databases s = eachGroup g d.databases s := by
  refine Slice.each_congr fun db hd s => ?_
  rw [Slice.nested, Slice.nested]
  congr 1
  refine Slice.each_congr fun rp hr s => ?_
  rw [Slice.nested, Slice.nested]
  congr 1
  exact Slice.each_congr fun g hg s => h g (mem_groups hd hr hg) s

theorem deleteDataNode_eq {d : Data} (h : ∀ g ∈ d.data.groups, AgreeOnGroup E₁ E₂ node g) :
    deleteDataNode E₁.toMachine node d = deleteDataNode E₂.toMachine node d := by
  have he : eachGroup (deleteNodeFrom E₁.toMachine node) d.data.databases d.shardStatus
      = eachGroup (deleteNodeFrom E₂.toMachine node) d.data.databases d.shardStatus := by
    refine eachGroup_congr fun g hg s => ?_
    simp [deleteNodeFrom, Slice.separate, ShardGroupInfo.deleteNode_eq (h g hg)]
  simp only [deleteDataNode, he]

theorem apply_eq {d : Data} (h : Agree E₁ E₂ d l.cmd) :
    (d.apply I E₁ l).map Prod.fst = (d.apply I E₂ l).map Prod.fst := by
  cases hc : l.cmd
  case createNode host rand =>
    simp only [hc, Agree, Env.isPeer] at h
    cases h₁ : E₁.peers <;> cases h₂ : E₂.peers <;> simp [Except.toOption, h₁, h₂] at h
    case error.error => simp [apply, hc, dispatch, h₁, h₂]
    case ok.ok => simp only [apply, hc, dispatch, h₁, h₂, applyCreateNodeCommand,
      applyCreateNodeCommand.createMetaNode, h]
  case createDatabase name rp =>
    cases rp
    case none =>
      simp only [hc, Agree, forall_const] at h
      simp only [apply, hc, dispatch, h]
    case some =>
      simp only [apply, hc, dispatch]
      rfl
  case deleteShardGroup =>
    simp only [hc, Agree] at h
    simp only [apply, hc, dispatch, h]
  case deleteMetaNode node =>
    simp only [hc, Agree] at h
    simp only [apply, hc, dispatch, applyDeleteMetaNodeCommand]
    cases hn : d.metaNode node
    case none => rfl
    case some n =>
      specialize h n hn
      rw [Env.letsGo, Env.letsGo] at h
      rcases h₁ : E₁.leave n with _ | _ | e₁ <;> rcases h₂ : E₂.leave n with _ | _ | e₂ <;>
        simp [h₁, h₂] at h ⊢
  case deleteDataNode node =>
    simp only [hc, Agree] at h
    simp only [apply, hc, dispatch, deleteDataNode_eq h]
  all_goals simp only [apply, hc, dispatch]

end Data

namespace Replicas

theorem step_live_eq (hl : s.1.map Store.live = s.2.map Store.live) (h : StepsAgree s i) :
    (step I s i).1.map Store.live = (step I s i).2.map Store.live := by
  obtain ⟨s₁, s₂⟩ := s
  rw [step, Store.live_step, Store.live_step, ← hl]
  cases s₁
  case none => rfl
  case some s => exact Data.apply_eq <| h s rfl

theorem replicas_agree (d : Data)
    (h : Run (step I) StepsAgree (some (.ofData d), some (.ofData d)) s) :
    s.1.map Store.live = s.2.map Store.live :=
  h.invariant (I := fun s => s.1.map Store.live = s.2.map Store.live) rfl step_live_eq

def together (E₁ E₂ : Env) (cmds : List Command) : Option Store × Option Store :=
  ((Log.ofCommands cmds).map (·, E₁, E₂)).foldl (step .standard) (some .init, some .init)

theorem replicas_agree_without_tie :
    let E₁ := Env.follower (.ascending 1) []
    let E₂ := Env.follower (.descending 2) []
    let s := together E₁ E₂ (Command.threeShards ++ [.updateShard 1 [2] none, .deleteDataNode 1])
    s.1.isSome ∧ s.1.map Store.live = s.2.map Store.live :=
  ⟨by decide +kernel, replicas_agree _ <| Run.foldl <| by decide +kernel⟩

theorem replicas_diverge_on_tie :
    let E₁ := Env.follower (.ascending 1) []
    let E₂ := Env.follower (.descending 1) []
    let s := together E₁ E₂ (Command.threeShards ++ [.deleteDataNode 1])
    s.1.isSome ∧ s.2.isSome ∧ s.1.map Store.live ≠ s.2.map Store.live := by
  decide +kernel

end Replicas

end Meta
