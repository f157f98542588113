import Myts.Meta.Store

namespace Meta

open Influx (Package ShardInfo ShardGroupInfo)

-- Each time an orphaned shard is reassigned there is only one node with the fewest shards, so that
-- the order of the loop in `newShardOwner` does not matter.
def TieFree : List ShardInfo → GoMap Int64 Nat → Prop
  | [], _ => True
  | _ :: orphans, freqs =>
    -1 ∉ freqs.keys ∧ freqs.AtMostOneLeast ∧ freqs.ForLeast fun k => TieFree orphans (freqs.incr k)

instance TieFree.decidable : ∀ orphans freqs, Decidable (TieFree orphans freqs)
  | [], _ => inferInstanceAs (Decidable True)
  | _ :: orphans, freqs =>
    have : DecidablePred fun k => TieFree orphans (freqs.incr k) := fun _ => decidable orphans _
    inferInstanceAs (Decidable (_ ∧ _ ∧ _))

structure AgreeOnGroup (E₁ E₂ : Env) (node : UInt64) (g : ShardGroupInfo) : Prop where
  now : ShardGroupInfo.AllOrphaned node g → E₁.now = E₂.now
  tieFree : ¬ShardGroupInfo.AllOrphaned node g →
    TieFree (ShardGroupInfo.orphanedShards node g) (ShardGroupInfo.nodeOwnerFreqs node g)

instance : Decidable (AgreeOnGroup E₁ E₂ node g) :=
  decidable_of_iff (_ ∧ _) ⟨fun ⟨now, tieFree⟩ => { now, tieFree }, fun h => ⟨h.now, h.tieFree⟩⟩

namespace Env

def isPeer (E : Env) (host : String) : Option Bool :=
  E.peers.toOption.map (host ∈ ·)

-- A node may be deleted if it has left the cluster or if that is the task of the leader.
def letsGo (E : Env) (n : Influx.NodeInfo) : Bool :=
  match E.leave n with
  | none | some .notLeader => true
  | some (.other _) => false

end Env

-- Two replicas with the same metadata see the same of everything that the command depends on.
def Agree (E₁ E₂ : Env) (d : Data) : Command → Prop
  | .createNode host _ => E₁.isPeer host = E₂.isPeer host
  | .createDatabase _ rp => rp = none → E₁.retentionAutoCreate = E₂.retentionAutoCreate
  | .deleteShardGroup _ _ _ => E₁.now = E₂.now
  | .deleteMetaNode id => ∀ n ∈ d.metaNode id, E₁.letsGo n = E₂.letsGo n
  | .deleteDataNode id => ∀ g ∈ d.data.groups, AgreeOnGroup E₁ E₂ id g
  | _ => True

instance : DecidablePred (Agree E₁ E₂ d) := fun c => by
  apply Command.casesOn (motive := fun cmd => Decidable (Agree E₁ E₂ d cmd)) c <;> intros <;>
    dsimp only [Agree] <;> infer_instance

namespace Replicas

-- Two replicas that apply the same log. Each entry comes with what either of them sees of its
-- machine.
def step (I : Package) (s : Option Store × Option Store) (i : Log × Env × Env) :
    Option Store × Option Store :=
  (Store.step I s.1 (i.2.1, i.1), Store.step I s.2 (i.2.2, i.1))

def StepsAgree (s : Option Store × Option Store) (i : Log × Env × Env) : Prop :=
  ∀ s₁ ∈ s.1, Agree i.2.1 i.2.2 s₁.live i.1.cmd

instance : Decidable (StepsAgree s i) :=
  inferInstanceAs (Decidable (∀ s₁ ∈ s.1, _))

end Replicas
end Meta
