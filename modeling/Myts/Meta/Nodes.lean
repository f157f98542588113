import Myts.Meta.Store

namespace Meta

open Influx (Package NodeInfo)

-- The ids of two lists of nodes. A node that is in both of them keeps its id.
@[mk_iff]
structure Identified (ns ms : List NodeInfo) (maxID : UInt64) : Prop where
  nodup_left : (ns.map (·.id)).Nodup
  nodup_right : (ms.map (·.id)).Nodup
  shared : ∀ n ∈ ns, ∀ m ∈ ms, n.id = m.id → n.tcpHost = m.tcpHost
  le_left : ∀ n ∈ ns, n.id ≤ maxID
  le_right : ∀ m ∈ ms, m.id ≤ maxID

instance : Decidable (Identified ns ms maxID) :=
  decidable_of_iff' _ (identified_iff ..)

namespace Data

def Identified (d : Data) : Prop :=
  Meta.Identified d.dataNodes d.metaNodes d.maxNodeID

instance : DecidablePred Identified := fun _ => inferInstanceAs (Decidable (Meta.Identified ..))

-- There are at least `k` ids left.
def HasIDs (d : Data) (k : Nat) : Prop := d.maxNodeID.toNat + k < UInt64.size

instance : Decidable (HasIDs d k) := inferInstanceAs (Decidable (_ < _))

-- No meta node has the id that a new meta node would take over from a data node.
def FreeForMeta (d : Data) (tcpAddr : String) : Prop :=
  ∀ n ∈ d.dataNodes, n.tcpHost = tcpAddr → ∀ m ∈ d.metaNodes, m.id ≠ n.id

instance : Decidable (FreeForMeta d tcpAddr) :=
  inferInstanceAs (Decidable (∀ n ∈ d.dataNodes, _))

-- The id of the only meta node may be used for a data node with the address.
def OnlyMetaIs (d : Data) (tcpAddr : String) : Prop :=
  d.metaNodes.length = 1 →
    ∀ m ∈ d.metaNodes, m.tcpHost = tcpAddr ∧ ∀ n ∈ d.dataNodes, n.id ≠ m.id

instance : Decidable (OnlyMetaIs d tcpAddr) :=
  inferInstanceAs (Decidable (_ = 1 → _))

-- The command does not give one id to two nodes.
def KeepsIdentity (I : Package) (E : Env) (d : Data) : Command → Prop
  | .createNode host _ => d.HasIDs 2 ∧ ∀ peers ∈ E.peers.toOption,
    if host ∈ peers then
      d.FreeForMeta host ∧ (d.metaNodes = [] → ∀ n ∈ d.dataNodes, n.tcpHost ≠ host)
    else
      d.OnlyMetaIs host
  | .createMetaNode _ tcpAddr _ => d.HasIDs 1 ∧ d.FreeForMeta tcpAddr
  | .setMetaNode _ tcpAddr _ => d.HasIDs 1 ∧ (d.metaNodes.length = 1 →
    ∀ n ∈ d.dataNodes, ∀ m ∈ d.metaNodes, n.id = m.id → n.tcpHost = tcpAddr)
  | .createDataNode _ tcpAddr => d.HasIDs 1 ∧ (d.dataNodes = [] → d.OnlyMetaIs tcpAddr)
  | .setData data => (unmarshal I data).Identified
  | _ => True

instance : DecidablePred (KeepsIdentity I E d) := fun cmd => by
  apply Command.casesOn (motive := fun cmd => Decidable (KeepsIdentity I E d cmd)) cmd <;> intros <;>
    dsimp only [KeepsIdentity] <;> infer_instance

end Data
end Meta
