import Myts.Lib.Slice
import Myts.Meta.Influx

namespace Meta

open Influx (Package NodeInfo ShardOwner ShardInfo ShardGroupInfo RetentionPolicyInfo DatabaseInfo)

abbrev ShardStatus := Int32

def shardWrite     : ShardStatus := 1
def shardRead      : ShardStatus := 2
def shardWriteRead : ShardStatus := 3

-- The status of each owner of a shard.
abbrev OwnerStatus := GoMap UInt64 ShardStatus

abbrev StatusMap := GoMap UInt64 OwnerStatus

-- The metadata of the cluster. What stands for the map of the shard states is left open, as a copy
-- of the metadata shares it with the original.
@[ext]
structure DataOf (σ : Type) where
  data : Influx.Data
  metaNodes : List NodeInfo
  dataNodes : List NodeInfo
  shardStatus : σ
  maxNodeID : UInt64
deriving DecidableEq

-- The metadata as a value. The map may be nil.
abbrev Data := DataOf (Option StatusMap)

inductive Error
  | nodeExists
  | nodeNotFound
  | nodeIDRequired
  | tooManyMetaNodes
  | cannotReassign (shard : UInt64)
  | retentionPolicyNotFound (policy : String)
  | retentionPolicyExists
  | retentionPolicyConflict
  | external (text : String)
  | panic
deriving DecidableEq

-- The metadata keeps what a method has done to it before it returns an error.
abbrev DataM := EStateM Error Data

-- What the code of the metadata takes from the machine it runs on: the clock, and the order in which
-- the loop of `newShardOwner` goes through the map.
structure Machine where
  now : GoTime
  order : (group shard : UInt64) → GoMap Int64 Nat → List Int64
  visits : ∀ group shard (m : GoMap Int64 Nat), m.Visits (order group shard m)

namespace StatusMap

def modify (m : StatusMap) (shard : UInt64) (f : OwnerStatus → OwnerStatus) : StatusMap :=
  match m.lookup shard with
  | none => m
  | some owners => m.insert shard (f owners)

-- `m[shard][node] = status`
def set (m : StatusMap) (shard node : UInt64) (status : ShardStatus) : StatusMap :=
  m.modify shard (·.insert node status)

-- `delete(m[shard], node)`
def delete (m : StatusMap) (shard node : UInt64) : StatusMap :=
  m.modify shard (·.erase node)

end StatusMap

namespace Data

variable (I : Package)

def empty : Data where
  data := {
    term := 0
    index := 0
    clusterID := 0
    databases := []
    users := []
    maxShardGroupID := 0
    maxShardID := 0 }
  metaNodes := []
  dataNodes := []
  shardStatus := none
  maxNodeID := 0

-- The methods that only call the method of the same name of the other package.
def onInflux (op : Influx.Op) : DataM Unit := fun d =>
  match I.run op d.data with
  | (data, none) => .ok () { d with data }
  | (data, some e) => .error (.external e) { d with data }

-- The nodes are assigned to the shards via round robin.
def shardOwners (d : Data) (replicaN i : Nat) : List ShardOwner :=
  let nodeIndex := d.data.index.toNat % d.dataNodes.length
  (List.range replicaN).map fun j =>
    { nodeID := d.dataNodes[(nodeIndex + i * replicaN + j) % d.dataNodes.length]?.elim 0 (·.id) }

def newShards (d : Data) (replicaN shardN : Nat) : List ShardInfo :=
  (List.range shardN).map fun i =>
    { id := d.data.maxShardID + .ofNat (i + 1), owners := shardOwners d replicaN i }

-- Each new shard gets an empty map, which is then filled with its owners.
def addStatus (m : StatusMap) (shards : List ShardInfo) : StatusMap :=
  let m := shards.foldl (fun m s => m.insert s.id ∅) m
  shards.foldl (fun m s => s.owners.foldl (fun m o => m.set s.id o.nodeID shardWriteRead) m) m

def newShardGroup (d : Data) (rpi : RetentionPolicyInfo) (timestamp : GoTime)
    (shards : List ShardInfo) : ShardGroupInfo :=
  let startTime := timestamp.truncate rpi.shardGroupDuration
  { id := d.data.maxShardGroupID + 1
    startTime := startTime
    endTime := startTime + rpi.shardGroupDuration
    deletedAt := .zero
    truncatedAt := .zero
    shards := shards }

def addShardGroup (d : Data) (i j : Nat) (g : ShardGroupInfo) : Data :=
  let data := d.data.modifyPolicy i j fun rpi =>
    { rpi with shardGroups := I.sortShardGroupInfos (rpi.shardGroups ++ [g]) }
  { d with
    data := { data with
      maxShardGroupID := d.data.maxShardGroupID + 1
      maxShardID := d.data.maxShardID + .ofNat g.shards.length }
    shardStatus :=
      match g.shards with
      | [] => d.shardStatus
      | shards => some <| addStatus (d.shardStatus.getD ∅) shards }

-- At least one replica but no more replicas than nodes.
def replicaN (d : Data) (rpi : RetentionPolicyInfo) : Int :=
  if rpi.replicaN = 0 then
    1
  else if rpi.replicaN > d.dataNodes.length then
    d.dataNodes.length
  else
    rpi.replicaN

-- The group that is to be created, together with the position of its policy. There is none if the
-- policy already has a group for the timestamp.
def groupToCreate (d : Data) (database policy : String) (timestamp : GoTime) :
    Except Error (Option (Nat × Nat × ShardGroupInfo)) :=
  if d.dataNodes = [] then
    .ok none
  else
    match I.retentionPolicy d.data database policy with
    | .error e => .error (.external e)
    | .ok none => .error (.retentionPolicyNotFound policy)
    | .ok (some (i, j)) =>
      match d.data.policy? i j with
      | none => .error .panic
      | some rpi =>
        if (I.shardGroupByTimestamp rpi timestamp).isSome then
          .ok none
        else
          let replicaN := d.replicaN rpi
          let shardN := (d.dataNodes.length : Int).tdiv replicaN
          -- A slice can not be made with a negative length.
          if shardN < 0 then
            .error .panic
          else
            let shards := d.newShards replicaN.toNat shardN.toNat
            .ok (some (i, j, d.newShardGroup rpi timestamp shards))

def createShardGroup (database policy : String) (timestamp : GoTime) : DataM Unit := fun d =>
  match d.groupToCreate I database policy timestamp with
  | .error e => .error e d
  | .ok none => .ok () d
  | .ok (some (i, j, g)) => .ok () (d.addShardGroup I i j g)

def dataNode (d : Data) (id : UInt64) : Option NodeInfo :=
  d.dataNodes.find? (·.id == id)

def metaNode (d : Data) (id : UInt64) : Option NodeInfo :=
  d.metaNodes.find? (·.id == id)

-- The id of the node of `nodes` with the same address, and otherwise a new one. The second component
-- is the new value of `maxNodeID`.
def nodeID (d : Data) (nodes : List NodeInfo) (tcpHost : String) : UInt64 × UInt64 :=
  let existingID := (nodes.find? (·.tcpHost == tcpHost)).elim 0 (·.id)
  if existingID = 0 then
    (d.maxNodeID + 1, d.maxNodeID + 1)
  else
    (existingID, d.maxNodeID)

def createDataNode (host tcpHost : String) : DataM Unit := fun d =>
  if d.dataNodes.any (·.tcpHost == tcpHost) then
    .error .nodeExists d
  else
    let (id, maxNodeID) := d.nodeID d.metaNodes tcpHost
    .ok () { d with
      dataNodes := I.sortNodeInfos (d.dataNodes ++ [{ id, host, tcpHost }])
      maxNodeID := maxNodeID }

def setDataNode (nodeID : UInt64) (host tcpHost : String) : DataM Unit := fun d =>
  if d.dataNodes.any (·.host == host) then
    .error .nodeExists d
  else
    .ok () { d with dataNodes := d.dataNodes ++ [{ id := nodeID, host, tcpHost }] }

def createMetaNode (httpAddr tcpAddr : String) : DataM Unit := fun d =>
  if d.metaNodes.any (·.host == httpAddr) then
    .error .nodeExists d
  else
    let (id, maxNodeID) := d.nodeID d.dataNodes tcpAddr
    .ok () { d with
      metaNodes := I.sortNodeInfos (d.metaNodes ++ [{ id, host := httpAddr, tcpHost := tcpAddr }])
      maxNodeID := maxNodeID }

def setMetaNode (httpAddr tcpAddr : String) : DataM Unit := fun d =>
  match d.metaNodes with
  | [] => d.createMetaNode I httpAddr tcpAddr
  | [n] => .ok () { d with metaNodes := [{ n with host := httpAddr, tcpHost := tcpAddr }] }
  | _ => .error .tooManyMetaNodes d

def deleteMetaNode (id : UInt64) : DataM Unit := fun d =>
  let nodes := d.metaNodes.filter (·.id ≠ id)
  if id = 0 then
    .error .nodeIDRequired d
  else if nodes.length = d.metaNodes.length then
    .error .nodeNotFound d
  else
    .ok () { d with metaNodes := nodes }

def updateShard (id : UInt64) (newOwners : List UInt64) : DataM Unit := fun d =>
  let found := d.data.shards.filter (·.id = id)
  .ok () { d with
    data := { d.data with databases := d.data.databases.map onDatabase }
    shardStatus := d.shardStatus.map fun m =>
      found.foldl (fun m _ => newOwners.foldl (fun m o => m.set id o shardWrite) m) m }
where
  onShard (s : ShardInfo) : ShardInfo :=
    if s.id = id then { s with owners := s.owners ++ newOwners.map ShardOwner.mk } else s
  onGroup (g : ShardGroupInfo) : ShardGroupInfo :=
    { g with shards := g.shards.map onShard }
  onPolicy (rp : RetentionPolicyInfo) : RetentionPolicyInfo :=
    { rp with shardGroups := rp.shardGroups.map onGroup }
  onDatabase (db : DatabaseInfo) : DatabaseInfo :=
    { db with retentionPolicies := db.retentionPolicies.map onPolicy }

end Data

-- The node that owns the fewest shards of the group.
def newShardOwner (s : ShardInfo) (ownerFreqs : GoMap Int64 Nat) (order : List Int64) :
    Except Error (UInt64 × GoMap Int64 Nat) :=
  let (minId, _) := order.foldl least (-1, 0)
  if minId < 0 then
    .error (.cannotReassign s.id)
  else
    .ok (minId.toUInt64, ownerFreqs.incr minId)
where
  least (min : Int64 × Nat) (id : Int64) : Int64 × Nat :=
    let freq := ownerFreqs.count id
    if min.1 = -1 ∨ freq < min.2 then (id, freq) else min

namespace ShardInfo

variable (id : UInt64)

def ownedBy (s : ShardInfo) : Bool :=
  s.owners.any (·.nodeID == id)

-- If the node is listed more than once, then its last entry is the one that goes away.
def relinquish (s : ShardInfo) : ShardInfo :=
  match Slice.lastIdx? (·.nodeID == id) s.owners with
  | none => s
  | some i => { s with owners := s.owners.eraseIdx i }

def addOwner (nodeID : UInt64) (s : ShardInfo) : ShardInfo :=
  { s with owners := s.owners ++ [{ nodeID }] }

end ShardInfo

namespace ShardGroupInfo

variable (id : UInt64)

-- The shards of the group after the node is gone from their owners.
def remaining (g : ShardGroupInfo) : List ShardInfo :=
  g.shards.map (ShardInfo.relinquish id)

def orphanedShards (g : ShardGroupInfo) : List ShardInfo :=
  (remaining id g).filter (·.owners.isEmpty)

-- How many shards of the group each node owns. The node that is being deleted is not a candidate.
def nodeOwnerFreqs (g : ShardGroupInfo) : GoMap Int64 Nat :=
  let freqs := (g.shards.flatMap (·.owners)).foldl (·.incr ·.nodeID.toInt64) (∅ : GoMap Int64 Nat)
  freqs.erase id.toInt64

-- Only the first shard with the id of the orphan gets the owner.
def assign (orphan owner : UInt64) : List ShardInfo → List ShardInfo
  | [] => []
  | s :: l => if s.id = orphan then ShardInfo.addOwner owner s :: l else s :: assign orphan owner l

def reassign (M : Machine) (group : UInt64) :
    List ShardInfo → GoMap Int64 Nat → List ShardInfo → List ShardInfo × Option Error
  | [], _, shards => (shards, none)
  | orphan :: orphans, freqs, shards =>
    match newShardOwner orphan freqs (M.order group orphan.id freqs) with
    | .error e => (shards, some e)
    | .ok (owner, freqs) => reassign M group orphans freqs (assign orphan.id owner shards)

-- A group of which no shard has an owner left is marked as deleted.
def AllOrphaned (g : ShardGroupInfo) : Prop :=
  g.shards = [] ∨ (orphanedShards id g).length = g.shards.length

instance : DecidablePred (AllOrphaned id) := fun _ => inferInstanceAs (Decidable (_ ∨ _))

def deleteNode (M : Machine) (g : ShardGroupInfo) : ShardGroupInfo × Option Error :=
  if AllOrphaned id g then
    ({ g with shards := remaining id g, deletedAt := M.now }, none)
  else
    let (shards, err) :=
      reassign M g.id (orphanedShards id g) (nodeOwnerFreqs id g) (remaining id g)
    ({ g with shards := shards }, err)

-- The states of the node are removed while the shards of the group are looked through.
def deleteStatus (m : Option StatusMap) (g : ShardGroupInfo) : Option StatusMap :=
  m.map fun m => g.shards.foldl (fun m s => if ShardInfo.ownedBy id s then m.delete s.id id else m) m

end ShardGroupInfo

namespace Data

-- One round of the loop over all shard groups.
def deleteNodeFrom (M : Machine) (id : UInt64) :
    ShardGroupInfo → Option StatusMap → Slice.Loop ShardGroupInfo (Option StatusMap) Error :=
  Slice.separate
    (fun g => (ShardGroupInfo.deleteNode id M g).1)
    (ShardGroupInfo.deleteStatus id)
    (fun g => (ShardGroupInfo.deleteNode id M g).2)

def withPolicies (db : DatabaseInfo) (rps : List RetentionPolicyInfo) : DatabaseInfo :=
  { db with retentionPolicies := rps }

def withGroups (rp : RetentionPolicyInfo) (gs : List ShardGroupInfo) : RetentionPolicyInfo :=
  { rp with shardGroups := gs }

def eachGroup (f : ShardGroupInfo → σ → Slice.Loop ShardGroupInfo σ Error) :
    List DatabaseInfo → σ → Slice.Loop (List DatabaseInfo) σ Error :=
  Slice.each <|
  Slice.nested (·.retentionPolicies) withPolicies <|
  Slice.nested (·.shardGroups) withGroups f

def deleteDataNode (M : Machine) (id : UInt64) : DataM Unit := fun d =>
  let nodes := d.dataNodes.filter (·.id ≠ id)
  if nodes.length = d.dataNodes.length then
    .error .nodeNotFound d
  else
    let r := eachGroup (deleteNodeFrom M id) d.data.databases d.shardStatus
    let d := { d with
      data := { d.data with databases := r.value }
      dataNodes := nodes
      shardStatus := r.state }
    match r.err with
    | some e => .error e d
    | none => .ok () d

end Data
end Meta
