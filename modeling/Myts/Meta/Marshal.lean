import Myts.Meta.Data

-- The messages of `internal/meta.proto`, without the fields that no code reads or writes.
namespace Internal

structure NodeInfo where
  id : UInt64
  host : String
  tcpHost : String
deriving DecidableEq

structure ShardOwner where
  nodeID : UInt64
deriving DecidableEq

structure ShardInfo where
  id : UInt64
  ownerIDs : List UInt64
  owners : List ShardOwner
deriving DecidableEq

structure ShardGroupInfo where
  id : UInt64
  startTime : Int64
  endTime : Int64
  deletedAt : Int64
  shards : List ShardInfo
  truncatedAt : Option Int64
deriving DecidableEq

structure RetentionPolicyInfo where
  name : String
  duration : Int
  shardGroupDuration : Int
  replicaN : UInt32
  shardGroups : List ShardGroupInfo
deriving DecidableEq

structure DatabaseInfo where
  name : String
  defaultRetentionPolicy : String
  retentionPolicies : List RetentionPolicyInfo
deriving DecidableEq

structure ShardOwnerStatus where
  ownerNodeID : UInt64
  status : Int32
deriving DecidableEq

structure ShardStatus where
  shardID : UInt64
  status : List ShardOwnerStatus
deriving DecidableEq

structure Data where
  term : UInt64
  index : UInt64
  clusterID : UInt64
  databases : List DatabaseInfo
  maxNodeID : UInt64
  maxShardGroupID : UInt64
  maxShardID : UInt64
  dataNodes : List NodeInfo
  metaNodes : List NodeInfo
  shardRWStatus : List ShardStatus
deriving DecidableEq

end Internal

namespace Meta

open Influx (Package)

def marshalNodeInfo (n : Influx.NodeInfo) : Internal.NodeInfo where
  id := n.id
  host := n.host
  tcpHost := n.tcpHost

def unmarshalNodeInfo (pb : Internal.NodeInfo) : Influx.NodeInfo where
  id := pb.id
  host := pb.host
  tcpHost := pb.tcpHost

def marshalShardOwner (so : Influx.ShardOwner) : Internal.ShardOwner where
  nodeID := so.nodeID

def unmarshalShardOwner (pb : Internal.ShardOwner) : Influx.ShardOwner where
  nodeID := pb.nodeID

def marshalShardInfo (si : Influx.ShardInfo) : Internal.ShardInfo where
  id := si.id
  ownerIDs := []
  owners := si.owners.map marshalShardOwner

def unmarshalShardInfo (pb : Internal.ShardInfo) : Influx.ShardInfo where
  id := pb.id
  owners :=
    -- The deprecated field takes precedence.
    if pb.ownerIDs = [] then
      pb.owners.map unmarshalShardOwner
    else
      pb.ownerIDs.map fun id => unmarshalShardOwner { nodeID := id }

variable (I : Package)

def marshalShardGroupInfo (sgi : Influx.ShardGroupInfo) : Internal.ShardGroupInfo where
  id := sgi.id
  startTime := I.marshalTime sgi.startTime
  endTime := I.marshalTime sgi.endTime
  deletedAt := I.marshalTime sgi.deletedAt
  shards := sgi.shards.map marshalShardInfo
  truncatedAt := if sgi.truncatedAt = .zero then none else some (I.marshalTime sgi.truncatedAt)

-- The bounds of a group can be the Unix epoch but not the zero time.
def unmarshalBound (i : Int64) : GoTime :=
  if i = 0 then .unix 0 else I.unmarshalTime i

def unmarshalShardGroupInfo (pb : Internal.ShardGroupInfo) : Influx.ShardGroupInfo where
  id := pb.id
  startTime := unmarshalBound I pb.startTime
  endTime := unmarshalBound I pb.endTime
  deletedAt := I.unmarshalTime pb.deletedAt
  truncatedAt := pb.truncatedAt.elim .zero I.unmarshalTime
  shards := pb.shards.map unmarshalShardInfo

-- The subscriptions of a policy are not written.
def marshalRetentionPolicyInfo (rpi : Influx.RetentionPolicyInfo) :
    Internal.RetentionPolicyInfo where
  name := rpi.name
  duration := rpi.duration
  shardGroupDuration := rpi.shardGroupDuration
  replicaN := .ofNat (rpi.replicaN % 2 ^ 32).toNat
  shardGroups := rpi.shardGroups.map (marshalShardGroupInfo I)

def unmarshalRetentionPolicyInfo (pb : Internal.RetentionPolicyInfo) :
    Influx.RetentionPolicyInfo where
  name := pb.name
  replicaN := pb.replicaN.toNat
  duration := pb.duration
  shardGroupDuration := pb.shardGroupDuration
  shardGroups := pb.shardGroups.map (unmarshalShardGroupInfo I)
  subscriptions := []

-- The continuous queries of a database are not written.
def marshalDatabaseInfo (di : Influx.DatabaseInfo) : Internal.DatabaseInfo where
  name := di.name
  defaultRetentionPolicy := di.defaultRetentionPolicy
  retentionPolicies := di.retentionPolicies.map (marshalRetentionPolicyInfo I)

def unmarshalDatabaseInfo (pb : Internal.DatabaseInfo) : Influx.DatabaseInfo where
  name := pb.name
  defaultRetentionPolicy := pb.defaultRetentionPolicy
  retentionPolicies := pb.retentionPolicies.map (unmarshalRetentionPolicyInfo I)
  continuousQueries := []

-- The order in which a loop over the map of the shard states and the loops over its inner maps come
-- to the keys.
structure StatusOrder where
  shards : List UInt64
  owners : UInt64 → List UInt64

@[mk_iff]
structure StatusOrder.Visits (o : StatusOrder) (m : StatusMap) : Prop where
  shards : GoMap.Visits m o.shards
  owners : ∀ e ∈ m.entries, GoMap.Visits e.2 (o.owners e.1)

namespace Data

def marshalStatus (o : StatusOrder) (m : StatusMap) : List Internal.ShardStatus :=
  o.shards.map fun shardID =>
    { shardID
      status := (o.owners shardID).map fun nodeID =>
        { ownerNodeID := nodeID
          status := ((m.lookup shardID).bind (·.lookup nodeID)).getD 0 } }

-- The map of a shard is made when its first owner is read.
def unmarshalStatus (pb : List Internal.ShardStatus) : StatusMap :=
  pb.foldl (fun m x => x.status.foldl (fun m y => add m x.shardID y) m) ∅
where
  add (m : StatusMap) (shardID : UInt64) (y : Internal.ShardOwnerStatus) : StatusMap :=
    m.insert shardID (((m.lookup shardID).getD ∅).insert y.ownerNodeID y.status)

def marshal (o : StatusOrder) (d : Data) : Internal.Data where
  term := d.data.term
  index := d.data.index
  clusterID := d.data.clusterID
  databases := d.data.databases.map (marshalDatabaseInfo I)
  maxNodeID := d.maxNodeID
  maxShardGroupID := d.data.maxShardGroupID
  maxShardID := d.data.maxShardID
  dataNodes := d.dataNodes.map marshalNodeInfo
  metaNodes := d.metaNodes.map marshalNodeInfo
  shardRWStatus := marshalStatus o (d.shardStatus.getD ∅)

def unmarshal (pb : Internal.Data) : Data where
  data := {
    term := pb.term
    index := pb.index
    clusterID := pb.clusterID
    databases := pb.databases.map (unmarshalDatabaseInfo I)
    users := []
    maxShardGroupID := pb.maxShardGroupID
    maxShardID := pb.maxShardID }
  metaNodes := pb.metaNodes.map unmarshalNodeInfo
  dataNodes := pb.dataNodes.map unmarshalNodeInfo
  shardStatus := some (unmarshalStatus pb.shardRWStatus)
  maxNodeID := pb.maxNodeID

-- A nil map has the same entries as an empty map.
def normal (d : Data) : Data :=
  { d with shardStatus := some (d.shardStatus.getD ∅) }

end Data

-- The time of a deletion or of a truncation can be the zero time but not the Unix epoch.
def RestorableStamp (t : GoTime) : Prop :=
  t = .zero ∨ t.Representable ∧ t ≠ .unix 0

instance : DecidablePred RestorableStamp := fun _ => inferInstanceAs (Decidable (_ ∨ _))

-- The metadata that is read back as it has been written.
@[mk_iff]
structure ShardGroupInfo.Restorable (g : Influx.ShardGroupInfo) : Prop where
  startTime : g.startTime.Representable
  endTime : g.endTime.Representable
  deletedAt : RestorableStamp g.deletedAt
  truncatedAt : RestorableStamp g.truncatedAt

@[mk_iff]
structure RetentionPolicyInfo.Restorable (rp : Influx.RetentionPolicyInfo) : Prop where
  subscriptions : rp.subscriptions = []
  replicaN : 0 ≤ rp.replicaN ∧ rp.replicaN < 2 ^ 32
  shardGroups : ∀ g ∈ rp.shardGroups, ShardGroupInfo.Restorable g

@[mk_iff]
structure DatabaseInfo.Restorable (db : Influx.DatabaseInfo) : Prop where
  continuousQueries : db.continuousQueries = []
  retentionPolicies : ∀ rp ∈ db.retentionPolicies, RetentionPolicyInfo.Restorable rp

@[mk_iff]
structure Data.Restorable (d : Data) : Prop where
  users : d.data.users = []
  databases : ∀ db ∈ d.data.databases, DatabaseInfo.Restorable db
  status : ∀ e ∈ (d.shardStatus.getD ∅).entries, e.2 ≠ ∅

section Decidable

instance : Decidable (StatusOrder.Visits o m) :=
  decidable_of_iff' _ (StatusOrder.visits_iff ..)

instance : DecidablePred ShardGroupInfo.Restorable := fun _ =>
  decidable_of_iff' _ (ShardGroupInfo.restorable_iff ..)

instance : DecidablePred RetentionPolicyInfo.Restorable := fun _ =>
  decidable_of_iff' _ (RetentionPolicyInfo.restorable_iff ..)

instance : DecidablePred DatabaseInfo.Restorable := fun _ =>
  decidable_of_iff' _ (DatabaseInfo.restorable_iff ..)

instance : DecidablePred Data.Restorable := fun _ =>
  decidable_of_iff' _ (Data.restorable_iff ..)

end Decidable
end Meta
