import Myts.Lib.GoMap
import Myts.Lib.GoTime

-- The metadata of a single InfluxDB node, which comes from another package. The package is a
-- parameter of the model.
namespace Influx

structure NodeInfo where
  id : UInt64
  host : String
  tcpHost : String
deriving DecidableEq

structure ShardOwner where
  nodeID : UInt64
deriving DecidableEq

structure ShardInfo where
  id : UInt64
  owners : List ShardOwner
deriving DecidableEq

@[ext]
structure ShardGroupInfo where
  id : UInt64
  startTime : GoTime
  endTime : GoTime
  deletedAt : GoTime
  truncatedAt : GoTime
  shards : List ShardInfo
deriving DecidableEq

structure SubscriptionInfo where
  name : String
  mode : String
  destinations : List String
deriving DecidableEq

@[ext]
structure RetentionPolicyInfo where
  name : String
  replicaN : Int
  duration : Int
  shardGroupDuration : Int
  shardGroups : List ShardGroupInfo
  subscriptions : List SubscriptionInfo
deriving DecidableEq

structure RetentionPolicyUpdate where
  name : Option String
  duration : Option Int
  replicaN : Option Int
  shardGroupDuration : Option Int
deriving DecidableEq

structure ContinuousQueryInfo where
  name : String
  query : String
deriving DecidableEq

@[ext]
structure DatabaseInfo where
  name : String
  defaultRetentionPolicy : String
  retentionPolicies : List RetentionPolicyInfo
  continuousQueries : List ContinuousQueryInfo
deriving DecidableEq

structure UserInfo where
  name : String
  hash : String
  admin : Bool
  privileges : GoMap String Int
deriving DecidableEq

@[ext]
structure Data where
  term : UInt64
  index : UInt64
  clusterID : UInt64
  databases : List DatabaseInfo
  users : List UserInfo
  maxShardGroupID : UInt64
  maxShardID : UInt64
deriving DecidableEq

namespace ShardGroupInfo

def Deleted (g : ShardGroupInfo) : Prop := g.deletedAt ≠ GoTime.zero

instance : DecidablePred Deleted := fun g => inferInstanceAs (Decidable (g.deletedAt ≠ _))

def Truncated (g : ShardGroupInfo) : Prop := g.truncatedAt ≠ GoTime.zero

instance : DecidablePred Truncated := fun g => inferInstanceAs (Decidable (g.truncatedAt ≠ _))

def Contains (g : ShardGroupInfo) (t : GoTime) : Prop := g.startTime ≤ t ∧ t < g.endTime

instance : Decidable (Contains g t) := inferInstanceAs (Decidable (_ ∧ _))

-- A point with the time can still be written to the group.
def Accepts (g : ShardGroupInfo) (t : GoTime) : Prop :=
  g.Contains t ∧ ¬g.Deleted ∧ (g.Truncated → t < g.truncatedAt)

instance : Decidable (Accepts g t) := inferInstanceAs (Decidable (_ ∧ _))

end ShardGroupInfo

def ShardInfo.OwnedBy (si : ShardInfo) (node : UInt64) : Prop :=
  ∃ o ∈ si.owners, o.nodeID = node

instance : Decidable (ShardInfo.OwnedBy si node) := inferInstanceAs (Decidable (∃ _ ∈ _, _))

namespace DatabaseInfo

def groups (d : DatabaseInfo) : List ShardGroupInfo :=
  d.retentionPolicies.flatMap (·.shardGroups)

end DatabaseInfo

namespace Data

def groups (d : Data) : List ShardGroupInfo :=
  d.databases.flatMap DatabaseInfo.groups

def shards (d : Data) : List ShardInfo :=
  d.groups.flatMap (·.shards)

def policies (d : Data) : List RetentionPolicyInfo :=
  d.databases.flatMap (·.retentionPolicies)

-- A retention policy that is given by its position.
def policy? (d : Data) (i j : Nat) : Option RetentionPolicyInfo :=
  d.databases[i]?.bind (·.retentionPolicies[j]?)

def modifyPolicy (d : Data) (i j : Nat) (f : RetentionPolicyInfo → RetentionPolicyInfo) : Data :=
  { d with databases := d.databases.modify i fun db =>
    { db with retentionPolicies := db.retentionPolicies.modify j f } }

end Data

-- The methods that may change the metadata, with their arguments. The deletion of a shard group is
-- stamped with the time of the call.
inductive Op
  | createDatabase (name : String)
  | dropDatabase (name : String)
  | createRetentionPolicy (database : String) (rpi : RetentionPolicyInfo) (makeDefault : Bool)
  | dropRetentionPolicy (database name : String)
  | updateRetentionPolicy (database name : String) (rpu : RetentionPolicyUpdate)
    (makeDefault : Bool)
  | deleteShardGroup (database policy : String) (id : UInt64) (now : GoTime)
  | createContinuousQuery (database name query : String)
  | dropContinuousQuery (database name : String)
  | createSubscription (database rp name mode : String) (destinations : List String)
  | dropSubscription (database rp name : String)
  | createUser (name hash : String) (admin : Bool)
  | dropUser (name : String)
  | updateUser (name hash : String)
  | setPrivilege (name database : String) (p : Int)
  | setAdminPrivilege (name : String) (admin : Bool)
deriving DecidableEq

-- No shards are dropped or added by the method.
def Op.KeepsShards (d : Data) : Op → Prop
  | dropDatabase name => ∀ db ∈ d.databases, db.name = name →
    ∀ g ∈ db.groups, g.shards = []
  | dropRetentionPolicy database name => ∀ db ∈ d.databases, db.name = database →
    ∀ rp ∈ db.retentionPolicies, rp.name = name → ∀ g ∈ rp.shardGroups, g.shards = []
  | createRetentionPolicy _ rpi _ => rpi.shardGroups = []
  | _ => True

instance : DecidablePred (Op.KeepsShards d) := fun op => by
  cases op <;> dsimp only [Op.KeepsShards] <;> infer_instance

-- The method is called with a replication factor.
def Op.SetsReplicaN (n : Int) : Op → Prop
  | createRetentionPolicy _ rpi _ => rpi.replicaN = n
  | updateRetentionPolicy _ _ rpu _ => rpu.replicaN = some n
  | _ => False

-- The method is called with a policy that already has these groups.
def Op.Brings (gs : List ShardGroupInfo) : Op → Prop
  | createRetentionPolicy _ rpi _ => gs = rpi.shardGroups
  | _ => False

structure Package where
  run : Op → Data → Data × Option String
  retentionPolicy : Data → (database name : String) → Except String (Option (Nat × Nat))
  shardGroupByTimestamp : RetentionPolicyInfo → GoTime → Option ShardGroupInfo
  newRetentionPolicyInfo : String → RetentionPolicyInfo
  sortNodeInfos : List NodeInfo → List NodeInfo
  sortShardGroupInfos : List ShardGroupInfo → List ShardGroupInfo
  marshalTime : GoTime → Int64
  unmarshalTime : Int64 → GoTime

-- The zero time is written as zero, and every other time as its distance to the Unix epoch, of which
-- nothing is said if it does not fit into 64 bits.
structure Package.TimeLaws (I : Package) : Prop where
  marshal_zero : I.marshalTime .zero = 0
  marshal_unix : ∀ v, I.marshalTime (.unix v) = v
  unmarshal_zero : I.unmarshalTime 0 = .zero
  unmarshal_unix : ∀ {v}, v ≠ 0 → I.unmarshalTime v = .unix v

-- The methods leave the shards alone, except for those that go away with their policy.
structure Package.ShardLaws (I : Package) : Prop where
  shards_run : ∀ {op d}, Op.KeepsShards d op → (I.run op d).1.shards = d.shards
  maxShardID_run : ∀ {op d}, Op.KeepsShards d op → (I.run op d).1.maxShardID = d.maxShardID
  new_shardGroups : ∀ {name}, (I.newRetentionPolicyInfo name).shardGroups = []

-- A policy that is found is there, and a policy keeps its replication factor until it gets another
-- one.
structure Package.PolicyLaws (I : Package) : Prop where
  policy_isSome : ∀ {d database name i j},
    I.retentionPolicy d database name = .ok (some (i, j)) → (d.policy? i j).isSome
  replicaN_run : ∀ {op d rp}, rp ∈ (I.run op d).1.policies →
    (∃ rp' ∈ d.policies, rp'.replicaN = rp.replicaN) ∨ op.SetsReplicaN rp.replicaN

-- Groups are sorted by their ends and then by their starts. A group is found by a time that it
-- accepts, and a group that is deleted is only marked as such.
structure Package.GroupLaws (I : Package) : Prop where
  sorted : ∀ {l}, (∀ g ∈ l, ¬g.Truncated) → (I.sortShardGroupInfos l).Pairwise fun g h =>
    g.endTime < h.endTime ∨ g.endTime = h.endTime ∧ g.startTime ≤ h.startTime
  byTimestamp_some : ∀ {rp t g}, I.shardGroupByTimestamp rp t = some g →
    g ∈ rp.shardGroups ∧ g.Accepts t
  byTimestamp_none : ∀ {rp t}, I.shardGroupByTimestamp rp t = none →
    ∀ g ∈ rp.shardGroups, ¬g.Accepts t
  delete_run : ∀ database policy id now {d i j rp}, d.policy? i j = some rp →
    ∃ gs, (I.run (.deleteShardGroup database policy id now) d).1.policy? i j
        = some { rp with shardGroups := gs }
      ∧ List.Forall₂ (fun g g' => g' = g ∨ g' = { g with deletedAt := now }) rp.shardGroups gs

-- If there is no error, a group with the id has been there, and it is now marked as deleted.
structure Package.DeleteLaws (I : Package) : Prop where
  groups : ∀ {database policy id now d d'},
    I.run (.deleteShardGroup database policy id now) d = (d', none) →
    ∃ l₁ g l₂, d.groups = l₁ ++ g :: l₂ ∧ g.id = id ∧
      d'.groups = l₁ ++ { g with deletedAt := now } :: l₂
  max : ∀ {database policy id now d d'},
    I.run (.deleteShardGroup database policy id now) d = (d', none) →
    d'.maxShardGroupID = d.maxShardGroupID ∧ d'.maxShardID = d.maxShardID

-- No method makes a group or a shard of its own, or counts one.
structure Package.CounterLaws (I : Package) : Prop where
  maxShardGroupID_run : ∀ op d, (I.run op d).1.maxShardGroupID = d.maxShardGroupID
  maxShardID_run : ∀ op d, (I.run op d).1.maxShardID = d.maxShardID
  groups_run : ∀ {op d g}, g ∈ (I.run op d).1.groups →
    (∃ g' ∈ d.groups, g'.id = g.id ∧ g'.shards = g.shards) ∨ ∃ gs, op.Brings gs ∧ g ∈ gs
  new_shardGroups : ∀ {name}, (I.newRetentionPolicyInfo name).shardGroups = []

-- The nodes and the groups are sorted in place.
structure Package.SortLaws (I : Package) : Prop where
  nodes_perm : ∀ l, (I.sortNodeInfos l).Perm l
  groups_perm : ∀ l, (I.sortShardGroupInfos l).Perm l

end Influx
