import Myts.Meta.Marshal

namespace Meta

open Influx (Package)

inductive Command
  | removePeer (addr : String)
  | createNode (host : String) (rand : UInt64)
  | deleteNode (id : UInt64)
  | createDatabase (name : String) (retentionPolicy : Option Internal.RetentionPolicyInfo)
  | dropDatabase (name : String)
  | createRetentionPolicy (database : String) (retentionPolicy : Internal.RetentionPolicyInfo)
    (makeDefault : Bool)
  | dropRetentionPolicy (database name : String)
  | setDefaultRetentionPolicy (database name : String)
  | updateRetentionPolicy (database name : String) (newName : Option String)
    (duration : Option Int) (replicaN : Option UInt32) (makeDefault : Option Bool)
    (shardDuration : Option Int)
  | createShardGroup (database policy : String) (timestamp : Int64)
  | deleteShardGroup (database policy : String) (shardGroupID : UInt64)
  | createContinuousQuery (database name query : String)
  | dropContinuousQuery (database name : String)
  | createSubscription (name database retentionPolicy mode : String) (destinations : List String)
  | dropSubscription (name database retentionPolicy : String)
  | createUser (name hash : String) (admin : Bool)
  | dropUser (name : String)
  | updateUser (name hash : String)
  | setPrivilege (username database : String) (privilege : Int)
  | setAdminPrivilege (username : String) (admin : Bool)
  | setData (data : Internal.Data)
  | updateNode (id : UInt64) (host : String)
  | createMetaNode (httpAddr tcpAddr : String) (rand : UInt64)
  | deleteMetaNode (id : UInt64)
  | setMetaNode (httpAddr tcpAddr : String) (rand : UInt64)
  | createDataNode (httpAddr tcpAddr : String)
  | updateDataNode (id : UInt64) (host tcpHost : String)
  | deleteDataNode (id : UInt64)
  | dropShard (id : UInt64)
  -- The new state comes as bytes, which are not there if they are empty. The fields that can not be
  -- read from them are nil.
  | updateShard (id : UInt64) (newOwnerNodeIDs : List UInt64)
    (newShardStatus : Option (Option UInt64 × Option ShardStatus))
deriving DecidableEq

structure Log where
  term : UInt64
  index : UInt64
  cmd : Command
deriving DecidableEq

inductive RaftError
  | notLeader
  | other (text : String)
deriving DecidableEq

-- What the application of a command takes from the replica it runs on.
structure Env extends Machine where
  isLeader : Bool
  peers : Except String (List String)
  raftRemovePeer : String → Option RaftError
  retentionAutoCreate : Bool

namespace Env

def removePeer (E : Env) (addr : String) : Option RaftError :=
  if !E.isLeader then
    some .notLeader
  else if addr ∉ E.peers.toOption.getD [] then
    none
  else
    E.raftRemovePeer addr

def leave (E : Env) (n : Influx.NodeInfo) : Option RaftError :=
  E.removePeer n.tcpHost

end Env

-- An error that is not looked at.
def ignore (m : DataM Unit) : DataM Unit := fun d =>
  match m d with
  | .error .panic d => .error .panic d
  | .error _ d => .ok () d
  | .ok () d => .ok () d

def policyOfPb (pb : Internal.RetentionPolicyInfo) : Influx.RetentionPolicyInfo where
  name := pb.name
  replicaN := pb.replicaN.toNat
  duration := pb.duration
  shardGroupDuration := pb.shardGroupDuration
  shardGroups := []
  subscriptions := []

def autoCreateRetentionPolicyName         : String := "default"
def autoCreateRetentionPolicyPeriod       : Int    := 0
def maxAutoCreatedRetentionPolicyReplicaN : Nat    := 2

section Apply

variable (I : Package)

-- If the cluster ID hasn't been set then the command's random number is used.
def setClusterID (rand : UInt64) : DataM Unit :=
  modify fun d => if d.data.clusterID = 0 then { d with data.clusterID := rand } else d

def applyUpdateShardCommand (id : UInt64) (newOwnerNodeIDs : List UInt64)
    (newShardStatus : Option (Option UInt64 × Option ShardStatus)) : DataM Unit := do
  addOwners
  setStatus
where
  addOwners : DataM Unit :=
    if newOwnerNodeIDs = [] then pure () else Data.updateShard id newOwnerNodeIDs
  setStatus : DataM Unit := fun d =>
    match newShardStatus with
    | none => .ok () d
    | some (some node, some status) =>
      -- An assignment to an entry of a nil map panics.
      match d.shardStatus.bind (·.lookup id) with
      | none => .error .panic d
      | some _ => .ok () { d with shardStatus := d.shardStatus.map (·.set id node status) }
    | some _ => .error .panic d

def applyCreateNodeCommand (host : String) (rand : UInt64) (peers : List String) : DataM Unit := do
  createMetaNode
  createDataNode
  setClusterID rand
where
  createMetaNode : DataM Unit :=
    if host ∈ peers then Data.createMetaNode I host host else pure ()
  createDataNode : DataM Unit := fun d =>
    match d.metaNodes with
    | [metaNode] => Data.setDataNode metaNode.id host host d
    | _ => Data.createDataNode I host host d

def applyCreateDatabaseCommand (autoCreate : Bool) (name : String)
    (retentionPolicy : Option Internal.RetentionPolicyInfo) : DataM Unit := do
  Data.onInflux I (.createDatabase name)
  createPolicy
where
  createPolicy : DataM Unit := fun d =>
    match retentionPolicy with
    | some pb =>
      match Data.onInflux I (.createRetentionPolicy name (policyOfPb pb) true) d with
      | .error .retentionPolicyExists d => .error .retentionPolicyConflict d
      | r => r
    | none =>
      if autoCreate then
        let replicaN := max 1 (min d.dataNodes.length maxAutoCreatedRetentionPolicyReplicaN)
        let rpi := { I.newRetentionPolicyInfo autoCreateRetentionPolicyName with
          replicaN := replicaN
          duration := autoCreateRetentionPolicyPeriod }
        Data.onInflux I (.createRetentionPolicy name rpi true) d
      else
        .ok () d

def applyUpdateRetentionPolicyCommand (database name : String) (newName : Option String)
    (duration : Option Int) (replicaN : Option UInt32) (makeDefault : Option Bool)
    (shardDuration : Option Int) : DataM Unit :=
  match makeDefault with
  | none => throw .panic
  | some makeDefault =>
    let rpu := {
      name := newName
      duration := duration
      replicaN := replicaN.map (·.toNat)
      shardGroupDuration := shardDuration }
    Data.onInflux I (.updateRetentionPolicy database name rpu makeDefault)

def applyCreateMetaNodeCommand (httpAddr tcpAddr : String) (rand : UInt64) : DataM Unit := do
  ignore (Data.createMetaNode I httpAddr tcpAddr)
  setClusterID rand

def applySetMetaNodeCommand (httpAddr tcpAddr : String) (rand : UInt64) : DataM Unit := do
  ignore (Data.setMetaNode I httpAddr tcpAddr)
  setClusterID rand

def applyDeleteMetaNodeCommand (E : Env) (id : UInt64) : DataM Unit := fun d =>
  match d.metaNode id with
  | none => .error .nodeNotFound d
  | some node =>
    match E.leave node with
    | none | some .notLeader => Data.deleteMetaNode id d
    | some (.other e) => .error (.external e) d

def applyCreateDataNodeCommand (httpAddr tcpAddr : String) : DataM Unit := fun d =>
  match d.metaNodes, d.dataNodes with
  | [metaNode], [] => Data.setDataNode metaNode.id httpAddr tcpAddr d
  | _, _ => ignore (Data.createDataNode I httpAddr tcpAddr) d

-- What a command does to the metadata of the store.
inductive Effect
  | keep (err : Option Error)
  -- It is replaced by a copy to which the method has been applied, if there is no error.
  | update (m : DataM Unit)
  -- It is replaced by other metadata.
  | overwrite (d : Data)
  | panic

def dispatch (E : Env) : Command → Effect
  | .removePeer _ => .keep none
  | .deleteNode _ => .keep none
  | .updateNode _ _ => .keep none
  | .setDefaultRetentionPolicy _ _ => .panic
  | .updateDataNode _ _ _ => .panic
  | .dropShard _ => .panic
  | .setData data => .overwrite (Data.unmarshal I data)
  | .createNode host rand =>
    match E.peers with
    | .error e => .keep (some (.external e))
    | .ok peers => .update (applyCreateNodeCommand I host rand peers)
  | .createDatabase name rp =>
    .update (applyCreateDatabaseCommand I E.retentionAutoCreate name rp)
  | .dropDatabase name => .update (Data.onInflux I (.dropDatabase name))
  | .createRetentionPolicy db pb makeDefault =>
    .update (Data.onInflux I (.createRetentionPolicy db (policyOfPb pb) makeDefault))
  | .dropRetentionPolicy db name =>
    .update (Data.onInflux I (.dropRetentionPolicy db name))
  | .updateRetentionPolicy db name newName duration replicaN makeDefault shardDuration =>
    .update (applyUpdateRetentionPolicyCommand I db name newName duration replicaN makeDefault
      shardDuration)
  | .createShardGroup db policy ts =>
    .update (Data.createShardGroup I db policy (.unix ts))
  | .deleteShardGroup db policy id =>
    .update (Data.onInflux I (.deleteShardGroup db policy id E.now))
  | .createContinuousQuery db name q =>
    .update (Data.onInflux I (.createContinuousQuery db name q))
  | .dropContinuousQuery db name =>
    .update (Data.onInflux I (.dropContinuousQuery db name))
  | .createSubscription name db rp mode ds =>
    .update (Data.onInflux I (.createSubscription db rp name mode ds))
  | .dropSubscription name db rp =>
    .update (Data.onInflux I (.dropSubscription db rp name))
  | .createUser name hash admin => .update (Data.onInflux I (.createUser name hash admin))
  | .dropUser name => .update (Data.onInflux I (.dropUser name))
  | .updateUser name hash => .update (Data.onInflux I (.updateUser name hash))
  | .setPrivilege name db p => .update (Data.onInflux I (.setPrivilege name db p))
  | .setAdminPrivilege name admin =>
    .update (Data.onInflux I (.setAdminPrivilege name admin))
  | .createMetaNode httpAddr tcpAddr rand =>
    .update (applyCreateMetaNodeCommand I httpAddr tcpAddr rand)
  | .setMetaNode httpAddr tcpAddr rand =>
    .update (applySetMetaNodeCommand I httpAddr tcpAddr rand)
  | .deleteMetaNode id => .update (applyDeleteMetaNodeCommand E id)
  | .createDataNode httpAddr tcpAddr => .update (applyCreateDataNodeCommand I httpAddr tcpAddr)
  | .deleteDataNode id => .update (Data.deleteDataNode E.toMachine id)
  | .updateShard id owners status => .update (applyUpdateShardCommand id owners status)

end Apply
end Meta
