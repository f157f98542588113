import Myts.Meta.Store

namespace Influx

-- The other package as it is documented. It is what the model is run with; the proofs do not look
-- at it.
namespace Standard

def hour : Int := 60 * 60 * 1000000000
def day  : Int := 24 * hour

def normalisedShardDuration (sgd d : Int) : Int :=
  if sgd = 0 then
    if d ≥ 180 * day ∨ d = 0 then 7 * day else if d ≥ 2 * day then day else hour
  else
    max hour sgd

-- The first element with the given name is updated.
def modifyFirst (p : α → Bool) (f : α → α) (l : List α) : List α :=
  l.modify (l.findIdx p) f

abbrev Update := Data → Except String Data

def onDatabase (name : String) (f : DatabaseInfo → Except String DatabaseInfo) : Update := fun d => do
  match d.databases.find? (·.name == name) with
  | none    => throw s!"database not found: {name}"
  | some db =>
    let db ← f db
    return { d with databases := modifyFirst (·.name == name) (fun _ => db) d.databases }

def onPolicy (database name : String)
    (f : RetentionPolicyInfo → Except String RetentionPolicyInfo) : Update :=
  onDatabase database fun db => do
    match db.retentionPolicies.find? (·.name == name) with
    | none    => throw s!"retention policy not found: {name}"
    | some rp =>
      let rp ← f rp
      return { db with
        retentionPolicies := modifyFirst (·.name == name) (fun _ => rp) db.retentionPolicies }

def onUser (name : String) (f : UserInfo → UserInfo) : Update := fun d =>
  if d.users.any (·.name == name) then
    .ok { d with users := modifyFirst (·.name == name) f d.users }
  else
    .error "user not found"

def createDatabase (name : String) : Update := fun d =>
  if name = "" then
    .error "database name required"
  else if d.databases.any (·.name == name) then
    .ok d
  else
    .ok { d with databases := d.databases ++ [{
      name
      defaultRetentionPolicy := ""
      retentionPolicies := []
      continuousQueries := [] }] }

def dropDatabase (name : String) : Update := fun d =>
  .ok { d with
    databases := d.databases.filter (·.name ≠ name)
    users := d.users.map fun u => { u with privileges := u.privileges.erase name } }

def createRetentionPolicy (database : String) (rpi : RetentionPolicyInfo) (makeDefault : Bool) :
    Update :=
  let rpi := { rpi with
    shardGroupDuration := normalisedShardDuration rpi.shardGroupDuration rpi.duration }
  if rpi.name = "" then
    fun _ => .error "retention policy name required"
  else if rpi.replicaN < 1 then
    fun _ => .error "replication factor must be greater than 0"
  else if 0 < rpi.duration ∧ rpi.duration < rpi.shardGroupDuration then
    fun _ => .error "retention policy duration must be greater than the shard duration"
  else onDatabase database fun db =>
    match db.retentionPolicies.find? (·.name == rpi.name) with
    | none =>
      let defaultRP := if makeDefault then rpi.name else db.defaultRetentionPolicy
      .ok { db with
        retentionPolicies := db.retentionPolicies ++ [rpi]
        defaultRetentionPolicy := defaultRP }
    | some rp =>
      if rp.replicaN = rpi.replicaN ∧ rp.duration = rpi.duration
          ∧ rp.shardGroupDuration = rpi.shardGroupDuration then
        if makeDefault ∧ db.defaultRetentionPolicy ≠ rpi.name then
          .error "retention policy conflicts with an existing policy"
        else
          .ok db
      else
        .error "retention policy already exists"

def updateRetentionPolicy (database name : String) (rpu : RetentionPolicyUpdate)
    (makeDefault : Bool) : Update := fun d => do
  let newName := rpu.name.getD name
  let d ← onPolicy database name (fun rp =>
    let duration := rpu.duration.getD rp.duration
    let sgd := rpu.shardGroupDuration.getD rp.shardGroupDuration
    .ok { rp with
      name := newName
      duration := duration
      replicaN := rpu.replicaN.getD rp.replicaN
      shardGroupDuration := normalisedShardDuration sgd duration }) d
  onDatabase database (fun db =>
    let default := db.defaultRetentionPolicy
    let default := if makeDefault ∨ default = name then newName else default
    .ok { db with defaultRetentionPolicy := default }) d

def run : Op → Update
  | .createDatabase name => createDatabase name
  | .dropDatabase name => dropDatabase name
  | .createRetentionPolicy db rpi makeDefault => createRetentionPolicy db rpi makeDefault
  | .dropRetentionPolicy db name => fun d =>
    let drop := fun db : DatabaseInfo =>
      { db with retentionPolicies := db.retentionPolicies.filter (·.name ≠ name) }
    .ok { d with databases := modifyFirst (·.name == db) drop d.databases }
  | .updateRetentionPolicy db name rpu makeDefault => updateRetentionPolicy db name rpu makeDefault
  | .deleteShardGroup db policy id now => onPolicy db policy fun rp =>
    let delete := fun g : ShardGroupInfo => { g with deletedAt := now }
    if rp.shardGroups.any (·.id == id) then
      .ok { rp with shardGroups := modifyFirst (·.id == id) delete rp.shardGroups }
    else
      .error "shard group not found"
  | .createContinuousQuery db name query => onDatabase db fun db =>
    if db.continuousQueries.any (·.name == name) then
      .error "continuous query already exists"
    else
      .ok { db with continuousQueries := db.continuousQueries ++ [{ name, query }] }
  | .dropContinuousQuery db name => onDatabase db fun db =>
    .ok { db with continuousQueries := db.continuousQueries.filter (·.name ≠ name) }
  | .createSubscription db rp name mode destinations => onPolicy db rp fun rp =>
    if rp.subscriptions.any (·.name == name) then
      .error "subscription already exists"
    else
      .ok { rp with subscriptions := rp.subscriptions ++ [{ name, mode, destinations }] }
  | .dropSubscription db rp name => onPolicy db rp fun rp =>
    if rp.subscriptions.any (·.name == name) then
      .ok { rp with subscriptions := rp.subscriptions.filter (·.name ≠ name) }
    else
      .error "subscription not found"
  | .createUser name hash admin => fun d =>
    if name = "" then
      .error "username required"
    else if d.users.any (·.name == name) then
      .error "user already exists"
    else
      .ok { d with users := d.users ++ [{ name, hash, admin, privileges := ∅ }] }
  | .dropUser name => fun d =>
    if d.users.any (·.name == name) then
      .ok { d with users := d.users.filter (·.name ≠ name) }
    else
      .error "user not found"
  | .updateUser name hash => onUser name fun u => { u with hash }
  | .setPrivilege name db p => onUser name fun u =>
    { u with privileges := u.privileges.insert db p }
  | .setAdminPrivilege name admin => onUser name fun u => { u with admin }

end Standard

open Standard in
def Package.standard : Package where
  run op d :=
    match Standard.run op d with
    | .ok d => (d, none)
    | .error e => (d, some e)
  retentionPolicy d database name :=
    match d.databases.findIdx? (·.name == database) with
    | none   => .error s!"database not found: {database}"
    | some i =>
      .ok <| (d.databases[i]?.bind (·.retentionPolicies.findIdx? (·.name == name))).map (i, ·)
  shardGroupByTimestamp rpi t :=
    rpi.shardGroups.find? fun g =>
      decide (g.startTime ≤ t ∧ t < g.endTime ∧ ¬g.Deleted
        ∧ (g.truncatedAt = GoTime.zero ∨ t < g.truncatedAt))
  newRetentionPolicyInfo name := {
    name
    replicaN := 1
    duration := 0
    shardGroupDuration := 7 * day
    shardGroups := []
    subscriptions := [] }
  sortNodeInfos l := l.insertionSort (·.id.toNat ≤ ·.id.toNat)
  sortShardGroupInfos l := l.insertionSort fun a b =>
    let groupEnd := fun g : ShardGroupInfo =>
      if g.truncatedAt = GoTime.zero then g.endTime else g.truncatedAt
    groupEnd a < groupEnd b ∨ groupEnd a = groupEnd b ∧ a.startTime ≤ b.startTime
  marshalTime t := if t = GoTime.zero then 0 else .ofInt (t - GoTime.unixEpoch)
  unmarshalTime i := if i = 0 then .zero else .unix i

end Influx

namespace Meta

namespace Machine

def ascending (now : GoTime) : Machine where
  now := now
  order _ _ m := letI := order; m.ascending
  visits _ _ m := letI := order; m.visits_ascending
where
  order : LinearOrder Int64 := .lift' Int64.toInt fun _ _ => Int64.toInt_inj.mp

def descending (now : GoTime) : Machine where
  now := now
  order g s m := ((ascending now).order g s m).reverse
  visits g s m := ((ascending now).visits g s m).reverse

end Machine

def Env.follower (M : Machine) (peers : List String) : Env where
  toMachine := M
  isLeader := false
  peers := .ok peers
  raftRemovePeer _ := none
  retentionAutoCreate := true

def Log.ofCommands (cmds : List Command) : List Log :=
  cmds.zipIdx.map fun (cmd, i) => { term := 1, index := .ofNat (i + 2), cmd }

namespace Command

def oneReplica : Internal.RetentionPolicyInfo where
  name := "rp"
  duration := 0
  shardGroupDuration := 0
  replicaN := 1
  shardGroups := []

-- Three nodes and a group with three shards. Node 3 owns shard 1, node 1 owns shard 2 and node 2
-- owns shard 3.
def threeShards : List Command := [
  .createDataNode "h1" "t1",
  .createDataNode "h2" "t2",
  .createDataNode "h3" "t3",
  .createDatabase "db" (some oneReplica),
  .createShardGroup "db" "rp" 0]

end Command

namespace Store

def after (E : Env) (cmds : List Command) : Store :=
  (((Log.ofCommands cmds).map (E, ·)).foldl (step .standard) (some init)).getD init

theorem run_after
    (hs : (((Log.ofCommands cmds).map (E, ·)).foldl (step .standard) (some init)).isSome)
    (h : Run.All (step .standard) P (some init) ((Log.ofCommands cmds).map (E, ·))) :
    Run (step .standard) P (some init) (some (after E cmds)) := by
  have ⟨s, hs⟩ := Option.isSome_iff_exists.mp hs
  rw [after, hs]
  exact .of_foldl_eq _ hs h

end Store
end Meta
