import Myts.Meta.Data

namespace Influx.ShardGroupInfo

def Overlaps (g : ShardGroupInfo) (tmin tmax : GoTime) : Prop :=
  g.startTime ≤ tmax ∧ tmin < g.endTime

instance : Decidable (Overlaps g tmin tmax) := inferInstanceAs (Decidable (_ ∧ _))

end Influx.ShardGroupInfo

open Influx (Package ShardInfo ShardGroupInfo)

-- `coordinator.Source`
structure Source where
  database : String
  retentionPolicy : String
deriving DecidableEq

-- The sources of a query. A subquery has sources of its own.
inductive Sources
  | nil
  | measurement (s : Source) (rest : Sources)
  | subQuery (inner rest : Sources)

abbrev ShardMap := GoMap Source (List UInt64)

abbrev NodeShards := GoMap UInt64 ShardMap

-- The order of the remote mappings comes from the order in which a loop goes through a map, which is
-- not specified.
structure ShardMappings where
  hasLocal : Bool
  localMap? : Option ShardMap
  remotes : Multiset (UInt64 × ShardMap)

def ShardMappings.empty : ShardMappings where
  hasLocal := false
  localMap? := none
  remotes := 0

namespace NodeShards

def ids (b : NodeShards) (node : UInt64) (q : Source) : List UInt64 :=
  ((b.lookup node).bind (·.lookup q)).getD []

-- `b[node][q] = append(b[node][q], id)`, where the map of the node is made if there is none.
def append (b : NodeShards) (node : UInt64) (q : Source) (id : UInt64) : NodeShards :=
  b.insert node (((b.lookup node).getD ∅).insert q (b.ids node q ++ [id]))

end NodeShards

-- The random numbers are taken modulo the number of choices.
structure DistributedShardMapper where
  package : Package
  data : Meta.Data
  nodeID : UInt64
  rand : Nat → Nat

namespace DistributedShardMapper

variable (c : DistributedShardMapper)

section Client

def shardIsReadable (shardID nodeID : UInt64) : Bool :=
  let s := ((c.data.shardStatus.bind (·.lookup shardID)).bind (·.lookup nodeID)).getD 0
  s == Meta.shardRead || s == Meta.shardWriteRead

def shardGroupsByTimeRange (q : Source) (tmin tmax : GoTime) :
    Except String (List ShardGroupInfo) :=
  match c.package.retentionPolicy c.data.data q.database q.retentionPolicy with
  | .error e => .error e
  | .ok none          => .error s!"retention policy not found: {q.retentionPolicy}"
  | .ok (some (i, j)) => .ok <|
    ((c.data.data.policy? i j).elim [] (·.shardGroups)).filter fun g =>
      ¬g.Deleted ∧ g.Overlaps tmin tmax

end Client

section MapShards

def chooseNode (r : Nat) (si : ShardInfo) : Option UInt64 :=
  let first :=
    if si.OwnedBy c.nodeID then
      some c.nodeID
    else
      si.owners[r % si.owners.length]?.map (·.nodeID)
  first.bind fun nodeID =>
    if c.shardIsReadable si.id nodeID then
      some nodeID
    else
      (si.owners.map (·.nodeID)).find? (c.shardIsReadable si.id)

-- The shards by node, and how many random numbers have been drawn.
def visit (q : Source) (b : NodeShards × Nat) (si : ShardInfo) : NodeShards × Nat :=
  match c.chooseNode (c.rand b.2) si with
  | none => (b.1, b.2 + 1)
  | some nodeID => (b.1.append nodeID q si.id, b.2 + 1)

-- The local part overwrites what is there, the remote part is added.
def merge (m : ShardMappings) (b : NodeShards) : ShardMappings where
  hasLocal := m.hasLocal || decide (c.nodeID ∈ b)
  localMap? :=
    match b.lookup c.nodeID with
    | none => m.localMap?
    | some shardMap => some (shardMap ∪ m.localMap?.getD ∅)
  remotes := m.remotes +
    (b.keys.erase c.nodeID).val.map fun node => (node, (b.lookup node).getD ∅)

structure Progress where
  all : Finset Source
  shards : NodeShards

def Progress.start : Progress where
  all := ∅
  shards := ∅

variable (tmin tmax : GoTime)

-- The loop over the sources of one call of `mapShards`. The calls for subqueries share the mappings
-- but not what the loop has seen.
def mapSources : Sources → Progress → ShardMappings × Nat →
    Except String (Progress × ShardMappings × Nat)
  | .nil, p, m => .ok (p, m)
  | .measurement q rest, p, m =>
    if q ∈ p.all then
      mapSources rest p m
    else
      match c.shardGroupsByTimeRange q tmin tmax with
      | .error e => .error e
      | .ok groups =>
        let (shards, draws) := (groups.flatMap (·.shards)).foldl (c.visit q) (p.shards, m.2)
        mapSources rest { all := insert q p.all, shards } (m.1, draws)
  | .subQuery inner rest, p, m =>
    match mapSources inner .start m with
    | .error e => .error e
    | .ok (p', m') => mapSources rest p (c.merge m'.1 p'.shards, m'.2)

def mapShards (sources : Sources) : Except String ShardMappings :=
  match c.mapSources tmin tmax sources .start (.empty, 0) with
  | .error e => .error e
  | .ok (p, m) => .ok (c.merge m.1 p.shards)

end MapShards

section Exact

-- The lists of sources, of the query and of its subqueries, that have a measurement of the source.
def Mentions (q : Source) : Sources → Prop
  | .nil => False
  | .measurement s rest => s = q ∨ Mentions q rest
  | .subQuery _ rest => Mentions q rest

instance decidableMentions (q : Source) : (s : Sources) → Decidable (Mentions q s)
  | .nil => .isFalse id
  | .measurement _ rest => have := decidableMentions q rest; inferInstanceAs (Decidable (_ ∨ _))
  | .subQuery _ rest => decidableMentions q rest

def nested (q : Source) : Sources → Nat
  | .nil => 0
  | .measurement _ rest => nested q rest
  | .subQuery inner rest => nested q inner + (if Mentions q inner then 1 else 0) + nested q rest

def lists (q : Source) (s : Sources) : Nat :=
  nested q s + if Mentions q s then 1 else 0

def shards (q : Source) (tmin tmax : GoTime) : List ShardInfo :=
  match c.shardGroupsByTimeRange q tmin tmax with
  | .error _ => []
  | .ok groups => groups.flatMap (·.shards)

def ReadableOn (si : ShardInfo) (node : UInt64) : Prop :=
  si.OwnedBy node ∧ c.shardIsReadable si.id node

instance : Decidable (c.ReadableOn si node) := inferInstanceAs (Decidable (_ ∧ _))

def Readable (si : ShardInfo) : Prop :=
  ∃ o ∈ si.owners, c.shardIsReadable si.id o.nodeID

instance : DecidablePred c.Readable := fun si => inferInstanceAs (Decidable (∃ o ∈ si.owners, _))

-- The nodes and the shards that the local mapping and the remote ones have for a source.
def assigned (m : ShardMappings) (q : Source) : Multiset (UInt64 × UInt64) :=
  (if m.hasLocal then
    (((m.localMap?.bind (·.lookup q)).getD []).map (c.nodeID, ·) : Multiset (UInt64 × UInt64))
  else
    0) +
  m.remotes.bind fun (node, shardMap) => ((shardMap.lookup q).getD []).map (node, ·)

-- Every shard with a readable owner is assigned once, to a readable owner, and no other shard is.
def Exact (tmin tmax : GoTime) (m : ShardMappings) (q : Source) : Prop :=
  ∃ ps : List (ShardInfo × UInt64),
    (ps.map Prod.fst).Perm ((c.shards q tmin tmax).filter c.Readable) ∧
    (∀ p ∈ ps, c.ReadableOn p.1 p.2) ∧
    c.assigned m q = ps.map fun p => (p.2, p.1.id)

end Exact

end DistributedShardMapper
