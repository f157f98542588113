import Myts.Lib.Shards
import Myts.Tsm1.Cache

-- The hash ring that keeps the entries of the cache.
namespace Tsm1

abbrev Partition := Store

namespace Partition

def entry (p : Partition) (key : Bytes) : Option Entry :=
  p.lookup key

-- `ks` is the order in which the loop comes to the keys.
def keys (p : Partition) (ks : List Bytes) : List Bytes :=
  ks.filter fun k => p.values k ≠ []

end Partition

structure Ring where
  keysHint : Int64
  partitions : List Partition
deriving DecidableEq

namespace Ring

-- The constant `partitions`.
def maxPartitions : Nat := 4096

def newring (n : Int) : Except String Ring :=
  if n ≤ 0 ∨ maxPartitions < n then
    .error s!"invalid number of paritions: {n}"
  else
    .ok { keysHint := 0, partitions := List.replicate n.toNat ∅ }

section

-- `xxhash.Sum64`
variable (sum64 : Bytes → UInt64)

def index (key : Bytes) : Nat :=
  (sum64 key).toNat % maxPartitions

def getPartition (r : Ring) (key : Bytes) : Go Partition :=
  Go.deref r.partitions[index sum64 key]?

-- The partitions are changed in their place.
def putPartition (r : Ring) (key : Bytes) (p : Partition) : Ring :=
  { r with partitions := r.partitions.set (index sum64 key) p }

def entry (r : Ring) (key : Bytes) : Go (Option Entry) := do
  let p ← r.getPartition sum64 key
  return p.entry key

def write (r : Ring) (key : Bytes) (values : Values) : Go (Ring × Except CacheError Bool) := do
  let p ← r.getPartition sum64 key
  match p.write key values with
  | .error e => return (r, .error e)
  | .ok (newKey, p) => return (r.putPartition sum64 key p, .ok newKey)

def add (r : Ring) (key : Bytes) (entry : Entry) : Go Ring := do
  let p ← r.getPartition sum64 key
  let r := r.putPartition sum64 key (p.insert key entry)
  return { r with keysHint := r.keysHint + 1 }

def remove (r : Ring) (key : Bytes) : Go Ring := do
  let p ← r.getPartition sum64 key
  let r := r.putPartition sum64 key (p.erase key)
  return { r with keysHint := if 0 < r.keysHint then r.keysHint - 1 else r.keysHint }

end

-- `s` is `bytesutil.Sort`, and `orders` are the orders in which the loops over the partitions come to
-- their keys. A slice can not have a negative capacity.
def keys (s : Bytes.Sorter) (r : Ring) (orders : List (List Bytes)) (sorted : Bool) :
    Go (List Bytes) :=
  if r.keysHint < 0 then
    Go.panic
  else
    let keys := (List.zipWith Partition.keys r.partitions orders).flatten
    return if sorted then s.sort keys else keys

inductive Op
  | entry (key : Bytes)
  | write (key : Bytes) (values : Values)
  | add (key : Bytes) (entry : Entry)
  | remove (key : Bytes)
  | keys (orders : List (List Bytes)) (sorted : Bool)

inductive Result
  | entry (e : Option Entry)
  | written (newKey : Except CacheError Bool)
  | done
  | keys (ks : List Bytes)

def step (sum64 : Bytes → UInt64) (s : Bytes.Sorter) (r : Ring) : Op → Go (Ring × Result)
  | .entry key => return (r, .entry (← r.entry sum64 key))
  | .write key values => return (← r.write sum64 key values).map id .written
  | .add key e => return (← r.add sum64 key e, .done)
  | .remove key => return (← r.remove sum64 key, .done)
  | .keys orders sorted => return (r, .keys (← r.keys s orders sorted))

-- The orders are those of loops over the partitions.
def Possible (r : Ring) : Op → Prop
  | .keys orders _ => List.Forall₂ GoMap.Visits r.partitions orders
  | _ => True

end Ring

-- What the operations do and return if there is one finite map.
namespace Store

def apply (m : Store) : Ring.Op → Store
  | .write key values =>
    match m.write key values with
    | .ok (_, m') => m'
    | .error _ => m
  | .add key e => m.insert key e
  | .remove key => m.erase key
  | _ => m

-- The keys of entries without values are not listed.
structure Lists (m : Store) (sorted : Bool) (ks : List Bytes) : Prop where
  nodup : ks.Nodup
  mem_iff : ∀ k, k ∈ ks ↔ m.values k ≠ []
  ordered : sorted → ks.Pairwise (· < ·)

def Answers (m : Store) : Ring.Op → Ring.Result → Prop
  | .entry key, .entry e => e = m.lookup key
  | .write key values, .written newKey => newKey = (m.write key values).map Prod.fst
  | .add _ _, .done => True
  | .remove _, .done => True
  | .keys _ sorted, .keys ks => m.Lists sorted ks
  | _, _ => False

end Store

-- The ring does not panic and returns what the map returns, in any sequence of operations.
def Ring.BehavesAs (sum64 : Bytes → UInt64) (s : Bytes.Sorter) (r : Ring) (m : Store) :
    List Ring.Op → Prop
  | [] => True
  | op :: ops => r.Possible op →
    ∃ r' result, r.step sum64 s op = .ok (r', result) ∧ m.Answers op result ∧
      r'.BehavesAs sum64 s (m.apply op) ops

end Tsm1
