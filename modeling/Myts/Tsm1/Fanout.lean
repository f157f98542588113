import Myts.Lib.Groups

-- How the iterators for the series of a tag set are created.
namespace Tsm1.Fanout

variable {ε ρ ι : Type}

-- There is one filter for each series.
structure TagSet (ε : Type) where
  seriesKeys : List String
  filters : List (Option ε)
  length_eq : seriesKeys.length = filters.length

-- What is passed to `createVarRefSeriesIterator`.
structure Request (ε ρ : Type) where
  seriesKey : String
  filter : Option ε
  conditionFields : List ρ

structure Engine (ε ρ ι : Type) where
  -- `influxql.ExprNames`
  exprNames : ε → List ρ
  createVarRefSeriesIterator : Request ε ρ → Except String (Option ι)
  -- Is the query killed when the group looks after it has created the iterator of a series?
  interrupted : Nat → Nat → Bool
  maxSeriesN : Int

structure Outcome (ε ρ ι : Type) where
  requests : List (Request ε ρ)
  built : List ι
  closed : List ι
  itrs : List ι
  err : Option String

namespace Engine

variable (e : Engine ε ρ ι)

def request (key : String) (filter : Option ε) : Request ε ρ where
  seriesKey := key
  filter := filter
  conditionFields := (filter.map e.exprNames).getD []

def limitExceeded (n : Nat) : String :=
  s!"max-select-series limit exceeded: ({n}/{e.maxSeriesN})"

-- The loop of `createTagSetGroupIterators` in the group `g`.
def group (g : Nat) : Nat → List ι → List (String × Option ε) → Outcome ε ρ ι
  | _, itrs, [] => { requests := [], built := [], closed := [], itrs, err := none }
  | i, itrs, (key, filter) :: series =>
    let r := e.request key filter
    match e.createVarRefSeriesIterator r with
    | .error err => { requests := [r], built := [], closed := [], itrs, err := some err }
    | .ok none =>
      let o := group g (i + 1) itrs series
      { o with requests := r :: o.requests }
    | .ok (some itr) =>
      let itrs := itrs ++ [itr]
      if e.interrupted g i then
        { requests := [r], built := [itr], closed := itrs, itrs := [], err := "query interrupted" }
      else if 0 < e.maxSeriesN ∧ e.maxSeriesN < itrs.length then
        { requests := [r], built := [itr], closed := itrs, itrs := [],
          err := e.limitExceeded itrs.length }
      else
        let o := group g (i + 1) itrs series
        { o with requests := r :: o.requests, built := itr :: o.built }

def createTagSetGroupIterators (g : Nat) (keys : List String) (filters : List (Option ε)) :
    Outcome ε ρ ι :=
  e.group g 0 [] (keys.zip filters)

-- `procs` is the number of processors. The groups do not share anything, so that the order in which
-- they run does not matter.
def createTagSetIterators (procs : Nat) (t : TagSet ε) : Outcome ε ρ ι :=
  let parallelism := min procs t.seriesKeys.length
  let keys := Groups.cut parallelism t.seriesKeys
  let filters := Groups.cut parallelism t.filters
  let groups := (keys.zip filters).mapIdx fun g kf => e.createTagSetGroupIterators g kf.1 kf.2
  let itrs := groups.flatMap (·.itrs)
  let err := groups.foldl (fun err o => o.err.or err) none
  { requests := groups.flatMap (·.requests)
    built := groups.flatMap (·.built)
    closed := groups.flatMap (·.closed) ++ if err.isSome then itrs else []
    itrs := if err.isSome then [] else itrs
    err := err }

def requests (t : TagSet ε) : List (Request ε ρ) :=
  List.zipWith e.request t.seriesKeys t.filters

def produced (r : Request ε ρ) : Option ι :=
  (e.createVarRefSeriesIterator r).toOption.bind id

structure Correct (procs : Nat) (t : TagSet ε) : Prop where
  -- Each request is made once, unless there is an error.
  requests : (e.createTagSetIterators procs t).err = none →
    (e.createTagSetIterators procs t).requests = e.requests t
  once : (e.createTagSetIterators procs t).requests.Sublist (e.requests t)
  itrs : (e.createTagSetIterators procs t).err = none →
    (e.createTagSetIterators procs t).itrs = (e.requests t).filterMap e.produced
  limit : 0 < e.maxSeriesN → e.maxSeriesN < ((e.requests t).filterMap e.produced).length →
    (e.createTagSetIterators procs t).err ≠ none ∧
      (e.createTagSetIterators procs t).closed.Perm (e.createTagSetIterators procs t).built

def series (procs : Nat) (t : TagSet ε) : List (List (String × Option ε)) :=
  Groups.cut (min procs t.seriesKeys.length) (t.seriesKeys.zip t.filters)

-- There is an error in the group `g`, or it has too many iterators itself.
def Stops (g : Nat) (s : List (String × Option ε)) : Prop :=
  (∃ kf ∈ s, ∃ err, e.createVarRefSeriesIterator (e.request kf.1 kf.2) = .error err) ∨
  (∃ i kf, s[i]? = some kf ∧ (e.produced (e.request kf.1 kf.2)).isSome ∧ e.interrupted g i) ∨
  e.maxSeriesN < (s.filterMap fun kf => e.produced (e.request kf.1 kf.2)).length

end Engine

end Tsm1.Fanout
