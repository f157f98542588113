import Myts.Lib.Search
import Myts.Lib.Series

-- The operations on values of one series.
namespace Tsm1.Values

variable {τ α : Type} [LinearOrder τ]

-- The loop that keeps the last one of values with the same time.
def compact : Series τ α → Series τ α
  | [] => []
  | v :: vs => go v vs
where
  go (v : τ × α) : Series τ α → Series τ α
    | [] => [v]
    | w :: vs => if w.1 ≠ v.1 then v :: go w vs else go w vs

-- `sort.Stable` keeps the order of values with the same time.
def deduplicate (a : Series τ α) : Series τ α :=
  if a.IsChain (·.1 < ·.1) then a else compact (a.insertionSort (·.1 ≤ ·.1))

def search (a : Series τ α) (t : τ) : Nat :=
  Search.search a.length fun i => a[i]?.any (t ≤ ·.1)

-- There is no range if all values are outside of it, provided that they are in order.
def findRange (a : Series τ α) (min max : τ) : Option (Nat × Nat) :=
  match a.head?, a.getLast? with
  | some first, some last =>
    if max < min ∨ last.1 < min ∨ max < first.1 then none else some (search a min, search a max)
  | _, _ => none

-- The position behind the values that are not after `max`.
def rangeEnd (a : Series τ α) (max : τ) (rmax : Nat) : Nat :=
  if (a[rmax]?.map (·.1)) = some max then rmax + 1 else rmax

def exclude (a : Series τ α) (min max : τ) : Series τ α :=
  match findRange a min max with
  | none => a
  | some (rmin, rmax) => a.take rmin ++ a.drop (rangeEnd a max rmax)

def includeRange (a : Series τ α) (min max : τ) : Series τ α :=
  match findRange a min max with
  | none => []
  | some (rmin, rmax) => (a.take (rangeEnd a max rmax)).drop rmin

-- The loop that takes the smaller first value of two slices. At the same time, the value of the
-- second slice is the one that is kept.
def mergeLoop : Series τ α → Series τ α → Series τ α
  | [] => id
  | v :: a => go v a (mergeLoop a)
where
  go (v : τ × α) (a : Series τ α) (next : Series τ α → Series τ α) : Series τ α → Series τ α
    | [] => v :: a
    | w :: b =>
      if v.1 < w.1 then v :: next (w :: b)
      else if v.1 = w.1 then next (w :: b)
      else w :: go v a next b

def merge (a b : Series τ α) : Series τ α :=
  if a = [] then
    b
  else if b = [] then
    a
  else
    let a := deduplicate a
    let b := deduplicate b
    match a.getLast?, b.head?, b.getLast?, a.head? with
    | some aLast, some bFirst, some bLast, some aFirst =>
      if aLast.1 < bFirst.1 then a ++ b
      else if bLast.1 < aFirst.1 then b ++ a
      else mergeLoop a b
    | _, _, _, _ => mergeLoop a b

end Tsm1.Values
