import Myts.Tsm1.Reader

-- The blocks of a file one after the other.
namespace Tsm1

structure BlockIterator where
  i : Nat
  n : Nat
  key : Bytes
  typ : UInt8
  entries : List IndexEntry
  err : Option String

namespace BlockIterator

variable (d : IndirectIndex)

def new : BlockIterator :=
  { i := 0, n := d.keyCount, key := [], typ := 0, entries := [], err := none }

def peekNext (b : BlockIterator) : Go (Option Bytes) :=
  if 1 < b.entries.length then
    return b.key
  else if 1 < b.n - b.i then
    return (← d.keyAt (b.i + 1)).map (·.1)
  else
    return none

-- The first block of the next key.
def nextKey (b : BlockIterator) : Go (Bool × BlockIterator) := do
  let x := (← d.key b.i).getD { key := [], type := 0, entries := [] }
  let b := { b with i := b.i + 1, key := x.key, typ := x.type, entries := x.entries }
  if b.n ≠ d.keyCount then
    return (false, { b with err := some "delete during iteration" })
  else
    return (b.entries ≠ [], b)

def next (b : BlockIterator) : Go (Bool × BlockIterator) :=
  if b.err.isSome ∨ b.n - b.i = 0 ∧ b.entries = [] then
    return (false, b)
  else
    let b := { b with entries := b.entries.tail }
    if b.entries ≠ [] then
      return (true, b)
    else if 0 < b.n - b.i then
      b.nextKey d
    else
      return (false, b)

-- What is known at a block, and what the next key is said to be.
structure Visit where
  key : Bytes
  typ : UInt8
  entry : IndexEntry
  peeked : Option Bytes

-- The loop of a reader that looks ahead at each block, with the iterator that it leaves.
def drain : (fuel : Nat) → BlockIterator → Go (List Visit × BlockIterator)
  | 0, b => return ([], b)
  | fuel + 1, b => do
    let (more, b) ← b.next d
    if more then
      let entry ← Go.deref b.entries.head?
      let peeked ← b.peekNext d
      let (vs, b') ← drain fuel b
      return ({ key := b.key, typ := b.typ, entry, peeked } :: vs, b')
    else
      return ([], b)

end BlockIterator

end Tsm1
