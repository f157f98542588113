import Myts.Lib.Answers
import Myts.Lib.Fifo
import Myts.Hh.Segment

-- What a segment is for: a queue of entries in a limited space, of which the first one can be read
-- and taken out.
namespace Hh.Cursor

open Segment (Call Answer)

-- Each entry takes its length and the number that says so, and there is always a footer.
def used (f : Fifo Bytes) : Nat :=
  (f.accepted.map (·.length + 8)).sum + 8

def call (maxSize : Int64) (f : Fifo Bytes) : Call → Answer × Fifo Bytes
  | .append b =>
    if used f + b.length > maxSize.toInt then (.error .segmentFull, f) else (.ok none, f.push b)
  | .current => (f.pending.head?.elim (.error .eof) fun b => .ok (some b), f)
  | .advance => (if f.pending.drop 1 = [] then .error .eof else .ok none, f.drop 1)
  | .reopen => (.ok none, f)

end Hh.Cursor
