import Myts.Hh.History

namespace Hh

-- What the processor uses of the package `models`.
structure Models (Point : Type) where
  string : Point → Bytes
  parsePoints : Bytes → Option (List Point)

inductive UnmarshalError
  | tooShort (len : Nat)
  | badPoints

section

variable (models : Models Point)

def marshalWrite (shardID : Nat) (points : List Point) : Bytes :=
  Bytes.putUint64 shardID ++ points.flatMap fun p => models.string p ++ [10]

def unmarshalWrite (b : Bytes) : Except UnmarshalError (Nat × List Point) :=
  if b.length < 8 then
    .error <| .tooShort b.length
  else
    match models.parsePoints (b.drop 8) with
    | none => .error .badPoints
    | some points => .ok (Bytes.uint64 (b.take 8), points)

end

-- Where the sender is in its call of `SendWrite`.
inductive Phase
  | idle
  | active
  | read (buf : Bytes)
  -- The block is to be advanced past: it has been written to the node, or it can not be parsed.
  | done (buf : Bytes)
deriving DecidableEq

-- The processor of a node while it is open, along with the blocks that it is done with.
structure NodeProcessor where
  history : History
  phase : Phase
  delivered : List Bytes

-- The steps of the writers and of the sender. All of them hold the lock of the processor as
-- readers, so they interleave freely; each takes the locks of the queue once.
inductive NodeProcessor.Event (Point : Type)
  | writeShard (shardID : Nat) (points : List Point)
  -- The answer to `DataNode`: an error, or whether there is such a node.
  | dataNode (answer : Option Bool)
  | current
  -- The answer of the remote node to `WriteShard`, where `true` stands for no error.
  | remote (answer : Bool)
  | advance

namespace NodeProcessor

def «open» (maxSize : Int64) : NodeProcessor where
  history := { queue := after Queue.open (.newQueue [] maxSize), accepted := [], gone := [] }
  phase := .idle
  delivered := []

variable (models : Models Point)

def writeShard (n : NodeProcessor) (shardID : Nat) (points : List Point) : NodeProcessor :=
  { n with history := n.history.step <| .append <| marshalWrite models shardID points }

-- The sender only takes the step that is next in `SendWrite`.
def step (n : NodeProcessor) : Event Point → NodeProcessor
  | .writeShard shardID points => n.writeShard models shardID points
  | .dataNode answer =>
    match n.phase, answer with
    | .idle, some true => { n with phase := .active }
    | _, _ => n
  | .current =>
    match n.phase with
    | .active =>
      let phase := n.history.queue.current?.elim .idle .read
      { n with history := n.history.step .current, phase }
    | _ => n
  | .remote answer =>
    match n.phase with
    | .read buf =>
      match unmarshalWrite models buf with
      | .error _ => { n with phase := .done buf, delivered := n.delivered ++ [buf] }
      | .ok _ =>
        if answer then
          { n with phase := .done buf, delivered := n.delivered ++ [buf] }
        else
          { n with phase := .idle }
    | _ => n
  | .advance =>
    match n.phase with
    | .done _ => { n with history := n.history.step .advance, phase := .idle }
    | _ => n

end NodeProcessor
end Hh
