import Myts.Lib.Bytes
import Myts.Lib.Pipe
import Myts.Meta.Rebalance

namespace Restore

-- `BackupShard` as its caller sees it: what it writes to the pipe, and the error that it ends with
-- if the pipe takes everything.
structure Backup where
  writes : List Bytes
  err : Option String

-- `RestoreShard` as its caller sees it: how much it has read when it returns, and its error.
structure Load where
  read : Nat
  err : Option String

structure Transfer where
  fromNode : Bool
  stream : Bool
  shard : Bool
  backup : Backup
  sent : Nat → Bool
  -- The number of messages after which `Recv` returns an error other than the end of the stream.
  recvFails : Option Nat

structure ShardRestoreResponse where
  success : Bool
  message : String
deriving DecidableEq

namespace Backup

def reads (b : Backup) : List Bytes :=
  b.writes.flatMap (Pipe.reads 4096)

def written (b : Backup) : Bytes :=
  b.writes.flatten

end Backup

-- The loop of `ShardBackup` ends with the first read that gets nothing. The error of `Send` is not
-- looked at.
def sendLoop (sent : Nat → Bool) : Nat → List Bytes → List Bytes
  | _, [] => []
  | i, b :: rest =>
    if b = [] then
      []
    else if sent i then
      b :: sendLoop sent (i + 1) rest
    else
      sendLoop sent (i + 1) rest

-- The goroutine of `ShardRestore` closes its pipe at the end of the stream and after an error alike.
def recvLoop : Option Nat → List Bytes → List Bytes
  | some 0, _ => []
  | _, [] => []
  | none, b :: rest => b :: recvLoop none rest
  | some (n + 1), b :: rest => b :: recvLoop (some n) rest

namespace Transfer

-- The blocks that are written to the pipe of `RestoreShard`. Without the shard the stream ends with
-- an error.
def received (t : Transfer) : List Bytes :=
  if t.shard then recvLoop t.recvFails (sendLoop t.sent 0 t.backup.reads) else []

def arrived (t : Transfer) : Bytes :=
  t.received.flatten

end Transfer

-- Without a node or a stream a nil pointer is followed.
def shardRestore (restoreShard : Bytes → Load) (t : Transfer) :
    Option (ShardRestoreResponse × Option String) :=
  if t.fromNode ∧ t.stream then
    match (restoreShard t.arrived).err with
    | none     => some ({ success := true, message := "" }, none)
    | some err => some ({ success := false, message := err }, some err)
  else
    none

-- What `store.restoreShard` appends to the log: the new owner becomes readable.
def store (shardID node : UInt64) : Option (ShardRestoreResponse × Option String) → Option Meta.Entry
  | some (resp, none) => if resp.success then some (.setStatus shardID node) else none
  | _ => none

def Succeeds (restoreShard : Bytes → Load) (t : Transfer) : Prop :=
  ∃ resp, shardRestore restoreShard t = some (resp, none) ∧ resp.success

namespace Transfer

-- `BackupShard` gets an error if it writes after the loop of `ShardBackup` has ended.
def Finished (t : Transfer) : Prop :=
  t.shard ∧ t.backup.err = none ∧ (t.backup.writes.dropWhile (!·.isEmpty)).tail = []

def given (restoreShard : Bytes → Load) (t : Transfer) : Bytes :=
  t.arrived.take (restoreShard t.arrived).read

def Complete (restoreShard : Bytes → Load) (t : Transfer) : Prop :=
  t.Finished ∧ t.given restoreShard = t.backup.written

def messages (t : Transfer) : List Bytes :=
  t.backup.reads.takeWhile (!·.isEmpty)

structure Undisturbed (t : Transfer) : Prop where
  finished : t.Finished
  sent : ∀ i < t.messages.length, t.sent i
  recv : ∀ n ∈ t.recvFails, t.messages.length ≤ n

structure Faultless (restoreShard : Bytes → Load) (t : Transfer) : Prop extends t.Undisturbed where
  read : t.backup.written.length ≤ (restoreShard t.backup.written).read

end Transfer

-- It does not succeed before it has read the stream to its end.
def ReadsAll (restoreShard : Bytes → Load) : Prop :=
  ∀ b, (restoreShard b).err = none → b.length ≤ (restoreShard b).read

end Restore
