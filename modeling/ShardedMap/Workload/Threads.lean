import ShardedMap.Concurrent
import ShardedMap.Workload.Steps
/-
  Workloads of several threads on one map. A thread of keyed operations and batches of them is a
  worker of a `Machine`, with a batch for each step; if a step of any thread is of another kind, the
  threads run as sessions. Either way one thread runs after another.
-/
namespace ShardedMap

namespace Step

variable {caseless : Bool} {n : Nat} {P : Type}

/-- The operations that a step consists of, if it is a keyed operation or a batch. -/
def operations : Step caseless → Option (List (UInt64 × KeyedOp caseless P))
  | put address key value => some [(address, .put key value)]
  | insertNew address key value => some [(address, .insertNew key value)]
  | get address key => some [(address, .get key)]
  | contains address key => some [(address, .contains key)]
  | remove address key => some [(address, .remove key)]
  | delete address key => some [(address, .delete key)]
  | double address key => some [(address, .read key fun v => .value (some (v + v)))]
  | add address key amount =>
    some [(address, .update key fun v => (.value (some (v + amount)), v + amount))]
  | batch kind range => some (kind.ops range)
  | _ => none

/-- The reply to a step by the answers to its operations, up to the first panic. -/
def replyTo (step : Step caseless) (answers : List (Except Panic (KeyedAnswer caseless P))) :
    Reply caseless P :=
  match step with
  | batch kind _ => kind.summarize 0 0 answers
  | _ => (answers.head?.map Reply.ofAnswer).getD (.value none)

end Step

namespace Threads

variable {caseless : Bool} {n : Nat} {P : Type}

/-- The operations of each step of a thread, if all of its steps consist of operations. -/
def operations (steps : List (Step caseless)) :
    Option (List (List (UInt64 × KeyedOp caseless P))) :=
  steps.mapM Step.operations

/-- The task for an operation at a site. -/
def task (site : Site caseless n) (op : UInt64 × KeyedOp caseless P) :
    Task n (Key caseless) Int64 (Reply caseless P) :=
  let (shard, hash) := site.locate op.1 op.2.key
  ⟨shard, hash, op.2⟩

/-- Runs threads as workers, given the operations of their steps. -/
def runWorkers [ResizePolicy P] (site : Site caseless n)
    (shards : Vector (Shard Arena (Key caseless) Int64 P) n) (threads : List (List (Step caseless)))
    (ops : List (List (List (UInt64 × KeyedOp caseless P)))) :
    List (List (Reply caseless P)) × Vector (Shard Arena (Key caseless) Int64 P) n :=
  let programs := ops.map fun thread => thread.map fun step => step.map (task site)
  let machine := (Machine.start shards programs).run (Machine.inTurn programs)
  (threads.zipWith (List.zipWith Step.replyTo) machine.answers, machine.shards)

/-- Runs threads as sessions. -/
def runSessions [ResizePolicy P] (site : Site caseless n) :
    Vector (Shard Arena (Key caseless) Int64 P) n → List (List (Step caseless)) →
      List (List (Reply caseless P)) × Vector (Shard Arena (Key caseless) Int64 P) n
  | shards, [] => ([], shards)
  | shards, steps :: rest =>
    let (seen, s) := Step.runAll site (fun _ => ()) (.start shards .blank) steps
    let (others, shards) := runSessions site s.shards rest
    (seen.map (·.1) :: others, shards)

/-- Runs threads on the same shards, with the replies of each. -/
def run [ResizePolicy P] (site : Site caseless n)
    (shards : Vector (Shard Arena (Key caseless) Int64 P) n)
    (threads : List (List (Step caseless))) :
    List (List (Reply caseless P)) × Vector (Shard Arena (Key caseless) Int64 P) n :=
  match threads.mapM operations with
  | some ops => runWorkers site shards threads ops
  | none => runSessions site shards threads

/-- How many replies, over all threads, tell of something found or done. -/
def hits (results : List (List (Reply caseless P))) : Nat :=
  (results.flatten.filter Reply.isHit).length

end Threads

end ShardedMap
