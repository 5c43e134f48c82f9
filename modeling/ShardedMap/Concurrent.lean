import ShardedMap.Shard.Basic
/-
  Threads that share shards. Each worker runs batches of keyed operations one after another, and
  each operation in the phases of a shard: access, inspection, asking, resize. A phase is one step;
  between two steps of a worker any other worker may take any number of its own, so a worker may go
  on with a verdict and a slot count that are out of date. A panic ends its operation and the batch
  of it, and the worker goes on with its next batch. `Machine.run` follows a schedule, a list that
  says whose turn it is.
-/
namespace ShardedMap

variable {S : Type → Type} {H : Type} [DecidableEq H] [Storage S H] [LawfulStorage S H]

/-- A keyed operation on one shard. -/
structure Task (n : Nat) (K V R : Type) where
  shard : Fin n
  hash : UInt64
  op : Operation K V R

/-- Operations to be done one after another, up to the first panic. -/
abbrev Batch (n : Nat) (K V R : Type) := List (Task n K V R)

/-- How far a worker's current operation has come. -/
inductive Phase (n : Nat) (V R : Type) where
  /-- No operation is under way. -/
  | idle
  /-- The access is done and its report not yet inspected. -/
  | accessed (shard : Fin n) (answer : Answer V R) (report : Report)
  /-- The verdict is not normal and the policy not yet asked. -/
  | judged (shard : Fin n) (answer : Answer V R) (verdict : Verdict) (slotCount : Nat)
  /-- The policy wants a resize, which is not yet done. -/
  | granted (shard : Fin n) (answer : Answer V R) (verdict : Verdict)

/-- A thread: what is left of its batches, the first of which may be under way, and how far its
current operation has come; the answers to the batch under way and, batch by batch, those to the
batches before it, newest first in both. -/
structure Worker (n : Nat) (K V R : Type) where
  pending : List (Batch n K V R)
  phase : Phase n V R
  current : List (Except Panic (Answer V R))
  closed : List (List (Except Panic (Answer V R)))

/-- Shards and the workers on them. -/
structure Machine (n : Nat) (S : Type → Type) {H : Type} [DecidableEq H] [Storage S H]
    [LawfulStorage S H] (K V P R : Type) where
  shards : Vector (Shard S K V P) n
  workers : List (Worker n K V R)

namespace Batch

variable {n : Nat} {K V R : Type}

/-- What is left of batches once an operation of the first of them ended with `answer`. -/
def leftAfter (answer : Except Panic (Answer V R)) :
    List (Batch n K V R) → List (Batch n K V R)
  | [] => []
  | batch :: later =>
    match answer with
    | .ok _ => batch :: later
    | .error _ => [] :: later

/-- As many steps as a worker takes at most for batches: four for an operation, and one to close a
batch. -/
def stepBound (batches : List (Batch n K V R)) : Nat :=
  sumOver (fun batch => 4 * batch.length + 1) batches

end Batch

namespace Worker

variable {n : Nat} {K V P R : Type}

def start (batches : List (Batch n K V R)) : Worker n K V R := ⟨batches, .idle, [], []⟩

/-- Ends the current operation. -/
def finish (w : Worker n K V R) (answer : Except Panic (Answer V R)) : Worker n K V R :=
  { w with
    pending := Batch.leftAfter answer w.pending
    phase := .idle
    current := answer :: w.current }

/-- Closes the batch under way, of which `later` are the batches after it. -/
def close (w : Worker n K V R) (later : List (Batch n K V R)) : Worker n K V R :=
  { w with pending := later, current := [], closed := w.current :: w.closed }

/-- Takes the next step of a worker. -/
def step [BEq K] [ResizePolicy P] (w : Worker n K V R) (shards : Vector (Shard S K V P) n) :
    Worker n K V R × Vector (Shard S K V P) n :=
  match w.phase with
  | .idle =>
    match w.pending with
    | [] => (w, shards)
    | [] :: later => (w.close later, shards)
    | (task :: rest) :: later =>
      let w := { w with pending := rest :: later }
      match Shard.workOn shards task.shard (·.access task.hash task.op) with
      | (.error p, shards) => (w.finish (.error p), shards)
      | (.ok (answer, none), shards) => (w.finish (.ok answer), shards)
      | (.ok (answer, some r), shards) =>
        ({ w with phase := .accessed task.shard answer r }, shards)
  | .accessed i answer r =>
    let (verdict, shards) := Shard.workOn shards i (·.inspect r)
    if verdict = .normal then (w.finish (.ok answer), shards)
    else ({ w with phase := .judged i answer verdict r.slotCount }, shards)
  | .judged i answer verdict slotCount =>
    let (wanted, shards) := Shard.workOn shards i (·.wants verdict slotCount)
    if wanted then ({ w with phase := .granted i answer verdict }, shards)
    else (w.finish (.ok answer), shards)
  | .granted i answer verdict =>
    let (result, shards) := Shard.workOn shards i fun shard =>
      let (result, shard, _) := shard.resize verdict
      (result, shard)
    (w.finish (result.map fun () => answer), shards)

end Worker

namespace Machine

variable {n : Nat} {K V P R : Type}

/-- A machine on which no worker has begun. -/
def start (shards : Vector (Shard S K V P) n) (programs : List (List (Batch n K V R))) :
    Machine n S K V P R :=
  ⟨shards, programs.map Worker.start⟩

/-- Lets worker `t` take a step. -/
def step [BEq K] [ResizePolicy P] (m : Machine n S K V P R) (t : Nat) : Machine n S K V P R :=
  match m.workers[t]? with
  | none => m
  | some w =>
    let (w, shards) := w.step m.shards
    ⟨shards, m.workers.set t w⟩

/-- Follows a schedule. -/
def run [BEq K] [ResizePolicy P] (m : Machine n S K V P R) (schedule : List Nat) :
    Machine n S K V P R :=
  schedule.foldl step m

/-- Every worker has done all that it had to do. -/
def finished (m : Machine n S K V P R) : Prop :=
  ∀ w ∈ m.workers, w.pending = [] ∧ w.phase = .idle

/-- A schedule by which one worker after another does all that it has to do. -/
def inTurn (programs : List (List (Batch n K V R))) : List Nat :=
  programs.zipIdx.flatMap fun (batches, t) => List.replicate (Batch.stepBound batches) t

/-- The answers of each worker to the batches that it has closed, in order. -/
def answers (m : Machine n S K V P R) : List (List (List (Except Panic (Answer V R)))) :=
  m.workers.map fun w => (w.closed.map List.reverse).reverse

end Machine

end ShardedMap
