import ShardedMap.Chain.Script
import ShardedMap.Key
import ShardedMap.Workload.Range
/-
  Workloads on one chain of signed 64-bit values: single operations, and batches over a range.
-/
namespace ShardedMap

/-- A step on one chain. -/
inductive ChainStep (caseless : Bool) where
  | op (single : ChainOp (Key caseless) Int64)
  /-- Stores every item of a range. -/
  | fill (range : NumberRange)
  /-- Takes every item of a range out. -/
  | unfill (range : NumberRange)

/-- What a step on a chain answers. -/
inductive ChainReply (caseless : Bool) where
  | answer (a : ChainAnswer (Key caseless) Int64)
  /-- How many values were replaced, or how many entries were there. -/
  | count (n : Nat)

namespace ChainStep

variable {caseless : Bool}

/-- Stores every item of a range, counting the values replaced. -/
def fillChain (items : List RangeItem) (c : Chain Arena (Key caseless) Int64) :
    Nat × Chain Arena (Key caseless) Int64 :=
  items.foldl (fun (n, c) item =>
    match c.insert ⟨.number item.number, item.hash, item.value⟩ with
    | (some _, c) => (n + 1, c)
    | (none, c) => (n, c)) (0, c)

/-- Takes every item of a range out, counting those that were there. -/
def unfillChain (items : List RangeItem) (c : Chain Arena (Key caseless) Int64) :
    Nat × Chain Arena (Key caseless) Int64 :=
  items.foldl (fun (n, c) item =>
    match c.remove item.hash (.number item.number) with
    | (some _, c) => (n + 1, c)
    | (none, c) => (n, c)) (0, c)

/-- Carries out a step. -/
def run (c : Chain Arena (Key caseless) Int64) :
    ChainStep caseless → ChainReply caseless × Chain Arena (Key caseless) Int64
  | op single =>
    let (answer, c) := single.run c
    (.answer answer, c)
  | fill range =>
    let (n, c) := fillChain range.items c
    (.count n, c)
  | unfill range =>
    let (n, c) := unfillChain range.items c
    (.count n, c)

/-- Carries steps out one after another, with a view of the chain after each. -/
def runAll {α : Type} (view : Chain Arena (Key caseless) Int64 → α) :
    Chain Arena (Key caseless) Int64 → List (ChainStep caseless) → List (ChainReply caseless × α)
  | _, [] => []
  | c, step :: rest =>
    let (reply, c) := step.run c
    (reply, view c) :: runAll view c rest

end ChainStep

end ShardedMap
