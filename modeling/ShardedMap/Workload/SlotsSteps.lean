import ShardedMap.Policy.Bench
import ShardedMap.Policy.Load
import ShardedMap.Workload.ChainSteps
/-
  Workloads on slots with a stock policy beside them. The policy learns and judges only what the
  steps tell it.
-/
namespace ShardedMap

/-- A step on slots and a policy. -/
inductive SlotsStep (caseless : Bool) where
  /-- The slot of a hash among a number of slots. -/
  | home (hash : UInt64) (count : Nat)
  /-- A step on the chain that a hash belongs to. -/
  | onHome (hash : UInt64) (step : ChainStep caseless)
  /-- A step on the chain of a numbered slot. -/
  | onSlot (slot : Nat) (step : ChainStep caseless)
  /-- Stores every item of a range in its slot. -/
  | fill (range : NumberRange)
  | lengths
  | dump
  | resize (count : Nat)
  /-- A call on the policy, made so many times. -/
  | call (call : PolicyCall) (times : Nat)

/-- What a step on slots and a policy answers. -/
inductive SlotsReply (caseless : Bool) where
  | panicked (p : Panic)
  | nothing
  | chain (r : ChainReply caseless)
  | count (n : Nat)
  | lengths (l : List (Nat × Bool))
  | dump (l : List (List (Entry (Key caseless) Int64)))
  /-- The last answer of a policy, if there was one, with its threshold. -/
  | policy (answer : Option PolicyAnswer) (threshold : UInt64)

/-- Slots and the stock policy beside them. -/
abbrev StockBench (caseless : Bool) := Bench Arena (Key caseless) Int64 LoadPolicy

namespace SlotsStep

variable {caseless : Bool}

/-- Stores every item of a range in its slot. -/
def fillSlots (slots : Slots Arena (Key caseless) Int64) :
    List RangeItem → Except Panic Unit × Slots Arena (Key caseless) Int64
  | [] => (.ok (), slots)
  | item :: rest =>
    match slots.onHome item.hash (·.insert ⟨.number item.number, item.hash, item.value⟩) with
    | (.error p, slots) => (.error p, slots)
    | (.ok _, slots) => fillSlots slots rest

/-- Makes a call so many times, with the last answer. -/
def callTimes (c : PolicyCall) (b : StockBench caseless) (last : Option PolicyAnswer) :
    Nat → Option PolicyAnswer × StockBench caseless
  | 0 => (last, b)
  | times + 1 =>
    let (answer, b) := c.run b
    callTimes c b (some answer) times

/-- Carries out a step. -/
def run (b : StockBench caseless) : SlotsStep caseless → SlotsReply caseless × StockBench caseless
  | home hash count =>
    match Slots.home? hash count with
    | .ok i => (.count i, b)
    | .error p => (.panicked p, b)
  | onHome hash step =>
    match b.slots.onHome hash (fun c => step.run c) with
    | (.ok reply, slots) => (.chain reply, { b with slots })
    | (.error p, slots) => (.panicked p, { b with slots })
  | onSlot i step =>
    match b.slots.onSlot i (fun c => step.run c) with
    | (.ok reply, slots) => (.chain reply, { b with slots })
    | (.error p, slots) => (.panicked p, { b with slots })
  | fill range =>
    match fillSlots b.slots range.items with
    | (.ok (), slots) => (.nothing, { b with slots })
    | (.error p, slots) => (.panicked p, { b with slots })
  | lengths => (.lengths (b.slots.toList.map fun c => (c.size, c.isEmpty)), b)
  | dump => (.dump (b.slots.toList.map Chain.toList), b)
  | resize count =>
    match b.slots.resize count with
    | (.ok moved, slots) => (.count moved, { b with slots })
    | (.error p, slots) => (.panicked p, { b with slots })
  | call c times =>
    let (answer, b) := callTimes c b none times
    (.policy answer b.policy.threshold, b)

/-- Carries steps out one after another, with the number of slots and the policy after each, and the
policy after all. -/
def runAll :
    StockBench caseless → List (SlotsStep caseless) →
      List (SlotsReply caseless × Nat × LoadPolicy) × LoadPolicy
  | b, [] => ([], b.policy)
  | b, step :: rest =>
    let (reply, b) := step.run b
    let (replies, last) := runAll b rest
    ((reply, b.slots.size, b.policy) :: replies, last)

end SlotsStep

end ShardedMap
