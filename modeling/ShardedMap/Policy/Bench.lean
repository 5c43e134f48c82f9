import ShardedMap.Policy.Basic
/-
  A policy tried out on slots of its own, without a shard around them: calls in any order and with
  any arguments, as threads that consult it at the same time may make them. Only `resize` reaches
  the slots, and only through the policy's plan.
-/
namespace ShardedMap

variable {S : Type → Type} {H : Type} [DecidableEq H] [Storage S H] [LawfulStorage S H]

/-- Slots, and a policy that is asked about them. -/
structure Bench (S : Type → Type) {H : Type} [DecidableEq H] [Storage S H]
    [LawfulStorage S H] (K V P : Type) where
  slots : Slots S K V
  policy : P

/-- A call on a policy. -/
inductive PolicyCall where
  /-- Tells the policy a total and a slot count. -/
  | recompute (total slotCount : Nat)
  /-- Shows the policy a slot size. -/
  | inspect (total size : Nat)
  /-- Asks whether a resize is wanted. -/
  | ask (verdict : Verdict) (slotCount : Nat)
  /-- Lets the policy plan a resize of the slots and carries the plan out. -/
  | resize (verdict : Verdict)
deriving DecidableEq

/-- What a call on a policy answers. -/
inductive PolicyAnswer where
  | recomputed
  | judged (verdict : Verdict)
  | wanted (answer : Bool)
  /-- Whether the slots count as changed. -/
  | resized (changed : Bool)
  | panicked (p : Panic)
deriving DecidableEq

namespace PolicyCall

variable {K V P : Type} [ResizePolicy P]

/-- Makes a call. -/
def run (b : Bench S K V P) : PolicyCall → PolicyAnswer × Bench S K V P
  | recompute total slotCount =>
    (.recomputed, { b with policy := ResizePolicy.recompute b.policy total slotCount })
  | inspect total size =>
    let (verdict, policy) := ResizePolicy.inspect b.policy total size
    (.judged verdict, { b with policy })
  | ask verdict slotCount =>
    let (answer, policy) := ResizePolicy.wants b.policy verdict slotCount
    (.wanted answer, { b with policy })
  | resize verdict =>
    let plan := ResizePolicy.plan b.policy verdict b.slots
    match b.slots.carryOut plan.targets with
    | (.ok (), slots, _) => (.resized plan.changed, ⟨slots, plan.next⟩)
    | (.error p, slots, _) => (.panicked p, ⟨slots, plan.next⟩)

/-- Makes calls one after another, with their answers. -/
def runAll (b : Bench S K V P) : List PolicyCall → List PolicyAnswer × Bench S K V P
  | [] => ([], b)
  | call :: rest =>
    let (answer, b) := call.run b
    let (answers, b) := runAll b rest
    (answer :: answers, b)

end PolicyCall

end ShardedMap
