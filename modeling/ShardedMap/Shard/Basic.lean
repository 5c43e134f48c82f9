import ShardedMap.Operation
import ShardedMap.Policy.Basic
/-
  Shards: slots, the number of entries they hold, and a resize policy. A keyed operation runs in
  phases, each a function of its own because other threads may come between two of them: `access`
  works on one chain and keeps the total; if an entry came, went or was put again, `inspect` shows
  the slot's size to the policy; on a verdict that is not normal, `wants` asks for a resize; and
  `resize` carries the policy's plan out.
-/
namespace ShardedMap

variable {S : Type → Type} {H : Type} [DecidableEq H] [Storage S H] [LawfulStorage S H]

/-- An independently resizable part of a map. -/
structure Shard (S : Type → Type) {H : Type} [DecidableEq H] [Storage S H]
    [LawfulStorage S H] (K V P : Type) where
  slots : Slots S K V
  /-- The number of entries, counted as they come and go. -/
  total : Nat
  policy : P

/-- What an access leaves to be taken to the policy: the size of the slot that it worked on, the
slot count at that time, and whether an entry went. -/
structure Report where
  size : Nat
  slotCount : Nat
  removed : Bool
deriving DecidableEq

/-- How full a shard is. -/
structure Occupancy where
  slotCount : Nat
  pairTotal : Nat
  emptySlots : Nat
  longestSlot : Nat
deriving DecidableEq

/-- The occupancy of nothing. -/
def Occupancy.zero : Occupancy := ⟨0, 0, 0, 0⟩

namespace Shard

variable {K V P R : Type}

section Policy

variable [ResizePolicy P]

/-- A shard of `slotCount` empty slots, whose policy learns just that. -/
def fresh (slotCount : Nat) (policy : P) : Shard S K V P :=
  ⟨Slots.vacant slotCount, 0, ResizePolicy.recompute policy 0 slotCount⟩

/-- What the policy of a fresh shard learned. -/
def openingEvents (slotCount : Nat) : List PolicyEvent := [.recomputed 0 slotCount]

/-- A shard of `slotCount` empty slots; there must be one at least. -/
def make (slotCount : Nat) (policy : P) : Except Panic (Shard S K V P) :=
  if slotCount = 0 then .error .shardWithoutSlots else .ok (fresh slotCount policy)

end Policy

/-- The total after an operation with this effect. -/
def totalAfter (total : Nat) : Effect → Except Panic Nat
  | .added => .ok (total + 1)
  | .removed => if total = 0 then .error .totalUnderflow else .ok (total - 1)
  | .replaced | .none => .ok total

/-- What an operation with this effect leaves to be taken to the policy. -/
def reportOf (size slotCount : Nat) : Effect → Option Report
  | .added | .replaced => some ⟨size, slotCount, false⟩
  | .removed => some ⟨size, slotCount, true⟩
  | .none => none

/-- First phase of an operation: works on the chain that `hash` belongs to and keeps the total. -/
def access [BEq K] (s : Shard S K V P) (hash : UInt64) (op : Operation K V R) :
    Except Panic (Answer V R × Option Report) × Shard S K V P :=
  let act := fun chain : Chain S K V =>
    let (done, chain) := op.onChain hash chain
    ((done, chain.size), chain)
  match s.slots.onHome hash act with
  | (.error p, slots) => (.error p, { s with slots })
  | (.ok ((answer, effect), size), slots) =>
    match totalAfter s.total effect with
    | .error p => (.error p, { s with slots })
    | .ok total => (.ok (answer, reportOf size slots.size effect), { s with slots, total })

/-- The value stored for `key` under `hash`. -/
def value? [BEq K] (s : Shard S K V P) (hash : UInt64) (key : K) : Except Panic (Option V) :=
  (s.slots.chainFor hash).map fun chain => chain.get? hash key

/-- Replaces the value stored for `key` under `hash`; nothing else changes. -/
def assign [BEq K] (s : Shard S K V P) (hash : UInt64) (key : K) (value : V) : Shard S K V P :=
  { s with
    slots := (s.slots.onHome hash fun chain => chain.modify hash key fun _ => ((), value)).2 }

def occupancy (s : Shard S K V P) : Occupancy :=
  ⟨s.slots.size, s.total, s.slots.emptyCount, s.slots.longest⟩

/-- Works on shard `i` of several. -/
def workOn {n : Nat} {α : Type} (shards : Vector (Shard S K V P) n) (i : Fin n)
    (f : Shard S K V P → α × Shard S K V P) : α × Vector (Shard S K V P) n :=
  let h := shards.size_toArray.symm ▸ i.isLt
  let done := workAt shards.toArray i h (fun s => { s with slots := #[] }) f
  (done.1, ⟨done.2, (size_workAt ..).trans shards.size_toArray⟩)

theorem workOn_eq {n : Nat} {α : Type} (shards : Vector (Shard S K V P) n) (i : Fin n)
    (f : Shard S K V P → α × Shard S K V P) :
    workOn shards i f = ((f (shards.get i)).1, shards.set i (f (shards.get i)).2 i.isLt) := by
  simp only [workOn, workAt_eq]
  rfl

section Policy

variable [ResizePolicy P]

/-- Second phase: shows the slot's size to the policy. A removal that emptied its slot counts as
underweight if the policy finds nothing else. -/
def inspect (s : Shard S K V P) (r : Report) : Verdict × Shard S K V P :=
  let (verdict, policy) := ResizePolicy.inspect s.policy s.total r.size
  (if verdict = .normal ∧ r.removed ∧ r.size = 0 then .underweight else verdict,
    { s with policy })

/-- Third phase: whether the policy wants a resize, going by the slot count of the access. -/
def wants (s : Shard S K V P) (verdict : Verdict) (slotCount : Nat) : Bool × Shard S K V P :=
  let (answer, policy) := ResizePolicy.wants s.policy verdict slotCount
  (answer, { s with policy })

/-- Last phase: lets the policy plan a resize and carries the plan out. If that changed the slots,
the policy learns the total and the new slot count. -/
def resize (s : Shard S K V P) (verdict : Verdict) :
    Except Panic Unit × Shard S K V P × List PolicyEvent :=
  let plan := ResizePolicy.plan s.policy verdict s.slots
  let asked := PolicyEvent.planned verdict s.slots.size
  match s.slots.carryOut plan.targets with
  | (.error p, slots, events) => (.error p, { s with slots, policy := plan.next }, asked :: events)
  | (.ok (), slots, events) =>
    if plan.changed then
      (.ok (), { s with slots, policy := ResizePolicy.recompute plan.next s.total slots.size },
        asked :: events ++ [.recomputed s.total slots.size])
    else (.ok (), { s with slots, policy := plan.next }, asked :: events)

end Policy

end Shard

end ShardedMap
