import ShardedMap.Slots.Basic
/-
  Resize policies. A shard tells its policy the size of every slot that it changed; the policy
  answers with a verdict and keeps evidence. On a verdict that is not normal the shard asks whether
  a resize is wanted, and if so lets the policy plan one. A plan only names slot counts: the shard
  carries it out, so no policy touches an entry.
-/
namespace ShardedMap

variable {S : Type → Type} {H : Type} [DecidableEq H] [Storage S H] [LawfulStorage S H]

/-- What a policy makes of the size of a slot. -/
inductive Verdict where
  | normal
  | underweight
  | overweight
deriving DecidableEq

/-- What a policy decided: the slot counts to resize to, one after another, whether the slots count
as changed by that, and the policy afterwards. -/
structure Plan (P : Type) where
  targets : List Nat
  changed : Bool
  next : P

/-- A way to decide when and how far a shard is resized. Each call may change the policy, and each
call returns: a policy panics in no other way than by planning a resize to no slots, on which the
shard panics when it carries the plan out. -/
class ResizePolicy (P : Type) where
  /-- Learns that the shard holds `total` entries in `slotCount` slots. -/
  recompute : P → (total slotCount : Nat) → P
  /-- Judges a slot of `size` entries in a shard of `total`. -/
  inspect : P → (total size : Nat) → Verdict × P
  /-- Whether a resize on this verdict would go ahead in a shard of `slotCount` slots. -/
  wants : P → Verdict → (slotCount : Nat) → Bool × P
  /-- Decides on a resize of these slots on this verdict. -/
  plan {S : Type → Type} {H : Type} [DecidableEq H] [Storage S H] [LawfulStorage S H] {K V : Type} :
    P → Verdict → Slots S K V → Plan P

/-- One thing that happened between a shard and its policy. -/
inductive PolicyEvent where
  /-- The policy learned the total and the slot count. -/
  | recomputed (total slotCount : Nat)
  /-- The policy judged a slot of `size` entries in a shard of `total`. -/
  | inspected (total size : Nat)
  /-- The policy was asked whether it wants a resize. -/
  | asked (verdict : Verdict) (slotCount : Nat)
  /-- The policy was asked for a plan. -/
  | planned (verdict : Verdict) (slotCount : Nat)
  /-- The shard carried out one target of a plan: `moved` entries, into `slotCount` slots. -/
  | resized (moved slotCount : Nat)
deriving DecidableEq

/-- Resizes to each target of a plan in turn, up to one that cannot be carried out, with what
happened. -/
def Slots.carryOut {K V : Type} (slots : Slots S K V) :
    List Nat → Except Panic Unit × Slots S K V × List PolicyEvent
  | [] => (.ok (), slots, [])
  | target :: rest =>
    match slots.resize target with
    | (.error p, slots) => (.error p, slots, [])
    | (.ok moved, slots) =>
      let (result, after, events) := carryOut slots rest
      (result, after, .resized moved slots.size :: events)

end ShardedMap
