import ShardedMap.Policy.Basic
/-
  Policies that follow a script instead of evidence. A `ScriptedPolicy` has fixed bounds for its
  verdicts, a fixed gate and a fixed rule for the slot count; a `SeriesPolicy` goes through the same
  slot counts after every change. Neither keeps any state, so what a shard asks of it and does for
  it can be read off the shard's policy events alone.
-/
namespace ShardedMap

/-- For which verdicts a scripted policy wants a resize. -/
inductive ScriptedGate where
  | never
  | always
  | only (verdict : Verdict)
deriving DecidableEq

/-- A policy by script, for the shard numbered `shard`. -/
structure ScriptedPolicy where
  shard : Nat
  /-- Slots from this size on are overweight. -/
  overAt : Option Nat
  /-- Other slots up to this size are underweight. -/
  underAt : Option Nat
  gate : ScriptedGate
  /-- A resize leads to `slotCount * multiplier / divisor` slots, and at least to `least`. -/
  multiplier : Nat
  divisor : Nat
  least : Nat
  /-- Whether a plan resizes at all. -/
  resizes : Bool
  /-- Whether a plan counts as a change. -/
  claims : Bool
deriving DecidableEq

namespace ScriptedPolicy

def judge (p : ScriptedPolicy) (size : Nat) : Verdict :=
  if p.overAt.any (· ≤ size) then .overweight
  else if p.underAt.any (size ≤ ·) then .underweight
  else .normal

def opens (p : ScriptedPolicy) (v : Verdict) : Bool :=
  match p.gate with
  | .never => false
  | .always => true
  | .only verdict => v = verdict

def target (p : ScriptedPolicy) (slotCount : Nat) : Nat :=
  max (slotCount * p.multiplier / p.divisor) p.least

instance : ResizePolicy ScriptedPolicy where
  recompute p _ _ := p
  inspect p _ size := (p.judge size, p)
  wants p v _ := (p.opens v, p)
  plan p _ slots := ⟨if p.resizes then [p.target slots.size] else [], p.claims, p⟩

end ScriptedPolicy

/-- A policy that resizes after every change of an entry, to `targets` one after another. -/
structure SeriesPolicy where
  targets : List Nat
deriving DecidableEq

instance : ResizePolicy SeriesPolicy where
  recompute p _ _ := p
  inspect p _ _ := (.overweight, p)
  wants p _ _ := (true, p)
  plan p _ _ := ⟨p.targets, true, p⟩

end ShardedMap
