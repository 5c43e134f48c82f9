import ShardedMap.Policy.Basic
/-
  The stock policy. A slot is overweight from a threshold on, which is the average slot size (at
  least `minAverage`) scaled by a load factor, or above a fixed cap. Once more than a quarter of the
  slots were judged overweight since the last resize, the slot count doubles; in a shard of at least
  `underweightMinSlots` slots it also doubles once at least a quarter were seen empty.
-/
namespace ShardedMap

/-- A load factor, kept as the bits of a binary64 number so that two of them are the same exactly
when their bits are. -/
structure LoadFactor where
  bits : UInt64
deriving DecidableEq

namespace LoadFactor

def value (f : LoadFactor) : Float := Float.ofBits f.bits

/-- Three quarters. -/
def standard : LoadFactor := ⟨0x3fe8000000000000⟩

end LoadFactor

/-- What a policy is made for. -/
structure PolicySettings where
  loadFactor : LoadFactor
  slotCount : Nat
  maxSlotSize : Nat
deriving DecidableEq

/-- The stock policy and its evidence: how many slots it judged overweight and how many it saw empty
since it last decided on a resize. -/
structure LoadPolicy where
  loadFactor : LoadFactor
  maxSlotSize : Nat
  threshold : UInt64
  overweight : UInt64
  empty : UInt64
deriving DecidableEq

namespace LoadPolicy

/-- The size above which a slot is overweight whatever the load factor. -/
def defaultMaxSlotSize : Nat := 1000

/-- The least average slot size that the threshold is computed from. -/
def minAverage : UInt64 := 100

/-- The least slot count of a shard that is resized for empty slots. -/
def underweightMinSlots : Nat := 100

/-- The least slot count that a resize for empty slots leads to. -/
def minSlotCount : Nat := 2

/-- The slot count of a shard for which none is given. -/
def defaultSlotCount : Nat := 16

/-- The greatest 64-bit word, at which products stop growing. -/
def maxWord : Nat := 18446744073709551615

/-- The average slot size, not below `minAverage`. No slots have the average zero. -/
def average (total slotCount : Nat) : UInt64 :=
  max (UInt64.ofNatClamp (total / slotCount)) minAverage

/-- The average scaled by a load factor, rounded toward zero and not below one. -/
def thresholdFor (f : LoadFactor) (total slotCount : Nat) : UInt64 :=
  max ((average total slotCount).toFloat * f.value).toUInt64 1

/-- A load factor is usable if it scales the least average to one or more. -/
def usable (f : LoadFactor) : Bool :=
  decide ((1 : UInt64).toFloat ≤ minAverage.toFloat * f.value)

/-- The policy learns the total and slot count of its shard. -/
def learn (p : LoadPolicy) (total slotCount : Nat) : LoadPolicy :=
  { p with threshold := thresholdFor p.loadFactor total slotCount }

/-- A policy without evidence. A load factor that is not usable is replaced by the standard one. -/
def ofSettings (s : PolicySettings) : LoadPolicy :=
  let loadFactor := if usable s.loadFactor then s.loadFactor else .standard
  learn ⟨loadFactor, s.maxSlotSize, 0, 0, 0⟩ 0 s.slotCount

/-- Judges a slot size and counts the judgement. An overweight slot is not counted as empty. -/
def judge (p : LoadPolicy) (size : Nat) : Verdict × LoadPolicy :=
  if p.maxSlotSize < size ∨ p.threshold.toNat ≤ size then
    (.overweight, { p with overweight := p.overweight + 1 })
  else if size = 0 then (.normal, { p with empty := p.empty + 1 })
  else (.normal, p)

/-- Four times a count, at most `maxWord`. -/
def fourfold (count : UInt64) : Nat := min (count.toNat * 4) maxWord

/-- Whether the evidence is enough for a resize. -/
def ready (p : LoadPolicy) (v : Verdict) (slotCount : Nat) : Bool :=
  match v with
  | .overweight => slotCount < fourfold p.overweight
  | .underweight => underweightMinSlots ≤ slotCount && slotCount ≤ fourfold p.empty
  | .normal => false

/-- The slot count to resize to. -/
def target (v : Verdict) (slotCount : Nat) : Nat :=
  match v with
  | .overweight => min (slotCount * 2) maxWord
  | .underweight => max (min (slotCount * 2) maxWord) minSlotCount
  | .normal => slotCount

/-- The policy without its evidence. -/
def forget (p : LoadPolicy) : LoadPolicy := { p with overweight := 0, empty := 0 }

/-- Decides on a resize of `slotCount` slots. A decision uses the evidence up, also one to stay. -/
def decidePlan (p : LoadPolicy) (v : Verdict) (slotCount : Nat) : Plan LoadPolicy :=
  if p.ready v slotCount then
    if target v slotCount = slotCount then ⟨[], false, p.forget⟩
    else ⟨[target v slotCount], true, p.forget⟩
  else ⟨[], false, p⟩

instance : ResizePolicy LoadPolicy where
  recompute := learn
  inspect p _ size := p.judge size
  wants p v slotCount := (p.ready v slotCount, p)
  plan p v slots := p.decidePlan v slots.size

/-- The settings of a policy for which none are given. -/
def defaultSettings : PolicySettings := ⟨.standard, defaultSlotCount, defaultMaxSlotSize⟩

end LoadPolicy

end ShardedMap
