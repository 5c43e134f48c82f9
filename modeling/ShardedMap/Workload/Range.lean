/-
  Ranges of numbered items for workloads of many operations of one kind: each number in the range
  gives a hash and a value by fixed rules.
-/
namespace ShardedMap

/-- One item of a range. -/
structure RangeItem where
  number : UInt64
  hash : UInt64
  value : Int64

/-- The numbers `first`, `first + stride`, ... below `stop`. -/
structure NumberRange where
  first : Nat
  stop : Nat
  stride : Nat
  /-- Added to a number to give its value. -/
  offset : Int64
  /-- Multiplied with a number to give its hash. -/
  factor : UInt64
  /-- The modulus of hashes, if they have one. -/
  modulus : Option UInt64

namespace NumberRange

/-- How many numbers are in the range. A range that does not advance has none. -/
def length (r : NumberRange) : Nat :=
  if r.stride = 0 then 0 else (r.stop - r.first + (r.stride - 1)) / r.stride

def item (r : NumberRange) (i : Nat) : RangeItem :=
  let number := UInt64.ofNat (r.first + i * r.stride)
  let hash := number * r.factor
  ⟨number, (match r.modulus with | none => hash | some m => hash % m), number.toInt64 + r.offset⟩

def items (r : NumberRange) : List RangeItem := (List.range r.length).map r.item

end NumberRange

end ShardedMap
