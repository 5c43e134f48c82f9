/-
  How an operation stops short of an answer. A refusal (`InsertError`, `ConfigError`) is a value
  that the caller handles; a `Panic` unwinds the operation and reaches the caller as a text.
-/
namespace ShardedMap

/-- Why an operation unwound instead of answering. -/
inductive Panic where
  /-- A shard was to be made with no slot. -/
  | shardWithoutSlots
  /-- A hash was to be placed among no slots. -/
  | noSlots
  /-- A slot array was to be resized to no slot. -/
  | resizeToZero
  /-- A thread entered a shard that it had not left. -/
  | reentry
  /-- An entry left a shard whose total was already zero. -/
  | totalUnderflow
  /-- A resize found `before` entries, moved `moved` of them and ended with `placed`. -/
  | unevenResize (before moved placed : Nat)
  /-- A drain ended with entries left in the chain. -/
  | chainNotDrained
  /-- A slot was asked for by an index past the end of the array. -/
  | slotOutOfRange (count index : Nat)
  /-- A caller's closure gave up with this text. -/
  | raised (text : String)
deriving DecidableEq

/-- The text that reaches the caller. -/
def Panic.message : Panic → String
  | shardWithoutSlots => "a shard needs at least one slot"
  | noSlots => "assertion failed: slot_count > 0"
  | resizeToZero => "cannot rehome into zero slots"
  | reentry =>
    "reentrancy detected: nested entry into a shard from a thread holding its lock"
  | totalUnderflow => "shard pair total underflow"
  | unevenResize before moved placed =>
    s!"rehome lost or duplicated entries: {before} before, {moved} moved, {placed} placed"
  | chainNotDrained => "assertion failed: self.arena.is_empty()"
  | slotOutOfRange count index =>
    s!"index out of bounds: the len is {count} but the index is {index}"
  | raised text => text

/-- Why an insertion that must not overwrite was refused. -/
inductive InsertError where
  /-- An entry with an equal key is stored. -/
  | duplicateKey
deriving DecidableEq

/-- The text of a refused insertion. -/
def InsertError.message : InsertError → String
  | duplicateKey => "key is already present"

end ShardedMap
