import ShardedMap.Policy.Load
/-
  Settings of a map, and which of them are refused. A load factor is never refused: a policy that
  cannot use the one it is made with takes another.
-/
namespace ShardedMap

/-- Why a map was not built. -/
inductive ConfigError where
  | zeroShardCount
  | tooManyShards (count : Nat)
  | zeroSlotCount
  | zeroMaxSlotSize
deriving DecidableEq

/-- Construction-time settings of a map. -/
structure Settings where
  shardCount : Nat
  slotsPerShard : Nat
  loadFactor : LoadFactor
  maxSlotSize : Nat
deriving DecidableEq

namespace Settings

/-- The greatest number of shards of a map. -/
def maxShardCount : Nat := 65536

/-- The settings of a map for which none are given. -/
def standard : Settings :=
  ⟨16, LoadPolicy.defaultSlotCount, .standard, LoadPolicy.defaultMaxSlotSize⟩

/-- The first fault of the settings, in this order. -/
def fault? (s : Settings) : Option ConfigError :=
  if s.shardCount = 0 then some .zeroShardCount
  else if maxShardCount < s.shardCount then some (.tooManyShards s.shardCount)
  else if s.slotsPerShard = 0 then some .zeroSlotCount
  else if s.maxSlotSize = 0 then some .zeroMaxSlotSize
  else none

/-- What each shard's policy is made for. -/
def policySettings (s : Settings) : PolicySettings :=
  ⟨s.loadFactor, s.slotsPerShard, s.maxSlotSize⟩

theorem shardCount_pos {s : Settings} (h : s.fault? = none) : 0 < s.shardCount := by
  rw [fault?] at h
  split at h
  · cases h
  · omega

theorem slotsPerShard_pos {s : Settings} (h : s.fault? = none) : 0 < s.slotsPerShard := by
  rw [fault?] at h
  split at h
  · cases h
  · split at h
    · cases h
    · split at h
      · cases h
      · omega

end Settings

/-- The text of a refusal. -/
def ConfigError.message : ConfigError → String
  | zeroShardCount => "shard count must be at least 1"
  | tooManyShards count =>
    s!"shard count {count} exceeds the maximum of {Settings.maxShardCount}"
  | zeroSlotCount => "initial slot count per shard must be at least 1"
  | zeroMaxSlotSize => "maximum slot size must be at least 1"

end ShardedMap
