import ShardedMap.Shard.Basic
import ShardedMap.Text.Display
/-
  The texts of shards and maps: what they show is occupancy, never entries.
-/
namespace ShardedMap

def Occupancy.display (o : Occupancy) : Display :=
  .record "ShardStats" [
    ("slot_count", .number o.slotCount),
    ("pair_total", .number o.pairTotal),
    ("empty_slots", .number o.emptySlots),
    ("longest_slot", .number o.longestSlot)]

/-- The text of a shard. -/
def Display.shard (o : Occupancy) : Display := .record "Shard" [("stats", o.display)]

/-- The text of a map of `size` entries, by the occupancy of its shards. -/
def Display.map (size : Nat) (shards : List Occupancy) : Display :=
  .record "ConcurrentMap" [
    ("len", .number size),
    ("shards", .list (shards.map Occupancy.display))]

end ShardedMap
