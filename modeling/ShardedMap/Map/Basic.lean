import ShardedMap.Map.Settings
import ShardedMap.Program
import ShardedMap.Shard.Display
/-
  Maps: a hash function and a fixed number of shards. The upper half of a hash chooses the shard
  (`route`) and the whole hash the slot in it, so that the two choices do not hang on the same bits.
  Operations of a caller that holds nothing are programs run on a session of their own.
-/
namespace ShardedMap

variable {S : Type → Type} {H : Type} [DecidableEq H] [Storage S H] [LawfulStorage S H]

/-- Whether no element of a list differs from the first. -/
def alike {α : Type} [DecidableEq α] (l : List α) : Bool := l.all fun a => some a = l.head?

/-- A map from `K` to `V` whose shards resize by policies in `P`. -/
structure Map (S : Type → Type) {H : Type} [DecidableEq H] [Storage S H]
    [LawfulStorage S H] (K V P : Type) where
  hash : K → UInt64
  count : Nat
  count_pos : 0 < count
  shards : Vector (Shard S K V P) count

namespace Map

variable {K V P M R σ : Type}

/-- The shard that `hash` belongs to among `count` shards. -/
def route {count : Nat} (h : 0 < count) (hash : UInt64) : Fin count :=
  ⟨(hash >>> 32).toNat % count, Nat.mod_lt _ h⟩

/-- The shard and hash of a key. -/
def locate (m : Map S K V P) (key : K) : Fin m.count × UInt64 :=
  (route m.count_pos (m.hash key), m.hash key)

section Build

variable [ResizePolicy P]

/-- Makes `count` shards one after another, each with a policy of its own. -/
def makeShards (s : PolicySettings) (make : PolicySettings → σ → P × σ) :
    (count : Nat) → σ → Vector (Shard S K V P) count × σ
  | 0, state => (#v[], state)
  | count + 1, state =>
    let (shards, state) := makeShards s make count state
    let (policy, state) := make s state
    (shards.push (Shard.fresh s.slotCount policy), state)

/-- Builds a map, or refuses the settings. `make`, which has a state of its own, is called once for
each shard, and not at all for settings that are refused. -/
def build (settings : Settings) (hash : K → UInt64) (make : PolicySettings → σ → P × σ)
    (state : σ) : Except ConfigError (Map S K V P) × σ :=
  match h : settings.fault? with
  | some e => (.error e, state)
  | none =>
    let (shards, state) := makeShards settings.policySettings make settings.shardCount state
    (.ok ⟨hash, settings.shardCount, Settings.shardCount_pos h, shards⟩, state)

/-- What the policies of a map learned while it was built. -/
def openingEvents (settings : Settings) : List (Fin settings.shardCount × PolicyEvent) :=
  (List.finRange settings.shardCount).flatMap fun i =>
    (Shard.openingEvents settings.slotsPerShard).map fun e => (i, e)

end Build

/-- A map with the stock policy. -/
def buildStock (settings : Settings) (hash : K → UInt64) :
    Except ConfigError (Map S K V LoadPolicy) :=
  (build settings hash (fun s () => (LoadPolicy.ofSettings s, ())) ()).1

/-- A session of a thread that has entered no shard of `m`. -/
def session (m : Map S K V P) (memory : M) : Session m.count S K V P M := .start m.shards memory

/-- Runs a program of a thread that has entered no shard. -/
def run [BEq K] [ResizePolicy P] (m : Map S K V P) (program : Program Unit m.count K V P M R)
    (memory : M) : Except Panic R × M × Map S K V P :=
  let (result, s) := program.run (fun _ key => m.locate key) (m.session memory)
  (result, s.memory, { m with shards := s.shards })

/-- Runs one keyed operation. -/
def perform [BEq K] [ResizePolicy P] (m : Map S K V P) (op : Operation K V R) :
    Except Panic (Answer V R) × Map S K V P :=
  let (i, hash) := m.locate op.key
  let (result, s) := (m.session ()).perform i hash op
  (result, { m with shards := s.shards })

/-- Runs keyed operations one after another, with their answers. -/
def performAll [BEq K] [ResizePolicy P] (m : Map S K V P) :
    List (Operation K V R) → List (Except Panic (Answer V R)) × Map S K V P
  | [] => ([], m)
  | op :: rest =>
    let (answer, m) := m.perform op
    let (answers, m) := m.performAll rest
    (answer :: answers, m)

/-- The pairs that a visit of every shard hands over, in visiting order. -/
def visited [BEq K] [ResizePolicy P] (m : Map S K V P) : Except Panic (List (K × V)) :=
  let note := fun key value => .load fun seen => .store ((key, value) :: seen) (.done ())
  let visit := Program.visitAll note (fun
    | .error p => .panic p
    | .ok () => .done ()) (List.finRange m.count)
  let (result, seen, _) := m.run visit []
  result.map fun () => seen.reverse

/-- The number of entries, as the shards count them. -/
def size (m : Map S K V P) : Nat := sumOver Shard.total m.shards.toList

def isEmpty (m : Map S K V P) : Bool := m.shards.toList.all fun s => s.total == 0

/-- The number of slots of all shards. -/
def slotCount (m : Map S K V P) : Nat := sumOver (fun s => s.slots.size) m.shards.toList

/-- The occupancy of each shard. -/
def occupancies (m : Map S K V P) : List Occupancy := m.shards.toList.map Shard.occupancy

/-- The number of entries, as the occupancies of the shards report them. -/
def pairTotal (m : Map S K V P) : Nat := sumOver Occupancy.pairTotal m.occupancies

/-- The policies of the shards. -/
def policies (m : Map S K V P) : List P := m.shards.toList.map Shard.policy

/-- The pairs in the order in which a visit meets them: shard by shard and slot by slot. -/
def pairs (m : Map S K V P) : List (K × V) :=
  m.shards.toList.flatMap fun s => s.slots.entries.map Entry.pair

def display (m : Map S K V P) : Display := .map m.size m.occupancies

end Map

end ShardedMap
