import ShardedMap.Chain.Basic
import ShardedMap.Count
import ShardedMap.Element
/-
  Slot arrays: one chain per slot, and the rule that an entry belongs to the slot numbered by its
  hash modulo the number of slots (`home`). `onHome` works on the chain that a hash belongs to;
  `resize` moves every entry to its home among another number of slots.
-/
namespace ShardedMap

universe u v w

/-- The chains of a shard, by slot number. -/
abbrev Slots (S : Type (max u v) → Type (max u v)) {H : Type} [DecidableEq H] [Storage S H]
    [LawfulStorage S H] (K : Type u) (V : Type v) := Array (Chain S K V)

namespace Slots

variable {S : Type (max u v) → Type (max u v)} {H : Type} [DecidableEq H] [Storage S H]
  [LawfulStorage S H]
variable {K : Type u} {V : Type v} {α : Type w}

/-- The slot that `hash` belongs to among `count` slots. -/
def home (hash : UInt64) (count : Nat) : Nat := hash.toNat % count

/-- The slot that `hash` belongs to; there is none among no slots. -/
def home? (hash : UInt64) (count : Nat) : Except Panic Nat :=
  if count = 0 then .error .noSlots else .ok (home hash count)

theorem home_lt (hash : UInt64) {count : Nat} (h : 0 < count) : home hash count < count :=
  Nat.mod_lt _ h

/-- `count` slots that hold nothing. -/
def vacant (count : Nat) : Slots S K V := Array.replicate count ∅

/-- The number of entries in all slots. -/
def entryCount (slots : Slots S K V) : Nat := sumOver Chain.size slots.toList

/-- The entries in slot order, and within a slot in chain order. -/
def entries (slots : Slots S K V) : List (Entry K V) := slots.toList.flatMap Chain.toList

/-- The chain of slot `i`; past the end, nothing is stored. -/
def chainAt (slots : Slots S K V) (i : Nat) : Chain S K V := slots[i]?.getD ∅

/-- Works on the chain of slot `i`. -/
def onSlot (slots : Slots S K V) (i : Nat) (f : Chain S K V → α × Chain S K V) :
    Except Panic α × Slots S K V :=
  if h : i < slots.size then
    let (a, slots) := workAt slots i h (fun _ => ∅) f
    (.ok a, slots)
  else (.error (.slotOutOfRange slots.size i), slots)

/-- Works on the chain that `hash` belongs to. -/
def onHome (slots : Slots S K V) (hash : UInt64) (f : Chain S K V → α × Chain S K V) :
    Except Panic α × Slots S K V :=
  match home? hash slots.size with
  | .error p => (.error p, slots)
  | .ok i => slots.onSlot i f

/-- The chain that `hash` belongs to. -/
def chainFor (slots : Slots S K V) (hash : UInt64) : Except Panic (Chain S K V) :=
  (home? hash slots.size).map slots.chainAt

/-! ### Resizing -/

/-- Drains chains one after another, up to a drain that fails. A chain that was begun on is replaced
by one that holds nothing. `taken` are the entries so far, newest first, and `left` the chains. -/
def gatherFrom (taken : List (Entry K V)) (left : Slots S K V) :
    List (Chain S K V) → Except Panic (List (Entry K V)) × Slots S K V
  | [] => (.ok taken.reverse, left)
  | chain :: rest =>
    match chain.drained with
    | .error p => (.error p, left.push ∅ ++ rest)
    | .ok es => gatherFrom (es.reverse ++ taken) (left.push ∅) rest

/-- Every entry, drained from the chains in slot order, and what is left of the slots. -/
def gather (slots : Slots S K V) : Except Panic (List (Entry K V)) × Slots S K V :=
  gatherFrom [] #[] slots.toList

/-- Puts `e` in front of the chain it belongs to among `count` slots. -/
def place (count : Nat) (slots : Slots S K V) (e : Entry K V) : Slots S K V :=
  slots.modify (home e.hash count) (·.push e)

/-- `count` slots: those of `slots` and new ones after them if there are more than before, and
otherwise new ones only. -/
def fitted (slots : Slots S K V) (count : Nat) : Slots S K V :=
  if slots.size < count then slots ++ vacant (count - slots.size) else vacant count

/-- Moves every entry to its home among `count` slots, answering how many were moved. Entries are
taken in slot order and chain order, and each is put in front. -/
def resize (slots : Slots S K V) (count : Nat) : Except Panic Nat × Slots S K V :=
  if count = 0 then (.error .resizeToZero, slots)
  else
    match slots.gather with
    | (.error p, left) => (.error p, left)
    | (.ok moving, left) =>
      let placed := moving.foldl (place count) (left.fitted count)
      if moving.length = slots.entryCount ∧ placed.entryCount = moving.length then
        (.ok moving.length, placed)
      else
        (.error (.unevenResize slots.entryCount moving.length placed.entryCount), placed)

/-! ### Occupancy -/

/-- The number of slots that hold nothing. -/
def emptyCount (slots : Slots S K V) : Nat := slots.countP Chain.isEmpty

/-- The length of the longest chain. -/
def longest (slots : Slots S K V) : Nat := slots.foldl (fun n chain => max n chain.size) 0

/-! ### Laws of working on one slot -/

theorem onSlot_of_lt {slots : Slots S K V} {i : Nat} (h : i < slots.size)
    (f : Chain S K V → α × Chain S K V) :
    slots.onSlot i f = (.ok (f (slots.chainAt i)).1,
      slots.setIfInBounds i (f (slots.chainAt i)).2) := by
  have hc : slots.chainAt i = slots[i] := by simp [chainAt, h]
  rw [hc]
  simp [onSlot, h, workAt_eq, Array.setIfInBounds]

theorem home?_of_pos (hash : UInt64) {count : Nat} (h : 0 < count) :
    home? hash count = .ok (home hash count) := by
  simp [home?, Nat.pos_iff_ne_zero.1 h]

theorem onHome_of_pos {slots : Slots S K V} (h : 0 < slots.size) (hash : UInt64)
    (f : Chain S K V → α × Chain S K V) :
    slots.onHome hash f =
      (.ok (f (slots.chainAt (home hash slots.size))).1,
        slots.setIfInBounds (home hash slots.size)
          (f (slots.chainAt (home hash slots.size))).2) := by
  rw [onHome, home?_of_pos hash h]
  exact onSlot_of_lt (home_lt hash h) f

end Slots

end ShardedMap
