import ShardedMap.Entry
import ShardedMap.Panic
import ShardedMap.Storage
/-
  A chain as it is stored: nodes in a storage, each linking to the next, and a link to the first.
  Operations follow links, for at most as many steps as there are nodes; a link that leads nowhere
  ends them as the end of the chain does. Linking a node in or out never moves another node.
-/
namespace ShardedMap

universe u v w

/-- An entry and the link to the entry after it. -/
structure Node (H : Type) (K : Type u) (V : Type v) where
  entry : Entry K V
  next : Option H

/-- Linked nodes and the link to the first of them. -/
structure Links (S : Type (max u v) → Type (max u v)) (H : Type) (K : Type u) (V : Type v) where
  arena : S (Node H K V)
  head : Option H

namespace Links

variable {S : Type (max u v) → Type (max u v)} {H : Type} [Storage S H]
variable {K : Type u} {V : Type v} {β : Type w}

def empty : Links S H K V := ⟨Storage.empty, none⟩

/-- The number of nodes stored. -/
def size (c : Links S H K V) : Nat := Storage.size c.arena

/-- Looks for an entry that satisfies `p` among the `fuel` nodes from `start` on. The answer is its
handle, after the handle of the node before it (`before`, if it is the first). -/
def locate (a : S (Node H K V)) (p : Entry K V → Bool) :
    Nat → Option H → Option H → Option (Option H × H)
  | 0, _, _ => none
  | _ + 1, _, none => none
  | fuel + 1, before, some h =>
    match Storage.get? a h with
    | none => none
    | some node => if p node.entry then some (before, h) else locate a p fuel (some h) node.next

/-- The entries of the `fuel` nodes from `start` on. -/
def walk (a : S (Node H K V)) : Nat → Option H → List (Entry K V)
  | 0, _ => []
  | _ + 1, none => []
  | fuel + 1, some h =>
    match Storage.get? a h with
    | none => []
    | some node => node.entry :: walk a fuel node.next

/-- The entries in chain order. -/
def toList (c : Links S H K V) : List (Entry K V) := walk c.arena c.size c.head

/-- The place of the first entry that satisfies `p`, and of the one before it. -/
def find (c : Links S H K V) (p : Entry K V → Bool) : Option (Option H × H) :=
  locate c.arena p c.size none c.head

/-- The first entry that satisfies `p`. -/
def find? (c : Links S H K V) (p : Entry K V → Bool) : Option (Entry K V) :=
  (c.find p).bind fun place => (Storage.get? c.arena place.2).map Node.entry

/-- Puts `e` in front. -/
def push (c : Links S H K V) (e : Entry K V) : Links S H K V :=
  let (h, a) := Storage.insert c.arena ⟨e, c.head⟩
  ⟨a, some h⟩

/-- Rewrites the value of the first entry that satisfies `p`; key, hash and place stay. -/
def update (c : Links S H K V) (p : Entry K V → Bool) (f : V → β × V) :
    Option β × Links S H K V :=
  match c.find p with
  | none => (none, c)
  | some (_, h) =>
    match Storage.get? c.arena h with
    | none => (none, c)
    | some node =>
      let (b, value) := f node.entry.value
      let node := { node with entry := { node.entry with value } }
      (some b, { c with arena := Storage.set c.arena h node })

/-- Makes the node under `h` link to `next`. -/
def relink (a : S (Node H K V)) (h : H) (next : Option H) : S (Node H K V) :=
  match Storage.get? a h with
  | none => a
  | some node => Storage.set a h { node with next }

/-- Takes out the first entry that satisfies `p`; the node before it is linked to the one after. -/
def takeOut (c : Links S H K V) (p : Entry K V → Bool) : Option (Entry K V) × Links S H K V :=
  match c.find p with
  | none => (none, c)
  | some (before, h) =>
    match Storage.get? c.arena h with
    | none => (none, c)
    | some node =>
      match before with
      | none => (some node.entry, ⟨Storage.erase c.arena h, node.next⟩)
      | some b =>
        let a := relink c.arena b node.next
        (some node.entry, { c with arena := Storage.erase a h })

/-- Takes out the entry in front. -/
def pop (c : Links S H K V) : Option (Entry K V) × Links S H K V :=
  match c.head with
  | none => (none, c)
  | some h =>
    match Storage.get? c.arena h with
    | none => (none, c)
    | some node => (some node.entry, ⟨Storage.erase c.arena h, node.next⟩)

/-! ### Operations on the entry for a key -/

/-- The entry for `key` under `hash`. -/
def lookup [BEq K] (c : Links S H K V) (hash : UInt64) (key : K) : Option (Entry K V) :=
  c.find? (Entry.isFor hash key)

/-- The value for `key` under `hash`. -/
def get? [BEq K] (c : Links S H K V) (hash : UInt64) (key : K) : Option V :=
  (c.lookup hash key).map Entry.value

def contains [BEq K] (c : Links S H K V) (hash : UInt64) (key : K) : Bool :=
  (c.lookup hash key).isSome

/-- Rewrites the value for `key` under `hash`, answering by `f` on the value. -/
def modify [BEq K] (c : Links S H K V) (hash : UInt64) (key : K) (f : V → β × V) :
    Option β × Links S H K V :=
  c.update (Entry.isFor hash key) f

/-- Replaces the value of the entry with the hash and key of `e`, answering the value replaced, or
puts `e` in front if there is none. -/
def insert [BEq K] (c : Links S H K V) (e : Entry K V) : Option V × Links S H K V :=
  match c.modify e.hash e.key fun old => (old, e.value) with
  | (some old, c) => (some old, c)
  | (none, c) => (none, c.push e)

/-- Takes out the entry for `key` under `hash`. -/
def remove [BEq K] (c : Links S H K V) (hash : UInt64) (key : K) :
    Option (Entry K V) × Links S H K V :=
  c.takeOut (Entry.isFor hash key)

/-! ### Emptying and stepping through -/

/-- Takes out every entry at once. -/
def clear (c : Links S H K V) : Links S H K V := ⟨Storage.clear c.arena, none⟩

variable {σ : Type w}

/-- Takes out up to `fuel` entries from the front, handing each to `accept`, which works on a state
of its own. If `accept` gives up, the entry it was handed is gone and the others stay. -/
def drainUpTo (accept : Entry K V → σ → Except Panic Unit × σ) :
    Nat → Links S H K V → σ → Except Panic Unit × Links S H K V × σ
  | 0, c, s => (.ok (), c, s)
  | fuel + 1, c, s =>
    match c.pop with
    | (none, c) => (.ok (), c, s)
    | (some e, c) =>
      match accept e s with
      | (.ok (), s) => drainUpTo accept fuel c s
      | (.error p, s) => (.error p, c, s)

/-- Takes out every entry from the front, handing each to `accept`. -/
def drain (accept : Entry K V → σ → Except Panic Unit × σ) (c : Links S H K V) (s : σ) :
    Except Panic Unit × Links S H K V × σ :=
  match drainUpTo accept c.size c s with
  | (.ok (), c, s) => if c.size = 0 then (.ok (), c, s) else (.error .chainNotDrained, c, s)
  | (.error p, c, s) => (.error p, c, s)

/-- The entry at a place. -/
def entryAt (c : Links S H K V) (place : Option H) : Option (Entry K V) :=
  place.bind fun h => (Storage.get? c.arena h).map Node.entry

/-- The place after a place. -/
def after (c : Links S H K V) (place : Option H) : Option H :=
  place.bind fun h => (Storage.get? c.arena h).bind Node.next

/-- The place of the entry for `key` under `hash`. -/
def placeOf [BEq K] (c : Links S H K V) (hash : UInt64) (key : K) : Option H :=
  (c.find (Entry.isFor hash key)).map Prod.snd

/-- The entries met by stepping from a place, up to `fuel` of them. -/
def walkFrom (c : Links S H K V) : Nat → Option H → List (Entry K V)
  | 0, _ => []
  | fuel + 1, place =>
    match c.entryAt place with
    | none => []
    | some e => e :: c.walkFrom fuel (c.after place)

end Links

end ShardedMap
