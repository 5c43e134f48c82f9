import ShardedMap.Chain.Basic
/-
  Scripts of chain operations: what each operation answers and leaves. `ChainOp.onLinks` carries an
  operation out on stored nodes, of which it needs nothing; `ChainOp.run` does the same on a chain,
  because every operation keeps nodes linked (`ChainOp.linked`).
-/
namespace ShardedMap

universe u v

/-- An operation on a chain. -/
inductive ChainOp (K : Type u) (V : Type v) where
  | put (e : Entry K V)
  | get (hash : UInt64) (key : K)
  | contains (hash : UInt64) (key : K)
  /-- Rewrites a value in place and answers the new one. -/
  | update (hash : UInt64) (key : K) (f : V → V)
  | remove (hash : UInt64) (key : K)
  | delete (hash : UInt64) (key : K)
  | clear
  /-- Hands the entries over; the receiver gives up, in these words, at the entry after so many. -/
  | drain (limit : Option Nat) (words : String)
  | first
  /-- The entry after the one for a key. -/
  | next (hash : UInt64) (key : K)
  /-- Every entry, by stepping from one to the next. -/
  | walk
  /-- Every entry, in chain order. -/
  | list
  | length

/-- What an operation on a chain answers. -/
inductive ChainAnswer (K : Type u) (V : Type v) where
  | panicked (p : Panic)
  | nothing
  /-- There is no entry to begin from. -/
  | absent
  | flag (b : Bool)
  | value (v : Option V)
  | pair (p : Option (K × V))
  | entry (e : Option (Entry K V))
  | entries (es : List (Entry K V))
  | length (n : Nat) (empty : Bool)

/-- What was taken of a drained chain, newest first, and how much that is. -/
structure Receipt (K : Type u) (V : Type v) where
  taken : List (Entry K V)
  count : Nat

namespace ChainOp

variable {S : Type (max u v) → Type (max u v)} {H : Type} [Storage S H]
variable {K : Type u} {V : Type v}

/-- A receiver that takes entries up to a limit and gives up at the next. -/
def receive (limit : Option Nat) (words : String) (e : Entry K V) (r : Receipt K V) :
    Except Panic Unit × Receipt K V :=
  if limit = some r.count then (.error (.raised words), r)
  else (.ok (), ⟨e :: r.taken, r.count + 1⟩)

/-- Carries out an operation on stored nodes. -/
def onLinks [BEq K] (c : Links S H K V) : ChainOp K V → ChainAnswer K V × Links S H K V
  | put e =>
    let r := c.insert e
    (.value r.1, r.2)
  | get hash key => (.value (c.get? hash key), c)
  | contains hash key => (.flag (c.contains hash key), c)
  | update hash key f =>
    let r := c.modify hash key fun v => (f v, f v)
    (.value r.1, r.2)
  | remove hash key =>
    let r := c.remove hash key
    (.pair (r.1.map Entry.pair), r.2)
  | delete hash key =>
    let r := c.remove hash key
    (.flag r.1.isSome, r.2)
  | clear => (.nothing, c.clear)
  | drain limit words =>
    let r := c.drain (receive limit words) ⟨[], 0⟩
    (match r.1 with | .ok () => .entries r.2.2.taken.reverse | .error p => .panicked p, r.2.1)
  | first => (.entry (c.entryAt c.head), c)
  | next hash key =>
    let place := c.placeOf hash key
    (if (c.entryAt place).isSome then .entry (c.entryAt (c.after place)) else .absent, c)
  | walk => (.entries (c.walkFrom c.size c.head), c)
  | list => (.entries c.toList, c)
  | length => (.length c.size (c.size == 0), c)

/-- Every operation keeps nodes linked. -/
theorem linked [DecidableEq H] [LawfulStorage S H] [BEq K] (op : ChainOp K V)
    {c : Links S H K V} (hc : c.Linked) :
    (op.onLinks c).2.Linked := by
  cases op with
  | put e => exact (hc.insert e).1
  | update hash key f => exact (hc.update _ _).1
  | remove hash key => exact (hc.takeOut _).1
  | delete hash key => exact (hc.takeOut _).1
  | clear => exact c.linked_clear
  | drain limit words =>
    obtain ⟨c', hl, -, he⟩ := hc.drain (receive limit words) ⟨[], 0⟩
    show (c.drain (receive limit words) ⟨[], 0⟩).2.1.Linked
    rw [he]
    exact hl
  | get | contains | first | next | walk | list | length => exact hc

/-- Carries out an operation on a chain. -/
def run [DecidableEq H] [LawfulStorage S H] [BEq K] (op : ChainOp K V) (c : Chain S K V) :
    ChainAnswer K V × Chain S K V :=
  let r := op.onLinks c.links
  (r.1, ⟨r.2, op.linked c.linked⟩)

end ChainOp

end ShardedMap
