import ShardedMap.Chain.Basic
/-
  Keyed operations: what they ask of the one chain that their key belongs to, what they answer, and
  what they do to it. Closures given to `read` and `update` here compute a value and do nothing
  else; closures that operate on shards themselves are the matter of `Program`.
-/
namespace ShardedMap

universe u v w

/-- An operation on the entry for one key. -/
inductive Operation (K : Type u) (V : Type v) (R : Type w) where
  /-- Stores a value, replacing the one stored for the key. -/
  | put (key : K) (value : V)
  /-- Stores a value unless one is stored for the key. -/
  | insertNew (key : K) (value : V)
  | get (key : K)
  | contains (key : K)
  /-- Computes from the value stored. -/
  | read (key : K) (f : V → R)
  /-- Computes from the value stored and replaces it. -/
  | update (key : K) (f : V → R × V)
  /-- Takes the entry out and answers its value. -/
  | remove (key : K)
  /-- Takes the entry out and answers whether there was one. -/
  | delete (key : K)

/-- The key that an operation is about. -/
def Operation.key {K : Type u} {V : Type v} {R : Type w} : Operation K V R → K
  | put key _ | insertNew key _ | get key | contains key | read key _ | update key _
  | remove key | delete key => key

/-- What a keyed operation answers. -/
inductive Answer (V : Type v) (R : Type w) where
  /-- The value that a `put` replaced. -/
  | replaced (value : Option V)
  | inserted (result : Except InsertError Unit)
  /-- The value that `get` found or `remove` took out. -/
  | value (value : Option V)
  /-- What the closure of a `read` or `update` computed, if there was a value. -/
  | computed (result : Option R)
  /-- Whether there was an entry. -/
  | present (found : Bool)

/-- What a keyed operation did to its chain. -/
inductive Effect where
  /-- No entry came, went or was put again. -/
  | none
  /-- The value of an entry was replaced by a `put`. -/
  | replaced
  /-- One entry came. -/
  | added
  /-- One entry went. -/
  | removed
deriving DecidableEq

namespace Operation

variable {S : Type (max u v) → Type (max u v)} {H : Type} [DecidableEq H] [Storage S H]
  [LawfulStorage S H]
variable {K : Type u} {V : Type v} {R : Type w}

/-- Carries out an operation on the chain that its key belongs to. -/
def onChain [BEq K] (hash : UInt64) (op : Operation K V R) (c : Chain S K V) :
    (Answer V R × Effect) × Chain S K V :=
  match op with
  | put key value =>
    match c.insert ⟨key, hash, value⟩ with
    | (some old, c) => ((.replaced (some old), .replaced), c)
    | (none, c) => ((.replaced none, .added), c)
  | insertNew key value =>
    if c.contains hash key then ((.inserted (.error .duplicateKey), .none), c)
    else ((.inserted (.ok ()), .added), c.push ⟨key, hash, value⟩)
  | get key => ((.value (c.get? hash key), .none), c)
  | contains key => ((.present (c.contains hash key), .none), c)
  | read key f => ((.computed ((c.get? hash key).map f), .none), c)
  | update key f =>
    let (r, c) := c.modify hash key f
    ((.computed r, .none), c)
  | remove key =>
    match c.remove hash key with
    | (some e, c) => ((.value (some e.value), .removed), c)
    | (none, c) => ((.value none, .none), c)
  | delete key =>
    match c.remove hash key with
    | (some _, c) => ((.present true, .removed), c)
    | (none, c) => ((.present false, .none), c)

end Operation

end ShardedMap
