import ShardedMap.Session
/-
  Programs of one thread on `n` shards, with closures that are programs themselves. `read` and
  `update` hand the value found to a closure, `visit` hands over entry after entry, and a closure
  may do all that a program may, to any depth. Whatever an operation ends with, answer or panic, is
  given to the rest of the program, which decides whether to go on; a closure that ends with a panic
  unwinds the operation around it. Operations name their entry by an address and a key, which a
  locator turns into a shard and a hash.
-/
namespace ShardedMap

variable {S : Type → Type} {H : Type} [DecidableEq H] [Storage S H] [LawfulStorage S H]

/-- A program that ends with a result in `R` or a panic. -/
inductive Program (A : Type) (n : Nat) (K V P M R : Type) where
  | done (result : R)
  | panic (p : Panic)
  /-- Reads the memory that closures share. -/
  | load (next : M → Program A n K V P M R)
  /-- Writes the memory that closures share. -/
  | store (memory : M) (next : Program A n K V P M R)
  /-- Replaces the value lent by the `update` that is under way on shard `i`. -/
  | assign (i : Fin n) (value : V) (next : Program A n K V P M R)
  | perform (address : A) (op : Operation K V R)
      (next : Except Panic (Answer V R) → Program A n K V P M R)
  /-- Gives the value for `key` to `body`, inside its shard. -/
  | read (address : A) (key : K) (body : V → Program A n K V P M R)
      (next : Except Panic (Option R) → Program A n K V P M R)
  /-- Lends the value for `key` to `body`, inside the shard named to it. -/
  | update (address : A) (key : K) (body : Fin n → V → Program A n K V P M R)
      (next : Except Panic (Option R) → Program A n K V P M R)
  /-- Gives every entry of shard `i` to `body`, inside the shard. -/
  | visit (i : Fin n) (body : K → V → Program A n K V P M R)
      (next : Except Panic Unit → Program A n K V P M R)
  | occupancy (i : Fin n) (next : Except Panic Occupancy → Program A n K V P M R)
  | slotCount (i : Fin n) (next : Except Panic Nat → Program A n K V P M R)
  /-- The number of entries of shard `i`, which is read without entering it. -/
  | total (i : Fin n) (next : Nat → Program A n K V P M R)
  /-- The policy of shard `i`, which is read without entering it. -/
  | policy (i : Fin n) (next : P → Program A n K V P M R)

namespace Program

variable {A : Type} {n : Nat} {K V P M R : Type}

/-! ### On several shards -/

/-- Visits shards in order, up to the first panic. -/
def visitAll (body : K → V → Program A n K V P M R)
    (next : Except Panic Unit → Program A n K V P M R) :
    List (Fin n) → Program A n K V P M R
  | [] => next (.ok ())
  | i :: rest =>
    .visit i body fun
      | .error p => next (.error p)
      | .ok () => visitAll body next rest

/-- Asks shards for their occupancy in order, up to the first panic. -/
def occupancyAll (next : Except Panic (List Occupancy) → Program A n K V P M R) :
    List (Fin n) → Program A n K V P M R
  | [] => next (.ok [])
  | i :: rest =>
    .occupancy i fun
      | .error p => next (.error p)
      | .ok o => occupancyAll (fun r => next (r.map (o :: ·))) rest

/-- Asks shards for their slot counts in order, up to the first panic. -/
def slotCountAll (next : Except Panic (List Nat) → Program A n K V P M R) :
    List (Fin n) → Program A n K V P M R
  | [] => next (.ok [])
  | i :: rest =>
    .slotCount i fun
      | .error p => next (.error p)
      | .ok c => slotCountAll (fun r => next (r.map (c :: ·))) rest

/-- Reads the totals of shards in order. -/
def totalAll (next : List Nat → Program A n K V P M R) :
    List (Fin n) → Program A n K V P M R
  | [] => next []
  | i :: rest => .total i fun t => totalAll (fun ts => next (t :: ts)) rest

/-- Reads the policies of shards in order. -/
def policyAll (next : List P → Program A n K V P M R) :
    List (Fin n) → Program A n K V P M R
  | [] => next []
  | i :: rest => .policy i fun p => policyAll (fun ps => next (p :: ps)) rest

/-! ### Running -/

/-- Gives the value for `key` under `hash` in shard `i` to `body`, if there is one. -/
def onValue [BEq K] (i : Fin n) (hash : UInt64) (key : K)
    (body : V → Session n S K V P M → Except Panic R × Session n S K V P M)
    (s : Session n S K V P M) : Except Panic (Option R) × Session n S K V P M :=
  match (s.shards.get i).value? hash key with
  | .error p => (.error p, s)
  | .ok none => (.ok none, s)
  | .ok (some value) =>
    match body value s with
    | (.error p, s) => (.error p, s)
    | (.ok r, s) => (.ok (some r), s)

/-- Runs a program. -/
def run [BEq K] [ResizePolicy P] (locate : A → K → Fin n × UInt64) :
    Program A n K V P M R → Session n S K V P M → Except Panic R × Session n S K V P M
  | done r, s => (.ok r, s)
  | panic p, s => (.error p, s)
  | load next, s => (next s.memory).run locate s
  | store memory next, s => next.run locate { s with memory }
  | assign i value next, s => next.run locate (s.assign i value)
  | perform address op next, s =>
    let (i, hash) := locate address op.key
    let (answer, s) := s.perform i hash op
    (next answer).run locate s
  | read address key body next, s =>
    let (i, hash) := locate address key
    let (answer, s) := s.guarded i none
      (onValue i hash key fun value s => (body value).run locate s)
    (next answer).run locate s
  | update address key body next, s =>
    let (i, hash) := locate address key
    let (answer, s) := s.guarded i (some (hash, key))
      (onValue i hash key fun value s => (body i value).run locate s)
    (next answer).run locate s
  | visit i body next, s =>
    let (answer, s) := s.visitShard i fun key value s => (body key value).run locate s
    (next answer).run locate s
  | occupancy i next, s =>
    let (answer, s) := s.guarded i none fun s => (.ok (s.shards.get i).occupancy, s)
    (next answer).run locate s
  | slotCount i next, s =>
    let (answer, s) := s.guarded i none fun s => (.ok (s.shards.get i).slots.size, s)
    (next answer).run locate s
  | total i next, s => (next (s.shards.get i).total).run locate s
  | policy i next, s => (next (s.shards.get i).policy).run locate s

end Program

end ShardedMap
