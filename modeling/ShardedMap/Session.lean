import ShardedMap.Shard.Basic
/-
  A thread at work on `n` shards. It keeps the shards that it has entered and not yet left; entering
  one of them again panics instead of waiting for itself. `guarded` encloses an action between
  entering and leaving, so the shards entered are the same after an action as before it, whether it
  answers or panics. What an access reports is taken to the policy outside its guard, and a
  resize has a guard of its own.
-/
namespace ShardedMap

variable {S : Type → Type} {H : Type} [DecidableEq H] [Storage S H] [LawfulStorage S H]

/-- A shard that is entered, and which of its values is lent to a closure meanwhile. -/
structure Hold (n : Nat) (K : Type) where
  shard : Fin n
  lent : Option (UInt64 × K)

/-- Shards, what the thread holds of them, the memory that its closures share, and what happened
between shards and policies, newest first. -/
structure Session (n : Nat) (S : Type → Type) {H : Type} [DecidableEq H] [Storage S H]
    [LawfulStorage S H] (K V P M : Type) where
  shards : Vector (Shard S K V P) n
  holds : List (Hold n K)
  memory : M
  events : List (Fin n × PolicyEvent)

namespace Session

variable {n : Nat} {K V P M R α : Type}

/-- A session of a thread that has entered nothing. -/
def start (shards : Vector (Shard S K V P) n) (memory : M) : Session n S K V P M :=
  ⟨shards, [], memory, []⟩

/-- The thread has entered shard `i`. -/
def holding (s : Session n S K V P M) (i : Fin n) : Bool := s.holds.any (·.shard == i)

def enter (s : Session n S K V P M) (i : Fin n) (lent : Option (UInt64 × K)) :
    Session n S K V P M :=
  { s with holds := ⟨i, lent⟩ :: s.holds }

def leave (s : Session n S K V P M) (i : Fin n) : Session n S K V P M :=
  { s with holds := s.holds.filter (·.shard != i) }

/-- Runs `act` inside shard `i`. -/
def guarded (i : Fin n) (lent : Option (UInt64 × K))
    (act : Session n S K V P M → Except Panic α × Session n S K V P M) (s : Session n S K V P M) :
    Except Panic α × Session n S K V P M :=
  if s.holding i then (.error .reentry, s)
  else
    let (result, s) := act (s.enter i lent)
    (result, s.leave i)

/-- Notes what happened between shard `i` and its policy, oldest first. -/
def note (s : Session n S K V P M) (i : Fin n) (events : List PolicyEvent) : Session n S K V P M :=
  { s with events := (events.map fun e => (i, e)).reverse ++ s.events }

/-- Works on shard `i`. -/
def onShard (s : Session n S K V P M) (i : Fin n) (f : Shard S K V P → α × Shard S K V P) :
    α × Session n S K V P M :=
  let (a, shards) := Shard.workOn s.shards i f
  (a, { s with shards })

theorem onShard_eq (s : Session n S K V P M) (i : Fin n) (f : Shard S K V P → α × Shard S K V P) :
    s.onShard i f = ((f (s.shards.get i)).1,
      { s with shards := s.shards.set i (f (s.shards.get i)).2 i.isLt }) := by
  simp only [onShard, Shard.workOn_eq]

theorem holding_enter (s : Session n S K V P M) (i j : Fin n) (lent : Option (UInt64 × K)) :
    (s.enter i lent).holding j = (i == j || s.holding j) := by
  simp [enter, holding]

/-- Leaving undoes entering. -/
theorem holds_leave_enter {s : Session n S K V P M} {i : Fin n} (h : s.holding i = false)
    (lent : Option (UInt64 × K)) : ((s.enter i lent).leave i).holds = s.holds := by
  have hall : ∀ hold ∈ s.holds, (hold.shard != i) = true := fun hold hm => by
    have := List.any_eq_false.1 h hold hm
    simpa using this
  simp [enter, leave, List.filter_eq_self.2 hall]

/-- What the thread sees of the chain of slot `j` of shard `i` at this moment. -/
def chainAt (s : Session n S K V P M) (i : Fin n) (j : Nat) : Chain S K V :=
  (s.shards.get i).slots.chainAt j

/-- Replaces the value of shard `i` that is lent to a closure; if none is, nothing happens. -/
def assign [BEq K] (s : Session n S K V P M) (i : Fin n) (value : V) : Session n S K V P M :=
  match (s.holds.find? (·.shard == i)).bind Hold.lent with
  | none => s
  | some (hash, key) => (s.onShard i fun shard => ((), shard.assign hash key value)).2

section Policy

variable [ResizePolicy P]

/-- Consults the policy of shard `i` about what an access reported. -/
def consult (i : Fin n) (r : Report) (s : Session n S K V P M) :
    Except Panic Unit × Session n S K V P M :=
  let inspected := PolicyEvent.inspected (s.shards.get i).total r.size
  let (verdict, s) := s.onShard i (·.inspect r)
  let s := s.note i [inspected]
  if verdict = .normal then (.ok (), s)
  else
    let (wanted, s) := s.onShard i (·.wants verdict r.slotCount)
    let s := s.note i [.asked verdict r.slotCount]
    if wanted then
      s.guarded i none fun s =>
        let ((result, events), s) := s.onShard i fun shard =>
          let (result, shard, events) := shard.resize verdict
          ((result, events), shard)
        (result, s.note i events)
    else (.ok (), s)

/-- Runs a keyed operation on shard `i`. -/
def perform [BEq K] (i : Fin n) (hash : UInt64) (op : Operation K V R)
    (s : Session n S K V P M) : Except Panic (Answer V R) × Session n S K V P M :=
  match s.guarded i none (·.onShard i (·.access hash op)) with
  | (.error p, s) => (.error p, s)
  | (.ok (answer, none), s) => (.ok answer, s)
  | (.ok (answer, some r), s) =>
    match s.consult i r with
    | (.error p, s) => (.error p, s)
    | (.ok (), s) => (.ok answer, s)

end Policy

/-! ### Visiting -/

/-- Visits the entries from a place of slot `j` of shard `i` on, up to `fuel` of them. The place
after an entry is read before the entry is visited. -/
def visitChain (i : Fin n) (j : Nat)
    (visit : K → V → Session n S K V P M → Except Panic R × Session n S K V P M) :
    Nat → Chain.Place H → Session n S K V P M → Except Panic Unit × Session n S K V P M
  | 0, _, s => (.ok (), s)
  | fuel + 1, place, s =>
    match (s.chainAt i j).entryAt place with
    | none => (.ok (), s)
    | some e =>
      let next := (s.chainAt i j).after place
      match visit e.key e.value s with
      | (.error p, s) => (.error p, s)
      | (.ok _, s) => visitChain i j visit fuel next s

/-- Visits the entries of `count` slots of shard `i`, from slot `j` on. -/
def visitSlots (i : Fin n)
    (visit : K → V → Session n S K V P M → Except Panic R × Session n S K V P M) :
    (count j : Nat) → Session n S K V P M → Except Panic Unit × Session n S K V P M
  | 0, _, s => (.ok (), s)
  | count + 1, j, s =>
    match visitChain i j visit (s.chainAt i j).size (s.chainAt i j).first s with
    | (.error p, s) => (.error p, s)
    | (.ok (), s) => visitSlots i visit count (j + 1) s

/-- Visits every entry of shard `i`, slot by slot. -/
def visitShard (i : Fin n)
    (visit : K → V → Session n S K V P M → Except Panic R × Session n S K V P M)
    (s : Session n S K V P M) : Except Panic Unit × Session n S K V P M :=
  s.guarded i none fun s => visitSlots i visit (s.shards.get i).slots.size 0 s

end Session

end ShardedMap
