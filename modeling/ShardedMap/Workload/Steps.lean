import ShardedMap.Hash
import ShardedMap.Map.Basic
import ShardedMap.Workload.Range
/-
  Workloads on shards: steps, what each answers, and the program that carries it out. A workload
  runs at a `Site`, which is one shard, where each step brings the hash of its key, or a map, where
  the key alone decides. A `nest` runs steps inside the closure of another operation; the notebook
  is what such closures remember of the steps that they ran.
-/
namespace ShardedMap

/-- What a batch of operations is summed up to. -/
inductive BatchKind where
  /-- How many stores replaced a value. -/
  | fill
  /-- How many deletions found an entry. -/
  | unfill
  /-- How many look-ups found a value, and the sum of the values. -/
  | tally
deriving DecidableEq

/-- The operation whose closure runs the steps of a `nest`. -/
inductive NestKind where
  | read
  /-- Adds to the value before the steps run. -/
  | add
  /-- Runs the steps at every entry. -/
  | visit
deriving DecidableEq

/-- What a step answers. -/
inductive Reply (caseless : Bool) (P : Type) where
  | panicked (p : Panic)
  | refused (e : InsertError)
  | inserted
  | value (v : Option Int64)
  | flag (b : Bool)
  | count (n : Nat)
  | tally (hits : Nat) (sum : Int64)
  | length (n : Nat) (empty : Bool)
  | pairs (l : List (Key caseless × Int64))
  | occupancies (l : List Occupancy)
  | slotCounts (l : List Nat)
  | policies (l : List P)
  | text (s : String)
  | hash (h : Option UInt64)
  | nested (outer : Reply caseless P) (inner : List (Reply caseless P))

/-- A step of a workload. `address` is the hash brought along; only a single shard goes by it. -/
inductive Step (caseless : Bool) where
  | put (address : UInt64) (key : Key caseless) (value : Int64)
  | insertNew (address : UInt64) (key : Key caseless) (value : Int64)
  | get (address : UInt64) (key : Key caseless)
  | contains (address : UInt64) (key : Key caseless)
  | remove (address : UInt64) (key : Key caseless)
  | delete (address : UInt64) (key : Key caseless)
  /-- Twice the value. -/
  | double (address : UInt64) (key : Key caseless)
  /-- Adds to the value. -/
  | add (address : UInt64) (key : Key caseless) (amount : Int64)
  /-- Reads the value in a closure that gives up. -/
  | failingRead (address : UInt64) (key : Key caseless)
  /-- Adds to the value in a closure that then gives up. -/
  | failingAdd (address : UInt64) (key : Key caseless) (amount : Int64)
  | batch (kind : BatchKind) (range : NumberRange)
  | length
  /-- Every pair; the visitor gives up at the pair after so many. -/
  | visit (limit : Option Nat)
  | occupancies
  | slotCounts
  | policies
  | display (spread : Bool)
  | hash (key : Key caseless)
  | nest (kind : NestKind) (address : UInt64) (key : Key caseless) (amount : Int64)
      (inner : List (Step caseless))
  /-- A step whose panic leaves the closure that it runs in. -/
  | raising (step : Step caseless)

/-- What closures remember: the replies of the steps that they ran and the pairs that they visited,
newest first, and the number of these pairs. -/
structure Notebook (caseless : Bool) (P : Type) where
  replies : List (Reply caseless P)
  visited : List (Key caseless × Int64)
  visits : Nat

namespace Notebook

variable {caseless : Bool} {P : Type}

def blank : Notebook caseless P := ⟨[], [], 0⟩

/-- Notes a reply. -/
def addReply (notes : Notebook caseless P) (reply : Reply caseless P) : Notebook caseless P :=
  { notes with replies := reply :: notes.replies }

/-- Notes a visited pair. -/
def addVisit (notes : Notebook caseless P) (key : Key caseless) (value : Int64) :
    Notebook caseless P :=
  { notes with visited := (key, value) :: notes.visited, visits := notes.visits + 1 }

/-- The visited pairs in visiting order. -/
def pairs (notes : Notebook caseless P) : List (Key caseless × Int64) := notes.visited.reverse

end Notebook

/-- Where a workload runs: how a key is located, the hash of a key if keys have one here, the text
shown, and whether a visit answers its pairs sorted. The pairs that a `nest` visits stay in visiting
order. -/
structure Site (caseless : Bool) (n : Nat) where
  locate : UInt64 → Key caseless → Fin n × UInt64
  hash? : Key caseless → Option UInt64
  display : (size : Nat) → List Occupancy → Display
  sorted : Bool

namespace Site

variable {caseless : Bool} {P : Type}

/-- A single shard: each step brings its hash. -/
def shard : Site caseless 1 where
  locate address _ := (0, address)
  hash? _ := none
  display _ shards := (shards.map Display.shard).headD (.record "Shard" [])
  sorted := false

/-- The shards of a map: the key decides. -/
def map (m : Map Arena (Key caseless) Int64 P) (sorted : Bool) : Site caseless m.count where
  locate _ key := m.locate key
  hash? key := some (m.hash key)
  display size shards := .map size shards
  sorted := sorted

end Site

/-- Pairs by their keys: numbers ascending, then texts. -/
def sortPairs {caseless : Bool} (l : List (Key caseless × Int64)) : List (Key caseless × Int64) :=
  l.mergeSort fun a b => a.1.le b.1

/-- A keyed operation of a workload. -/
abbrev KeyedOp (caseless : Bool) (P : Type) :=
  Operation (Key caseless) Int64 (Reply caseless P)

/-- The answer to a keyed operation of a workload. -/
abbrev KeyedAnswer (caseless : Bool) (P : Type) := Answer Int64 (Reply caseless P)

/-- A program of a workload. -/
abbrev StepProgram (caseless : Bool) (n : Nat) (P : Type) :=
  Program UInt64 n (Key caseless) Int64 P (Notebook caseless P) (Reply caseless P)

namespace Reply

variable {caseless : Bool} {P : Type}

/-- The reply to a keyed operation. -/
def ofAnswer : Except Panic (KeyedAnswer caseless P) → Reply caseless P
  | .error p => .panicked p
  | .ok (.replaced v) => .value v
  | .ok (.inserted (.ok ())) => .inserted
  | .ok (.inserted (.error e)) => .refused e
  | .ok (.value v) => .value v
  | .ok (.computed r) => r.getD (.value none)
  | .ok (.present b) => .flag b

/-- The reply to an operation with a closure. -/
def ofClosure : Except Panic (Option (Reply caseless P)) → Reply caseless P
  | .error p => .panicked p
  | .ok r => r.getD (.value none)

/-- A reply that tells of something found or done, in one word or number. -/
def isHit : Reply caseless P → Bool
  | .inserted | .value (some _) | .flag true | .count _ | .text _ | .hash (some _) => true
  | _ => false

end Reply

namespace BatchKind

variable {caseless : Bool} {P : Type}

/-- The operation for one item of a range. -/
def op (kind : BatchKind) (item : RangeItem) : KeyedOp caseless P :=
  match kind with
  | fill => .put (.number item.number) item.value
  | unfill => .delete (.number item.number)
  | tally => .get (.number item.number)

/-- The operations for a range, with the hashes that they bring along. -/
def ops (kind : BatchKind) (range : NumberRange) : List (UInt64 × KeyedOp caseless P) :=
  range.items.map fun item => (item.hash, kind.op item)

/-- Counts one answer in. -/
def count (hits : Nat) (sum : Int64) : KeyedAnswer caseless P → Nat × Int64
  | .replaced (some _) | .present true => (hits + 1, sum)
  | .value (some v) => (hits + 1, sum + v)
  | _ => (hits, sum)

/-- The reply for what was counted. -/
def reply (kind : BatchKind) (hits : Nat) (sum : Int64) : Reply caseless P :=
  match kind with
  | fill | unfill => .count hits
  | tally => .tally hits sum

/-- The reply for the answers to the operations of a batch, up to the first panic. -/
def summarize (kind : BatchKind) (hits : Nat) (sum : Int64) :
    List (Except Panic (KeyedAnswer caseless P)) → Reply caseless P
  | [] => kind.reply hits sum
  | .error p :: _ => .panicked p
  | .ok answer :: rest =>
    let (hits, sum) := count hits sum answer
    kind.summarize hits sum rest

end BatchKind

namespace Step

variable {caseless : Bool} {n : Nat} {P : Type}

/-- Performs operations one after another, up to the first panic, and replies with their summary. -/
def batchProgram (kind : BatchKind) (next : Reply caseless P → StepProgram caseless n P) :
    (hits : Nat) → (sum : Int64) → List (UInt64 × KeyedOp caseless P) →
      StepProgram caseless n P
  | hits, sum, [] => next (kind.reply hits sum)
  | hits, sum, (address, op) :: rest =>
    .perform address op fun
      | .error p => next (.panicked p)
      | .ok answer =>
        let (hits, sum) := BatchKind.count hits sum answer
        batchProgram kind next hits sum rest

/-- Notes a visited pair, unless the limit is reached. -/
def visitor (limit : Option Nat) (key : Key caseless) (value : Int64) :
    StepProgram caseless n P :=
  .load fun notes =>
    if limit = some notes.visits then .panic (.raised "visitor panicked")
    else .store (notes.addVisit key value) (.done (.value value))

/-- The reply to a visit that notes were taken of. -/
def visitReply (site : Site caseless n) (notes : Notebook caseless P) : Reply caseless P :=
  .pairs (if site.sorted then sortPairs notes.pairs else notes.pairs)

/-- Every shard of a site. -/
def everyShard (n : Nat) : List (Fin n) := List.finRange n

/-- The panic of a closure that gives up. -/
def closurePanic : Panic := .raised "closure panicked"

/-- Goes on with a reply, unless it is a panic that leaves the closure. -/
def noteReply (leaves : Bool) (reply : Reply caseless P) (rest : StepProgram caseless n P) :
    StepProgram caseless n P :=
  match leaves, reply with
  | true, .panicked p => .panic p
  | _, reply =>
    .load fun notes => .store (notes.addReply reply) rest

/-- A panic of this step leaves the closure that it runs in. -/
def leaves : Step caseless → Bool
  | raising _ => true
  | _ => false

mutual

/-- The program of a step, and of what follows its reply. -/
def program (site : Site caseless n) :
    Step caseless → (Reply caseless P → StepProgram caseless n P) → StepProgram caseless n P
  | put address key value, next => .perform address (.put key value) (next ∘ Reply.ofAnswer)
  | insertNew address key value, next =>
    .perform address (.insertNew key value) (next ∘ Reply.ofAnswer)
  | get address key, next => .perform address (.get key) (next ∘ Reply.ofAnswer)
  | contains address key, next => .perform address (.contains key) (next ∘ Reply.ofAnswer)
  | remove address key, next => .perform address (.remove key) (next ∘ Reply.ofAnswer)
  | delete address key, next => .perform address (.delete key) (next ∘ Reply.ofAnswer)
  | double address key, next =>
    .perform address (.read key fun v => .value (some (v + v))) (next ∘ Reply.ofAnswer)
  | add address key amount, next =>
    .perform address (.update key fun v => (.value (some (v + amount)), v + amount))
      (next ∘ Reply.ofAnswer)
  | failingRead address key, next =>
    .read address key (fun _ => .panic closurePanic) (next ∘ Reply.ofClosure)
  | failingAdd address key amount, next =>
    .update address key (fun i v => .assign i (v + amount) (.panic closurePanic))
      (next ∘ Reply.ofClosure)
  | batch kind range, next => batchProgram kind next 0 0 (kind.ops range)
  | length, next =>
    .totalAll (fun ts => next (.length (sumOver id ts) (ts.all (· == 0)))) (everyShard n)
  | visit limit, next =>
    .load fun saved => .store .blank <| .visitAll (visitor limit) (fun result =>
      .load fun notes => .store saved <|
        match result with
        | .error p => next (.panicked p)
        | .ok () => next (visitReply site notes)) (everyShard n)
  | occupancies, next =>
    .occupancyAll (fun
      | .error p => next (.panicked p)
      | .ok l => next (.occupancies l)) (everyShard n)
  | slotCounts, next =>
    .slotCountAll (fun
      | .error p => next (.panicked p)
      | .ok l => next (.slotCounts l)) (everyShard n)
  | policies, next => .policyAll (fun ps => next (.policies ps)) (everyShard n)
  | display spread, next =>
    .totalAll (fun ts => .occupancyAll (fun
      | .error p => next (.panicked p)
      | .ok l =>
        next (.text ((site.display (sumOver id ts) l).text spread))) (everyShard n)) (everyShard n)
  | hash key, next => next (.hash (site.hash? key))
  | nest kind address key amount inner, next =>
    .load fun saved => .store .blank <|
      let finish := fun outer => .load fun notes =>
        .store saved (next (.nested outer notes.replies.reverse))
      match kind with
      | .read =>
        .read address key (fun v => programs site inner (.done (.value (some v))))
          (finish ∘ Reply.ofClosure)
      | .add =>
        .update address key (fun i v => .assign i (v + amount)
          (programs site inner (.done (.value (some (v + amount))))))
          (finish ∘ Reply.ofClosure)
      | .visit =>
        .visitAll (fun key value => .load fun notes =>
          .store (notes.addVisit key value) (programs site inner (.done (.value none))))
          (fun
            | .error p => finish (.panicked p)
            | .ok () => .load fun notes => finish (.pairs notes.pairs)) (everyShard n)
  | raising step, next => step.program site next

/-- The program of the steps that a closure runs, noting each reply, and of what follows them. -/
def programs (site : Site caseless n) :
    List (Step caseless) → StepProgram caseless n P → StepProgram caseless n P
  | [], rest => rest
  | step :: steps, rest =>
    step.program site fun reply => noteReply step.leaves reply (programs site steps rest)

end

/-- Carries out a step from outside every shard. -/
def run [ResizePolicy P] (site : Site caseless n) (step : Step caseless)
    (s : Session n Arena (Key caseless) Int64 P (Notebook caseless P)) :
    Reply caseless P × Session n Arena (Key caseless) Int64 P (Notebook caseless P) :=
  match (step.program site .done).run site.locate s with
  | (.ok reply, s) => (reply, s)
  | (.error p, s) => (.panicked p, s)

/-- Carries steps out one after another. With each reply come a view of the session and what
happened between shards and policies during the step, oldest first. -/
def runAll [ResizePolicy P] {α : Type} (site : Site caseless n)
    (view : Session n Arena (Key caseless) Int64 P (Notebook caseless P) → α) :
    Session n Arena (Key caseless) Int64 P (Notebook caseless P) → List (Step caseless) →
      List (Reply caseless P × α × List (Fin n × PolicyEvent)) ×
        Session n Arena (Key caseless) Int64 P (Notebook caseless P)
  | s, [] => ([], s)
  | s, step :: rest =>
    let (reply, s) := step.run site s
    let seen := (reply, view s, s.events.reverse)
    let (others, s) := runAll site view { s with events := [] } rest
    (seen :: others, s)

end Step

/-! ### Views -/

variable {S : Type → Type} {H : Type} [DecidableEq H] [Storage S H] [LawfulStorage S H]

namespace Session

variable {n : Nat} {K V P M : Type}

/-- The number of entries of all shards. -/
def size (s : Session n S K V P M) : Nat := sumOver Shard.total s.shards.toList

/-- The number of slots of all shards. -/
def slotCount (s : Session n S K V P M) : Nat :=
  sumOver (fun s => s.slots.size) s.shards.toList

end Session

/-- The evidence of the stock policies of all shards. -/
structure Evidence where
  overweight : Nat
  empty : Nat
  threshold : Nat

/-- The sums of the counters of policies, and the greatest of their thresholds. -/
def Evidence.ofPolicies (ps : List LoadPolicy) : Evidence :=
  ⟨sumOver (fun p => p.overweight.toNat) ps, sumOver (fun p => p.empty.toNat) ps,
    (ps.map fun p => p.threshold.toNat).foldl max 0⟩

/-- The evidence of the policies in a session. -/
def Session.evidence {n : Nat} {K V M : Type} (s : Session n S K V LoadPolicy M) : Evidence :=
  .ofPolicies (s.shards.toList.map Shard.policy)

end ShardedMap
