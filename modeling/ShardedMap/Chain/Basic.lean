import ShardedMap.Chain.Linked
/-
  Chains: the entries that share a slot, newest first. A chain is linked nodes together with the
  fact that the links pass every node once, so each operation has one law in terms of `toList` and
  nothing else is needed of the way a chain is stored. At most one entry is stored for each hash and
  key, as long as `push` is only used for absent ones.
-/
namespace ShardedMap

universe u v w

/-- Linked nodes whose links pass every node once. -/
structure Chain (S : Type (max u v) → Type (max u v)) {H : Type} [DecidableEq H] [Storage S H]
    [LawfulStorage S H] (K : Type u) (V : Type v) where
  links : Links S H K V
  linked : links.Linked

namespace Chain

variable {S : Type (max u v) → Type (max u v)} {H : Type} [DecidableEq H] [Storage S H]
  [LawfulStorage S H]
variable {K : Type u} {V : Type v} {β : Type w}

def empty : Chain S K V := ⟨Links.empty, Links.linked_empty⟩

instance : EmptyCollection (Chain S K V) := ⟨empty⟩

instance : Inhabited (Chain S K V) := ⟨∅⟩

/-- The entries in chain order. -/
def toList (c : Chain S K V) : List (Entry K V) := c.links.toList

def size (c : Chain S K V) : Nat := c.links.size

def isEmpty (c : Chain S K V) : Bool := c.size == 0

/-- The entry for `key` under `hash`. -/
def lookup [BEq K] (c : Chain S K V) (hash : UInt64) (key : K) : Option (Entry K V) :=
  c.links.lookup hash key

/-- The value for `key` under `hash`. -/
def get? [BEq K] (c : Chain S K V) (hash : UInt64) (key : K) : Option V := c.links.get? hash key

def contains [BEq K] (c : Chain S K V) (hash : UInt64) (key : K) : Bool :=
  c.links.contains hash key

/-- Puts `e` in front without looking for another entry with its hash and key. -/
def push (c : Chain S K V) (e : Entry K V) : Chain S K V :=
  ⟨c.links.push e, (c.linked.push e).1⟩

/-- Rewrites the value for `key` under `hash`, answering by `f` on the value. -/
def modify [BEq K] (c : Chain S K V) (hash : UInt64) (key : K) (f : V → β × V) :
    Option β × Chain S K V :=
  let r := c.links.modify hash key f
  (r.1, ⟨r.2, (c.linked.update _ f).1⟩)

/-- Replaces the value of the entry with the hash and key of `e`, answering the value replaced, or
puts `e` in front if there is none. -/
def insert [BEq K] (c : Chain S K V) (e : Entry K V) : Option V × Chain S K V :=
  let r := c.links.insert e
  (r.1, ⟨r.2, (c.linked.insert e).1⟩)

/-- Takes out the entry for `key` under `hash`. -/
def remove [BEq K] (c : Chain S K V) (hash : UInt64) (key : K) : Option (Entry K V) × Chain S K V :=
  let r := c.links.remove hash key
  (r.1, ⟨r.2, (c.linked.takeOut _).1⟩)

/-- Takes out every entry at once. -/
def clear (c : Chain S K V) : Chain S K V := ⟨c.links.clear, c.links.linked_clear⟩

variable {σ : Type w}

theorem drain_linked (c : Chain S K V) (accept : Entry K V → σ → Except Panic Unit × σ) (s : σ) :
    (c.links.drain accept s).2.1.Linked := by
  obtain ⟨c', hl, -, he⟩ := c.linked.drain accept s
  rw [he]
  exact hl

/-- Takes out every entry from the front, handing each to `accept`, which works on a state of its
own. If `accept` gives up, the entry it was handed is gone and the others stay. -/
def drain (accept : Entry K V → σ → Except Panic Unit × σ) (c : Chain S K V) (s : σ) :
    Except Panic Unit × Chain S K V × σ :=
  let r := c.links.drain accept s
  (r.1, ⟨r.2.1, c.drain_linked accept s⟩, r.2.2)

/-- The entries in the order in which a drain hands them over. -/
def drained (c : Chain S K V) : Except Panic (List (Entry K V)) :=
  match c.drain (fun e taken => (.ok (), e :: taken)) [] with
  | (.ok (), _, taken) => .ok taken.reverse
  | (.error p, _, _) => .error p

/-! ### Places -/

/-- A place in a chain, at which a walk stands. -/
abbrev Place (H : Type) := Option H

/-- The place of the entry in front. -/
def first (c : Chain S K V) : Place H := c.links.head

/-- The entry at a place. -/
def entryAt (c : Chain S K V) (place : Place H) : Option (Entry K V) := c.links.entryAt place

/-- The place after a place. -/
def after (c : Chain S K V) (place : Place H) : Place H := c.links.after place

/-! ### Laws -/

theorem size_eq (c : Chain S K V) : c.size = c.toList.length := c.linked.size

theorem isEmpty_iff {c : Chain S K V} : c.isEmpty = true ↔ c.toList = [] := by
  rw [isEmpty, size_eq, beq_iff_eq, List.length_eq_zero_iff]

@[simp] theorem toList_empty : (∅ : Chain S K V).toList = [] :=
  Links.linkedBy_empty.toList

@[simp] theorem size_empty : (∅ : Chain S K V).size = 0 := LawfulStorage.size_empty

@[simp] theorem toList_push (c : Chain S K V) (e : Entry K V) :
    (c.push e).toList = e :: c.toList :=
  (c.linked.push e).2

@[simp] theorem toList_clear (c : Chain S K V) : c.clear.toList = [] := c.links.toList_clear

theorem lookup_eq [BEq K] (c : Chain S K V) (hash : UInt64) (key : K) :
    c.lookup hash key = c.toList.find? (Entry.isFor hash key) :=
  c.linked.find? _

theorem get?_eq [BEq K] (c : Chain S K V) (hash : UInt64) (key : K) :
    c.get? hash key = (c.toList.find? (Entry.isFor hash key)).map Entry.value :=
  congrArg (Option.map Entry.value) (c.lookup_eq hash key)

theorem contains_eq [BEq K] (c : Chain S K V) (hash : UInt64) (key : K) :
    c.contains hash key = (c.toList.find? (Entry.isFor hash key)).isSome :=
  congrArg Option.isSome (c.lookup_eq hash key)

theorem modify_fst [BEq K] (c : Chain S K V) (hash : UInt64) (key : K) (f : V → β × V) :
    (c.modify hash key f).1 =
      (c.toList.find? (Entry.isFor hash key)).map fun e => (f e.value).1 :=
  (c.linked.update _ f).2.1

theorem toList_modify [BEq K] (c : Chain S K V) (hash : UInt64) (key : K) (f : V → β × V) :
    (c.modify hash key f).2.toList =
      Entry.rewriteFirst (Entry.isFor hash key) (fun e => { e with value := (f e.value).2 })
        c.toList :=
  (c.linked.update _ f).2.2

theorem insert_fst [BEq K] (c : Chain S K V) (e : Entry K V) :
    (c.insert e).1 = (c.toList.find? (Entry.isFor e.hash e.key)).map Entry.value :=
  (c.linked.insert e).2.1

theorem toList_insert [BEq K] (c : Chain S K V) (e : Entry K V) :
    (c.insert e).2.toList =
      match c.toList.find? (Entry.isFor e.hash e.key) with
      | some _ => Entry.rewriteFirst (Entry.isFor e.hash e.key)
          (fun old => { old with value := e.value }) c.toList
      | none => e :: c.toList :=
  (c.linked.insert e).2.2

theorem remove_fst [BEq K] (c : Chain S K V) (hash : UInt64) (key : K) :
    (c.remove hash key).1 = c.toList.find? (Entry.isFor hash key) :=
  (c.linked.takeOut _).2.1

theorem toList_remove [BEq K] (c : Chain S K V) (hash : UInt64) (key : K) :
    (c.remove hash key).2.toList = c.toList.eraseP (Entry.isFor hash key) :=
  (c.linked.takeOut _).2.2

theorem drain_eq (c : Chain S K V) (accept : Entry K V → σ → Except Panic Unit × σ) (s : σ) :
    ((c.drain accept s).1, (c.drain accept s).2.1.toList, (c.drain accept s).2.2) =
      Entry.handOver accept c.toList s := by
  obtain ⟨c', -, hlist, he⟩ := c.linked.drain accept s
  simp only [drain, toList, he]
  rw [hlist]

/-- A drain hands over the entries in chain order. -/
theorem drained_eq (c : Chain S K V) : c.drained = .ok c.toList := by
  have hall : ∀ (es taken : List (Entry K V)),
      Entry.handOver (fun e taken => (.ok (), e :: taken)) es taken =
        (.ok (), [], es.reverse ++ taken) := by
    intro es
    induction es with
    | nil => intro taken; rfl
    | cons e rest ih => intro taken; simp [Entry.handOver, ih]
  have hd := c.drain_eq (fun e taken => (.ok (), e :: taken)) []
  rw [hall] at hd
  unfold drained
  rcases hr : c.drain (fun e taken => (.ok (), e :: taken)) [] with ⟨r, left, taken⟩
  rw [hr] at hd
  simp only [Prod.mk.injEq] at hd
  obtain ⟨rfl, -, rfl⟩ := hd
  simp

end Chain

end ShardedMap
