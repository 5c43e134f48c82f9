import ShardedMap.Panic
/-
  Entries: a key and a value, with the hash under which the key was stored. Two entries are told
  apart by hash and key together, so an equal key under another hash is another entry.
-/
namespace ShardedMap

universe u v w

/-- One association, with the hash given for its key when it was stored. -/
structure Entry (K : Type u) (V : Type v) where
  key : K
  hash : UInt64
  value : V

namespace Entry

variable {K : Type u} {V : Type v}

/-- `e` is the entry that a lookup of `key` under `hash` asks for. -/
def isFor [BEq K] (hash : UInt64) (key : K) (e : Entry K V) : Bool :=
  e.hash == hash && e.key == key

/-- The association without its hash. -/
def pair (e : Entry K V) : K × V := (e.key, e.value)

/-- Rewrites the first entry of a list that satisfies `p`. -/
def rewriteFirst (p : Entry K V → Bool) (g : Entry K V → Entry K V) :
    List (Entry K V) → List (Entry K V)
  | [] => []
  | e :: rest => if p e then g e :: rest else e :: rewriteFirst p g rest

theorem rewriteFirst_of_none {p : Entry K V → Bool} {g : Entry K V → Entry K V}
    {es : List (Entry K V)} (h : ∀ e ∈ es, p e = false) : rewriteFirst p g es = es := by
  induction es with
  | nil => rfl
  | cons e rest ih =>
    rw [rewriteFirst, h e List.mem_cons_self, ih fun x hx => h x (List.mem_cons_of_mem _ hx)]
    rfl

theorem rewriteFirst_of_some {p : Entry K V → Bool} {g : Entry K V → Entry K V}
    {l r : List (Entry K V)} {e : Entry K V} (hl : ∀ x ∈ l, p x = false) (he : p e = true) :
    rewriteFirst p g (l ++ e :: r) = l ++ g e :: r := by
  induction l with
  | nil => simp [rewriteFirst, he]
  | cons x l ih =>
    rw [List.cons_append, rewriteFirst, hl x List.mem_cons_self,
      ih fun y hy => hl y (List.mem_cons_of_mem _ hy)]
    rfl

theorem find?_of_none {p : Entry K V → Bool} {es : List (Entry K V)}
    (h : ∀ e ∈ es, p e = false) : es.find? p = none :=
  List.find?_eq_none.2 fun e he => by simp [h e he]

/-- Hands entries over in order, with those that are left when the receiver gives up. -/
def handOver {σ : Type w} (accept : Entry K V → σ → Except Panic Unit × σ) :
    List (Entry K V) → σ → Except Panic Unit × List (Entry K V) × σ
  | [], s => (.ok (), [], s)
  | e :: rest, s =>
    match accept e s with
    | (.ok (), s) => handOver accept rest s
    | (.error p, s) => (.error p, rest, s)

theorem handOver_left_of_ok {σ : Type w} {accept : Entry K V → σ → Except Panic Unit × σ}
    {es : List (Entry K V)} {s : σ} (h : (handOver accept es s).1 = .ok ()) :
    (handOver accept es s).2.1 = [] := by
  induction es generalizing s with
  | nil => rfl
  | cons e rest ih =>
    unfold handOver at h ⊢
    split
    · rename_i hs
      rw [hs] at h
      exact ih h
    · rename_i hs
      rw [hs] at h
      cases h

end Entry

end ShardedMap
