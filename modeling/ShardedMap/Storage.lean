import ShardedMap.Arena
/-
  What linked nodes ask of the storage that holds them: a partial map from handles to values
  (`LawfulStorage`). An insertion always succeeds and chooses the handle, which is not live before
  it; how it chooses, and what it does with handles whose values were erased, is left to the
  storage. The generational arena is one.
-/
namespace ShardedMap

universe u

/-- Values of one type under handles in `H`. -/
class Storage (S : Type u → Type u) (H : outParam Type) where
  empty {α : Type u} : S α
  /-- The number of values stored. -/
  size {α : Type u} : S α → Nat
  /-- The value under a live handle. -/
  get? {α : Type u} : S α → H → Option α
  /-- Stores a value under a handle of the storage's choice. -/
  insert {α : Type u} : S α → α → H × S α
  /-- Replaces the value under a live handle. -/
  set {α : Type u} : S α → H → α → S α
  /-- Takes the value under a live handle out. -/
  erase {α : Type u} : S α → H → S α
  /-- Takes every value out. -/
  clear {α : Type u} : S α → S α

/-- A storage that is a partial map, and hands out handles that are not live. -/
class LawfulStorage (S : Type u → Type u) (H : outParam Type) [DecidableEq H] [Storage S H] :
    Prop where
  get?_empty {α : Type u} (h : H) : Storage.get? (Storage.empty : S α) h = none
  size_empty {α : Type u} : Storage.size (Storage.empty : S α) = 0
  get?_insert {α : Type u} (a : S α) (x : α) (h : H) :
    Storage.get? (Storage.insert a x).2 h =
      if h = (Storage.insert a x).1 then some x else Storage.get? a h
  get?_insert_fresh {α : Type u} (a : S α) (x : α) :
    Storage.get? a (Storage.insert a x).1 = none
  size_insert {α : Type u} (a : S α) (x : α) :
    Storage.size (Storage.insert a x).2 = Storage.size a + 1
  get?_set {α : Type u} {a : S α} {h : H} {y : α} (hy : Storage.get? a h = some y) (x : α)
    (h' : H) : Storage.get? (Storage.set a h x) h' = if h' = h then some x else Storage.get? a h'
  size_set {α : Type u} (a : S α) (h : H) (x : α) :
    Storage.size (Storage.set a h x) = Storage.size a
  get?_erase {α : Type u} (a : S α) (h h' : H) :
    Storage.get? (Storage.erase a h) h' = if h' = h then none else Storage.get? a h'
  size_erase {α : Type u} {a : S α} {h : H} {x : α} (hx : Storage.get? a h = some x) :
    Storage.size (Storage.erase a h) = Storage.size a - 1
  get?_clear {α : Type u} (a : S α) (h : H) : Storage.get? (Storage.clear a) h = none
  size_clear {α : Type u} (a : S α) : Storage.size (Storage.clear a) = 0

instance : Storage Arena Handle where
  empty := Arena.empty
  size := Arena.size
  get? := Arena.get?
  insert := Arena.insert
  set := Arena.set
  erase := Arena.erase
  clear := Arena.clear

instance : LawfulStorage Arena Handle where
  get?_empty := Arena.get?_empty
  size_empty := rfl
  get?_insert := Arena.get?_insert
  get?_insert_fresh := Arena.get?_insert_fresh
  size_insert := Arena.size_insert
  get?_set := Arena.get?_set
  size_set := Arena.size_set
  get?_erase := Arena.get?_erase
  size_erase := Arena.size_erase
  get?_clear := Arena.get?_clear
  size_clear _ := rfl

end ShardedMap
