/-
  Sums of counts over lists, in which the totals of slots, shards and maps are said.
-/
namespace ShardedMap

universe u v

/-- The sum of `f` over a list. -/
def sumOver {α : Type u} (f : α → Nat) : List α → Nat
  | [] => 0
  | a :: rest => f a + sumOver f rest

@[simp] theorem sumOver_nil {α : Type u} (f : α → Nat) : sumOver f [] = 0 := rfl

@[simp] theorem sumOver_cons {α : Type u} (f : α → Nat) (a : α) (rest : List α) :
    sumOver f (a :: rest) = f a + sumOver f rest := rfl

@[simp] theorem sumOver_append {α : Type u} (f : α → Nat) (l r : List α) :
    sumOver f (l ++ r) = sumOver f l + sumOver f r := by
  induction l with
  | nil => simp
  | cons a l ih => simp [ih, Nat.add_assoc]

theorem sumOver_map {α : Type u} {β : Type v} (f : β → Nat) (g : α → β) (l : List α) :
    sumOver f (l.map g) = sumOver (fun a => f (g a)) l := by
  induction l with
  | nil => rfl
  | cons a l ih => rw [List.map_cons, sumOver_cons, sumOver_cons, ih]

theorem sumOver_length {α : Type u} {β : Type v} (f : α → List β) (l : List α) :
    sumOver (fun a => (f a).length) l = (l.flatMap f).length := by
  induction l with
  | nil => rfl
  | cons a l ih => rw [sumOver_cons, ih, List.flatMap_cons, List.length_append]

end ShardedMap
