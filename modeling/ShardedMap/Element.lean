/-
  Work on one element of an array. The element is out of the array while the work goes on and a
  stand-in is in its place, so the work alone holds the element and may change it where it is.
  `workAt_eq` says that nothing is seen of the stand-in afterwards.
-/
namespace ShardedMap

universe u v

/-- Puts what work left of an element at place `i`, beside what the work answered. -/
@[noinline] def putBack {α : Type u} {β : Type v} (xs : Array β) (i : Nat) (done : α × β) :
    α × Array β :=
  (done.1, xs.setIfInBounds i done.2)

/-- Works on the element at place `i`, for which `standIn` stands in meanwhile. -/
def workAt {α : Type u} {β : Type v} (xs : Array β) (i : Nat) (h : i < xs.size)
    (standIn : β → β) (f : β → α × β) : α × Array β :=
  let x := xs[i]
  putBack (xs.set i (standIn x)) i (f x)

theorem workAt_eq {α : Type u} {β : Type v} (xs : Array β) (i : Nat) (h : i < xs.size)
    (standIn : β → β) (f : β → α × β) :
    workAt xs i h standIn f = ((f xs[i]).1, xs.set i (f xs[i]).2) := by
  simp [workAt, putBack, Array.setIfInBounds, h]

theorem size_workAt {α : Type u} {β : Type v} (xs : Array β) (i : Nat) (h : i < xs.size)
    (standIn : β → β) (f : β → α × β) : (workAt xs i h standIn f).2.size = xs.size := by
  simp [workAt_eq]

end ShardedMap
