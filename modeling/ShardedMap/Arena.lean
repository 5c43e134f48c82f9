/-
  Generational arena: values stored in numbered cells that are used again after an erasure. A handle
  names a cell together with the generation it was handed out in, and erasing a value starts the
  next generation of its cell. Hence a new handle is never live before its insertion
  (`get?_insert_fresh`), even when its cell is used again. There is no limit to the number of cells.
-/
namespace ShardedMap

universe u

/-- The name of a stored value: its cell and the generation of that cell. -/
@[ext] structure Handle where
  index : Nat
  generation : Nat
deriving DecidableEq

/-- A cell in its current generation, holding a value or vacant. -/
structure Arena.Cell (α : Type u) where
  generation : Nat
  content : Option α

/-- Cells, the indices of vacant ones that are used before new cells are made, and the number of
values stored. -/
structure Arena (α : Type u) where
  cells : Array (Arena.Cell α)
  vacant : List Nat
  size : Nat

namespace Arena

variable {α : Type u}

def empty : Arena α := ⟨#[], [], 0⟩

/-- The value under a live handle. -/
def get? (a : Arena α) (h : Handle) : Option α :=
  match a.cells[h.index]? with
  | some cell => if cell.generation = h.generation then cell.content else none
  | none => none

/-- Stores `x` in a new cell. -/
def append (a : Arena α) (x : α) : Handle × Arena α :=
  (⟨a.cells.size, 0⟩, { a with cells := a.cells.push ⟨0, some x⟩, size := a.size + 1 })

/-- Stores `x` in the cell vacated last, or in a new cell if none is vacant. -/
def insert (a : Arena α) (x : α) : Handle × Arena α :=
  match a.vacant with
  | [] => a.append x
  | i :: rest =>
    match a.cells[i]? with
    | some ⟨g, none⟩ =>
      (⟨i, g⟩, ⟨a.cells.setIfInBounds i ⟨g, some x⟩, rest, a.size + 1⟩)
    | _ => a.append x

/-- Replaces the value under a live handle. -/
def set (a : Arena α) (h : Handle) (x : α) : Arena α :=
  match a.get? h with
  | some _ => { a with cells := a.cells.setIfInBounds h.index ⟨h.generation, some x⟩ }
  | none => a

/-- Vacates the cell of a live handle and starts the cell's next generation. -/
def erase (a : Arena α) (h : Handle) : Arena α :=
  match a.get? h with
  | some _ =>
    ⟨a.cells.setIfInBounds h.index ⟨h.generation + 1, none⟩, h.index :: a.vacant, a.size - 1⟩
  | none => a

/-- Vacates every cell. -/
def clear (a : Arena α) : Arena α where
  cells := a.cells.map fun cell =>
    match cell.content with
    | some _ => ⟨cell.generation + 1, none⟩
    | none => cell
  vacant := List.range a.cells.size
  size := 0

theorem get?_empty (h : Handle) : (empty : Arena α).get? h = none := rfl

theorem cell_of_get? {a : Arena α} {h : Handle} {x : α} (hx : a.get? h = some x) :
    a.cells[h.index]? = some ⟨h.generation, some x⟩ := by
  unfold get? at hx
  split at hx
  · rename_i cell hc
    split at hx
    · rename_i hg
      rw [hc, ← hg, ← hx]
    · cases hx
  · cases hx

/-- Replacing the content of one cell decides what handles of that cell name, and no others. -/
theorem get?_of_cells_eq_set {a b : Arena α} {i : Nat} {cell : Cell α} (hi : i < a.cells.size)
    (hb : b.cells = a.cells.setIfInBounds i cell) (h : Handle) :
    b.get? h = if h.index = i then (if cell.generation = h.generation then cell.content else none)
      else a.get? h := by
  unfold get?
  rw [hb, Array.getElem?_setIfInBounds]
  by_cases hh : h.index = i
  · rw [if_pos hh.symm, if_pos hh, if_pos hi]
  · rw [if_neg (Ne.symm hh), if_neg hh]

theorem get?_append (a : Arena α) (x : α) (h : Handle) :
    (a.append x).2.get? h = if h = (a.append x).1 then some x else a.get? h := by
  obtain ⟨i, g⟩ := h
  simp only [append, get?, Array.getElem?_push, Handle.mk.injEq]
  by_cases hi : i = a.cells.size
  · subst hi
    by_cases hg : g = 0
    · simp [hg]
    · simp [hg, Ne.symm hg]
  · simp [hi]

theorem get?_append_fresh (a : Arena α) (x : α) : a.get? (a.append x).1 = none := by
  simp [append, get?]

/-- The two ways of an insertion: into a vacant cell, or as a new cell. -/
theorem insert_cases (a : Arena α) (x : α) :
    (∃ i rest g, a.cells[i]? = some ⟨g, none⟩ ∧
      a.insert x = (⟨i, g⟩, ⟨a.cells.setIfInBounds i ⟨g, some x⟩, rest, a.size + 1⟩)) ∨
    a.insert x = a.append x := by
  unfold insert
  split
  · exact Or.inr rfl
  · rename_i i rest hv
    split
    · rename_i g hc
      exact Or.inl ⟨i, rest, g, hc, rfl⟩
    · exact Or.inr rfl

/-- Insertion adds one live handle and keeps what the others name. -/
theorem get?_insert (a : Arena α) (x : α) (h : Handle) :
    (a.insert x).2.get? h = if h = (a.insert x).1 then some x else a.get? h := by
  rcases insert_cases a x with ⟨i, rest, g, hc, he⟩ | he
  · have hlt : i < a.cells.size := (Array.getElem?_eq_some_iff.1 hc).1
    rw [he, get?_of_cells_eq_set hlt rfl]
    obtain ⟨j, g'⟩ := h
    by_cases hj : j = i
    · subst hj
      by_cases hg : g = g'
      · simp [hg]
      · simp [hg, Ne.symm hg, get?, hc]
    · simp [hj]
  · rw [he]
    exact get?_append a x h

theorem get?_insert_fresh (a : Arena α) (x : α) : a.get? (a.insert x).1 = none := by
  rcases insert_cases a x with ⟨i, rest, g, hc, he⟩ | he
  · rw [he]
    simp [get?, hc]
  · rw [he]
    exact get?_append_fresh a x

theorem size_insert (a : Arena α) (x : α) : (a.insert x).2.size = a.size + 1 := by
  rcases insert_cases a x with ⟨i, rest, g, hc, he⟩ | he
  · rw [he]
  · rw [he]
    rfl

theorem get?_set {a : Arena α} {h : Handle} {y : α} (hy : a.get? h = some y) (x : α)
    (h' : Handle) : (a.set h x).get? h' = if h' = h then some x else a.get? h' := by
  have hc := cell_of_get? hy
  have hlt : h.index < a.cells.size := (Array.getElem?_eq_some_iff.1 hc).1
  have hs : (a.set h x).cells = a.cells.setIfInBounds h.index ⟨h.generation, some x⟩ := by
    simp [set, hy]
  rw [get?_of_cells_eq_set hlt hs]
  by_cases hh : h' = h
  · simp [hh]
  · by_cases hi : h'.index = h.index
    · have hg : ¬ h.generation = h'.generation := fun hg => hh (Handle.ext hi hg.symm)
      simp [hh, hi, hg, get?, hc]
    · simp [hh, hi]

theorem size_set (a : Arena α) (h : Handle) (x : α) : (a.set h x).size = a.size := by
  unfold set
  split <;> rfl

/-- Erasure ends one handle and keeps what the others name. -/
theorem get?_erase (a : Arena α) (h h' : Handle) :
    (a.erase h).get? h' = if h' = h then none else a.get? h' := by
  cases hx : a.get? h with
  | none =>
    by_cases hh : h' = h
    · simp [erase, hx, hh]
    · simp [erase, hx, hh]
  | some x =>
    have hc := cell_of_get? hx
    have hlt : h.index < a.cells.size := (Array.getElem?_eq_some_iff.1 hc).1
    have hs : (a.erase h).cells = a.cells.setIfInBounds h.index ⟨h.generation + 1, none⟩ := by
      simp [erase, hx]
    rw [get?_of_cells_eq_set hlt hs]
    by_cases hh : h' = h
    · simp [hh]
    · by_cases hi : h'.index = h.index
      · have hg : ¬ h.generation = h'.generation := fun hg => hh (Handle.ext hi hg.symm)
        simp [hh, hi, hg, get?, hc]
      · simp [hh, hi]

theorem size_erase {a : Arena α} {h : Handle} {x : α} (hx : a.get? h = some x) :
    (a.erase h).size = a.size - 1 := by
  simp [erase, hx]

theorem get?_clear (a : Arena α) (h : Handle) : a.clear.get? h = none := by
  simp only [get?, clear, Array.getElem?_map]
  cases a.cells[h.index]? with
  | none => rfl
  | some cell =>
    obtain ⟨g, x⟩ := cell
    cases x <;> simp

end Arena

end ShardedMap
