import ShardedMap.Count
/-
  Acts of several workers in one row. Each act stands beside the number of its worker, and `runEach`
  does them one after another. If an act sees and changes no more than one cell of a state
  (`Cellwise`), and no cell is used by two workers, then a worker is answered as if it were alone
  (`Cellwise.alone`), and rows that differ in the order of workers only lead to the same answers and
  the same cells (`Cellwise.interleave`).
-/
namespace ShardedMap

/-! ## What is of one worker -/

/-- What is of worker `t` in a list of what several workers did. -/
def ofWorker {α : Type} (t : Nat) (log : List (Nat × α)) : List α :=
  (log.filter (·.1 == t)).map Prod.snd

theorem ofWorker_append {α : Type} (t : Nat) (l r : List (Nat × α)) :
    ofWorker t (l ++ r) = ofWorker t l ++ ofWorker t r := by
  unfold ofWorker
  rw [List.filter_append, List.map_append]

theorem ofWorker_cons_self {α : Type} (t : Nat) (a : α) (log : List (Nat × α)) :
    ofWorker t ((t, a) :: log) = a :: ofWorker t log := by
  unfold ofWorker
  rw [List.filter_cons_of_pos (by simp), List.map_cons]

theorem ofWorker_cons_ne {α : Type} {t u : Nat} (h : u ≠ t) (a : α) (log : List (Nat × α)) :
    ofWorker t ((u, a) :: log) = ofWorker t log := by
  unfold ofWorker
  rw [List.filter_cons_of_neg (by simpa using h)]

theorem ofWorker_self {α : Type} (t : Nat) (l : List α) :
    ofWorker t (l.map fun a => (t, a)) = l := by
  induction l with
  | nil => rfl
  | cons a l ih => rw [List.map_cons, ofWorker_cons_self, ih]

theorem ofWorker_ne {α : Type} {t u : Nat} (h : t ≠ u) (l : List α) :
    ofWorker u (l.map fun a => (t, a)) = [] := by
  induction l with
  | nil => rfl
  | cons a l ih => rw [List.map_cons, ofWorker_cons_ne h, ih]

theorem mem_ofWorker {α : Type} {t : Nat} {a : α} {log : List (Nat × α)} :
    a ∈ ofWorker t log ↔ (t, a) ∈ log := by
  simp [ofWorker]

theorem ofWorker_map {α β : Type} (f : α → β) (t : Nat) (log : List (Nat × α)) :
    ofWorker t (log.map fun x => (x.1, f x.2)) = (ofWorker t log).map f := by
  unfold ofWorker
  rw [List.filter_map, List.map_map, List.map_map]
  rfl

/-! ## Several lists in one row -/

/-- `log` mixes `programs`: what is of worker `t` in it is program `t`. -/
def Interleaves {α : Type} (log : List (Nat × α)) (programs : List (List α)) : Prop :=
  ∀ t, ofWorker t log = programs.getD t []

/-- Programs one after another, in this order of workers. -/
def inOrder {α : Type} (programs : List (List α)) (order : List Nat) : List (Nat × α) :=
  order.flatMap fun t => (programs.getD t []).map fun a => (t, a)

theorem ofWorker_inOrder {α : Type} (programs : List (List α)) {order : List Nat}
    (h : order.Nodup) (t : Nat) :
    ofWorker t (inOrder programs order) = if t ∈ order then programs.getD t [] else [] := by
  induction order with
  | nil => rfl
  | cons u rest ih =>
    obtain ⟨hu, hrest⟩ := List.nodup_cons.1 h
    show ofWorker t (((programs.getD u []).map fun a => (u, a)) ++ inOrder programs rest) = _
    rw [ofWorker_append, ih hrest]
    by_cases htu : t = u
    · subst htu
      rw [ofWorker_self, if_neg hu, if_pos List.mem_cons_self, List.append_nil]
    · rw [ofWorker_ne (Ne.symm htu), List.nil_append]
      simp only [List.mem_cons, htu, false_or]

theorem getD_of_length_le {α : Type} {programs : List (List α)} {t : Nat}
    (h : programs.length ≤ t) : programs.getD t [] = [] := by
  rw [List.getD_eq_getElem?_getD, List.getElem?_eq_none h]
  rfl

theorem interleaves_inOrder {α : Type} {programs : List (List α)} {order : List Nat}
    (h : order.Perm (List.range programs.length)) :
    Interleaves (inOrder programs order) programs := by
  intro t
  rw [ofWorker_inOrder programs (h.nodup_iff.2 List.nodup_range)]
  split
  · rfl
  · next ht =>
    rw [h.mem_iff, List.mem_range, Nat.not_lt] at ht
    exact (getD_of_length_le ht).symm

theorem Interleaves.mem {α : Type} {log : List (Nat × α)} {programs : List (List α)}
    (h : Interleaves log programs) {x : Nat × α} (hx : x ∈ log) :
    x.2 ∈ programs.getD x.1 [] := by
  rw [← h x.1]
  exact mem_ofWorker.2 hx

/-! ## Acts on cells -/

section Cells

variable {S Op A C X : Type}

/-- Does acts one after another, with each answer beside the number of the worker. -/
def runEach (act : Op → S → A × S) : List (Nat × Op) → S → List (Nat × A) × S
  | [], s => ([], s)
  | (t, op) :: rest, s =>
    let (answer, s) := act op s
    let (answers, s) := runEach act rest s
    ((t, answer) :: answers, s)

/-- On states with `Inv`, each act sees and changes no more than one cell. -/
structure Cellwise (act : Op → S → A × S) (cell : Op → C) (view : S → C → X)
    (Inv : S → Prop) : Prop where
  keeps : ∀ op {s}, Inv s → Inv (act op s).2
  answer : ∀ op {s s'}, Inv s → Inv s' → view s (cell op) = view s' (cell op) →
    (act op s).1 = (act op s').1
  inside : ∀ op {s s'}, Inv s → Inv s' → view s (cell op) = view s' (cell op) →
    view (act op s).2 (cell op) = view (act op s').2 (cell op)
  outside : ∀ op {s} {c : C}, Inv s → c ≠ cell op → view (act op s).2 c = view s c

namespace Cellwise

variable {act : Op → S → A × S} {cell : Op → C} {view : S → C → X} {Inv : S → Prop}

theorem untouched (h : Cellwise act cell view Inv) {log : List (Nat × Op)} {c : C}
    (hc : ∀ x ∈ log, c ≠ cell x.2) {s : S} (hs : Inv s) :
    view (runEach act log s).2 c = view s c := by
  induction log generalizing s with
  | nil => rfl
  | cons x rest ih =>
    obtain ⟨hx, hrest⟩ := List.forall_mem_cons.1 hc
    exact (ih hrest (h.keeps x.2 hs)).trans (h.outside x.2 hs hx)

/-- Where the acts of worker `t` are those on the cells `D`, it does not matter to the worker and to
these cells what others do. -/
theorem alone (h : Cellwise act cell view Inv) {t : Nat} {D : C → Prop} {log : List (Nat × Op)}
    (hown : ∀ x ∈ log, x.1 = t ↔ D (cell x.2)) {s s' : S} (hs : Inv s) (hs' : Inv s')
    (hview : ∀ c, D c → view s c = view s' c) :
    let solo := (ofWorker t log).map fun op => (t, op)
    ofWorker t (runEach act log s).1 = ofWorker t (runEach act solo s').1 ∧
      ∀ c, D c → view (runEach act log s).2 c = view (runEach act solo s').2 c := by
  induction log generalizing s s' with
  | nil => exact ⟨rfl, hview⟩
  | cons x rest ih =>
    obtain ⟨u, op⟩ := x
    obtain ⟨hop, hrest⟩ := List.forall_mem_cons.1 hown
    have hnext := h.keeps op hs
    by_cases hu : u = t
    · subst hu
      have hcell := hview (cell op) (hop.1 rfl)
      have hview' : ∀ c, D c → view (act op s).2 c = view (act op s').2 c := by
        intro c hc
        by_cases hcop : c = cell op
        · rw [hcop]
          exact h.inside op hs hs' hcell
        · rw [h.outside op hs hcop, h.outside op hs' hcop]
          exact hview c hc
      obtain ⟨hanswers, hcells⟩ := ih hrest hnext (h.keeps op hs') hview'
      simp only [ofWorker_cons_self, List.map_cons, runEach]
      exact ⟨by rw [h.answer op hs hs' hcell, hanswers], hcells⟩
    · -- The act of another worker is outside the cells of this one.
      have hview' : ∀ c, D c → view (act op s).2 c = view s' c := by
        intro c hc
        have hcop : c ≠ cell op := by
          rintro rfl
          exact hu (hop.2 hc)
        rw [h.outside op hs hcop]
        exact hview c hc
      obtain ⟨hanswers, hcells⟩ := ih hrest hnext hs' hview'
      simp only [ofWorker_cons_ne hu, runEach]
      exact ⟨hanswers, hcells⟩

/-- If no cell is used by two workers, then the order of acts of different workers does not matter:
each worker is given the same answers, and every cell ends the same. -/
theorem interleave (h : Cellwise act cell view Inv) {log log' : List (Nat × Op)}
    (hsame : ∀ t, ofWorker t log = ofWorker t log')
    (hapart : ∀ x ∈ log, ∀ y ∈ log, x.1 ≠ y.1 → cell x.2 ≠ cell y.2) {s : S} (hs : Inv s) :
    (∀ t, ofWorker t (runEach act log s).1 = ofWorker t (runEach act log' s).1) ∧
      ∀ c, view (runEach act log s).2 c = view (runEach act log' s).2 c := by
  let used : Nat → C → Prop := fun t c => ∃ x ∈ log, x.1 = t ∧ cell x.2 = c
  have hmem : ∀ x, x ∈ log' ↔ x ∈ log := by
    intro x
    rw [← mem_ofWorker (t := x.1), ← mem_ofWorker (t := x.1), hsame]
  have hown : ∀ t, ∀ x ∈ log, x.1 = t ↔ used t (cell x.2) := by
    intro t x hx
    constructor
    · exact fun ht => ⟨x, hx, ht, rfl⟩
    · rintro ⟨y, hy, rfl, hcell⟩
      exact Decidable.of_not_not fun hne => hapart x hx y hy hne hcell.symm
  have hown' : ∀ t, ∀ x ∈ log', x.1 = t ↔ used t (cell x.2) :=
    fun t x hx => hown t x ((hmem x).1 hx)
  constructor
  · intro t
    have hone := (h.alone (hown t) hs hs fun _ _ => rfl).1
    have hother := (h.alone (hown' t) hs hs fun _ _ => rfl).1
    rw [hone, hother, hsame t]
  · intro c
    by_cases hc : ∃ x ∈ log, cell x.2 = c
    · obtain ⟨x, hx, rfl⟩ := hc
      have hused : used x.1 (cell x.2) := ⟨x, hx, rfl, rfl⟩
      have hone := (h.alone (hown x.1) hs hs fun _ _ => rfl).2 _ hused
      have hother := (h.alone (hown' x.1) hs hs fun _ _ => rfl).2 _ hused
      rw [hone, hother, hsame x.1]
    · have hnone : ∀ x ∈ log, c ≠ cell x.2 := fun x hx hcell => hc ⟨x, hx, hcell.symm⟩
      rw [h.untouched hnone hs, h.untouched (fun x hx => hnone x ((hmem x).1 hx)) hs]

end Cellwise

end Cells

end ShardedMap
