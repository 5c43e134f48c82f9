import ShardedMap.Policy.Basic
import ShardedMap.Proofs.Slots.Contents
/-
  Resizing. The drain loses nothing (`gather_eq`), placing an entry adds it in front of the chain of
  its home and nowhere else (`chainAt_place`), so a resize to a positive count never fails
  (`resize_of_pos`): the chain of slot `j` is the reverse of what the old chains held for `j`, and
  all entries are those of before. A plan is carried out target by target; it can only stop at a
  target of zero (`carryOut_placed`, `carryOut_ok`).
-/
namespace ShardedMap

universe u v

namespace Slots

variable {S : Type (max u v) → Type (max u v)} {H : Type} [DecidableEq H] [Storage S H]
  [LawfulStorage S H]
variable {K : Type u} {V : Type v}

/-! ## Gathering -/

theorem gatherFrom_eq (chains : List (Chain S K V)) (taken : List (Entry K V))
    (left : Slots S K V) :
    gatherFrom taken left chains =
      (.ok (taken.reverse ++ chains.flatMap Chain.toList), left ++ vacant chains.length) := by
  induction chains generalizing taken left with
  | nil => simp [gatherFrom, vacant]
  | cons c rest ih =>
    unfold gatherFrom
    rw [Chain.drained_eq]
    simp only [ih, List.reverse_append, List.reverse_reverse, List.append_assoc,
      List.flatMap_cons, List.length_cons]
    rw [Array.push_eq_append, Array.append_assoc, vacant, vacant, ← Array.replicate_one,
      Array.replicate_append_replicate, Nat.add_comm]

theorem gather_eq (slots : Slots S K V) :
    slots.gather = (.ok slots.entries, vacant slots.size) := by
  rw [gather, gatherFrom_eq]
  simp [entries]

theorem fitted_vacant (size count : Nat) :
    (vacant size : Slots S K V).fitted count = vacant count := by
  unfold fitted
  rw [vacant, Array.size_replicate]
  split
  · rename_i h
    rw [vacant, Array.replicate_append_replicate, Nat.add_sub_cancel' (Nat.le_of_lt h), vacant]
  · rfl

/-! ## Placing -/

theorem size_place (count : Nat) (slots : Slots S K V) (e : Entry K V) :
    (place count slots e).size = slots.size := by
  simp [place]

theorem place_eq_set {slots : Slots S K V} (h : 0 < slots.size) (e : Entry K V) :
    place slots.size slots e = slots.setIfInBounds (home e.hash slots.size)
      ((slots.chainAt (home e.hash slots.size)).push e) := by
  have hlt := home_lt e.hash h
  unfold place
  rw [chainAt_of_lt hlt]
  apply Array.ext
  · simp
  · intro i h1 h2
    rw [Array.getElem_modify, Array.getElem_setIfInBounds]
    split
    · rename_i hi
      subst hi
      rfl
    · rfl

theorem chainAt_place {slots : Slots S K V} (h : 0 < slots.size) (e : Entry K V) (j : Nat) :
    ((place slots.size slots e).chainAt j).toList =
      if home e.hash slots.size = j then e :: (slots.chainAt j).toList
      else (slots.chainAt j).toList := by
  rw [place_eq_set h]
  split
  · rename_i hj
    rw [← hj, chainAt_set_self (home_lt e.hash h), Chain.toList_push]
  · rename_i hj
    rw [chainAt_set_ne slots hj]

theorem entries_place {slots : Slots S K V} (h : 0 < slots.size) (e : Entry K V) :
    (place slots.size slots e).entries.Perm (e :: slots.entries) := by
  have hlt := home_lt e.hash h
  rw [place_eq_set h]
  refine (entries_set_perm hlt _).trans ?_
  rw [Chain.toList_push, List.cons_append]
  exact ((entries_perm_slot hlt).symm).cons e

theorem size_foldl_place (count : Nat) (es : List (Entry K V)) (slots : Slots S K V) :
    (es.foldl (place count) slots).size = slots.size := by
  induction es generalizing slots with
  | nil => rfl
  | cons e rest ih => rw [List.foldl_cons, ih, size_place]

theorem entries_foldl_place {count : Nat} (h : 0 < count) (es : List (Entry K V))
    {slots : Slots S K V} (hs : slots.size = count) :
    (es.foldl (place count) slots).entries.Perm (es ++ slots.entries) := by
  induction es generalizing slots with
  | nil => exact List.Perm.refl _
  | cons e rest ih =>
    subst hs
    rw [List.foldl_cons, List.cons_append]
    refine (ih (size_place _ slots e)).trans ?_
    refine ((entries_place h e).append_left rest).trans ?_
    exact List.perm_middle

/-- Entries are put in front one after another, so a chain has the last of them first. -/
theorem chainAt_foldl_place {count : Nat} (h : 0 < count) (es : List (Entry K V))
    {slots : Slots S K V} (hs : slots.size = count) (j : Nat) :
    ((es.foldl (place count) slots).chainAt j).toList =
      (es.filter fun e => home e.hash count = j).reverse ++ (slots.chainAt j).toList := by
  induction es generalizing slots with
  | nil => rfl
  | cons e rest ih =>
    subst hs
    rw [List.foldl_cons, ih (size_place _ slots e), chainAt_place h]
    by_cases hj : home e.hash slots.size = j
    · rw [if_pos hj, List.filter_cons_of_pos (by simpa using hj), List.reverse_cons,
        List.append_assoc]
      rfl
    · rw [if_neg hj, List.filter_cons_of_neg (by simpa using hj)]

/-! ## A resize -/

/-- The slots that a resize to `count` leads to. -/
def resized (slots : Slots S K V) (count : Nat) : Slots S K V :=
  slots.entries.foldl (place count) (vacant count)

theorem size_vacant (count : Nat) : (vacant count : Slots S K V).size = count := by
  simp [vacant]

theorem size_resized (slots : Slots S K V) (count : Nat) : (slots.resized count).size = count := by
  rw [resized, size_foldl_place, size_vacant]

theorem entries_resized (slots : Slots S K V) {count : Nat} (h : 0 < count) :
    (slots.resized count).entries.Perm slots.entries := by
  have hp := entries_foldl_place h slots.entries (size_vacant (S := S) count)
  rwa [entries_vacant, List.append_nil] at hp

/-- The chain of a slot after a resize: what all old chains held for it, in reverse. -/
theorem chainAt_resized (slots : Slots S K V) {count : Nat} (h : 0 < count) (j : Nat) :
    ((slots.resized count).chainAt j).toList =
      (slots.entries.filter fun e => home e.hash count = j).reverse := by
  rw [resized, chainAt_foldl_place h _ (size_vacant count), chainAt_vacant]
  simp

theorem mem_chainAt_resized (slots : Slots S K V) {count : Nat} (h : 0 < count) {j : Nat}
    {e : Entry K V} :
    e ∈ ((slots.resized count).chainAt j).toList ↔ e ∈ slots.entries ∧ home e.hash count = j := by
  rw [chainAt_resized slots h, List.mem_reverse, List.mem_filter, decide_eq_true_iff]

theorem placed_resized (slots : Slots S K V) {count : Nat} (h : 0 < count) :
    (slots.resized count).Placed := by
  intro j e he
  rw [size_resized]
  exact ((slots.mem_chainAt_resized h).1 he).2

/-- A resize to a positive count finds, moves and places every entry. -/
theorem resize_of_pos (slots : Slots S K V) {count : Nat} (h : 0 < count) :
    slots.resize count = (.ok slots.entryCount, slots.resized count) := by
  have hne : count ≠ 0 := by omega
  have hplaced : (slots.resized count).entryCount = slots.entries.length := by
    rw [entryCount_eq_length]
    exact (slots.entries_resized h).length_eq
  unfold resize
  rw [if_neg hne, gather_eq]
  simp only [fitted_vacant]
  show (if slots.entries.length = slots.entryCount ∧
    (slots.resized count).entryCount = slots.entries.length then _ else _) = _
  rw [if_pos ⟨(slots.entryCount_eq_length).symm, hplaced⟩, slots.entryCount_eq_length]
  rfl

theorem resize_zero (slots : Slots S K V) : slots.resize 0 = (.error .resizeToZero, slots) := rfl

end Slots

/-! ## A plan -/

namespace Slots

variable {S : Type → Type} {H : Type} [DecidableEq H] [Storage S H] [LawfulStorage S H]
variable {K V : Type}

theorem carryOut_singleton (slots : Slots S K V) {count : Nat} (hpos : 0 < count) :
    slots.carryOut [count] =
      (.ok (), slots.resized count, [.resized slots.entryCount count]) := by
  unfold carryOut
  rw [resize_of_pos slots hpos]
  simp only [carryOut, size_resized]

/-- Carrying a plan out, as far as it comes, moves entries about and leaves them placed. -/
theorem carryOut_placed {slots : Slots S K V} (hpos : 0 < slots.size) (hp : slots.Placed)
    (targets : List Nat) :
    0 < (slots.carryOut targets).2.1.size ∧ (slots.carryOut targets).2.1.Placed ∧
      (slots.carryOut targets).2.1.entries.Perm slots.entries := by
  induction targets generalizing slots with
  | nil => exact ⟨hpos, hp, List.Perm.refl _⟩
  | cons target rest ih =>
    unfold carryOut
    rcases Nat.eq_zero_or_pos target with rfl | ht
    · rw [resize_zero]
      exact ⟨hpos, hp, List.Perm.refl _⟩
    · rw [resize_of_pos slots ht]
      have hsize : 0 < (slots.resized target).size := by rw [size_resized]; exact ht
      obtain ⟨h1, h2, h3⟩ := ih hsize (slots.placed_resized ht)
      exact ⟨h1, h2, h3.trans (slots.entries_resized ht)⟩

/-- Only a target of zero stops a plan; others are resizes in a row. -/
theorem exists_carryOut (slots : Slots S K V) {targets : List Nat} (h : 0 ∉ targets) :
    ∃ events, slots.carryOut targets = (.ok (), targets.foldl resized slots, events) := by
  induction targets generalizing slots with
  | nil => exact ⟨[], rfl⟩
  | cons target rest ih =>
    rw [List.mem_cons, not_or] at h
    have ht : 0 < target := by omega
    obtain ⟨events, hrest⟩ := ih (slots.resized target) h.2
    refine ⟨.resized slots.entryCount target :: events, ?_⟩
    unfold carryOut
    rw [resize_of_pos slots ht]
    simp only [hrest, size_resized, List.foldl_cons]

theorem carryOut_ok (slots : Slots S K V) {targets : List Nat} (h : 0 ∉ targets) :
    (slots.carryOut targets).1 = .ok () := by
  obtain ⟨events, hcarried⟩ := slots.exists_carryOut h
  rw [hcarried]

/-- A plan with a target leads to its last target. -/
theorem size_carryOut (slots : Slots S K V) {targets : List Nat} (h : 0 ∉ targets) :
    (slots.carryOut targets).2.1.size = targets.getLastD slots.size := by
  obtain ⟨events, hcarried⟩ := slots.exists_carryOut h
  rw [hcarried]
  rcases List.eq_nil_or_concat targets with rfl | ⟨before, last, rfl⟩
  · rfl
  · rw [List.concat_eq_append, List.foldl_concat, size_resized, List.getLastD_concat]

end Slots

end ShardedMap
