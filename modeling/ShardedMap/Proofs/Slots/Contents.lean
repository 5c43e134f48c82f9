import Mathlib.Data.List.Perm.Basic
import ShardedMap.Slots.Basic
/-
  What a slot array holds. Its entries are those of any one slot and those of the others
  (`entries_perm_slot`), and work on a slot leaves the others alone (`entriesBut_set`). In a
  `Placed` array an entry stands in the slot that its hash belongs to, so whatever is asked of a
  hash is settled by one chain.
-/
namespace ShardedMap

universe u v

namespace Slots

variable {S : Type (max u v) → Type (max u v)} {H : Type} [DecidableEq H] [Storage S H]
  [LawfulStorage S H]
variable {K : Type u} {V : Type v}

/-- Every entry is in the slot that its hash belongs to. -/
def Placed (slots : Slots S K V) : Prop :=
  ∀ j, ∀ e ∈ (slots.chainAt j).toList, home e.hash slots.size = j

/-- The entries of the slots other than `j`, in slot order. -/
def entriesBut (slots : Slots S K V) (j : Nat) : List (Entry K V) :=
  (slots.toList.eraseIdx j).flatMap Chain.toList

/-! ## Chains by slot number -/

theorem chainAt_of_lt {slots : Slots S K V} {j : Nat} (h : j < slots.size) :
    slots.chainAt j = slots[j] := by
  simp [chainAt, h]

theorem chainAt_of_le {slots : Slots S K V} {j : Nat} (h : slots.size ≤ j) :
    slots.chainAt j = ∅ := by
  simp [chainAt, h]

theorem chainAt_set_self {slots : Slots S K V} {j : Nat} (h : j < slots.size) (c : Chain S K V) :
    chainAt (slots.setIfInBounds j c) j = c := by
  simp [chainAt, h]

theorem chainAt_set_ne (slots : Slots S K V) {i j : Nat} (h : j ≠ i) (c : Chain S K V) :
    chainAt (slots.setIfInBounds j c) i = slots.chainAt i := by
  simp [chainAt, Array.getElem?_setIfInBounds_ne h]

theorem chainAt_vacant (count j : Nat) : (vacant count : Slots S K V).chainAt j = ∅ := by
  rcases Nat.lt_or_ge j count with h | h
  · simp [chainAt, vacant, h]
  · rw [chainAt_of_le]
    simpa [vacant] using h

/-! ## All entries -/

theorem mem_entries {slots : Slots S K V} {e : Entry K V} :
    e ∈ slots.entries ↔ ∃ j, e ∈ (slots.chainAt j).toList := by
  unfold entries
  rw [List.mem_flatMap]
  constructor
  · rintro ⟨c, hc, he⟩
    obtain ⟨j, hj, rfl⟩ := List.getElem_of_mem hc
    refine ⟨j, ?_⟩
    rw [chainAt_of_lt (by simpa using hj)]
    simpa using he
  · rintro ⟨j, he⟩
    rcases Nat.lt_or_ge j slots.size with h | h
    · rw [chainAt_of_lt h] at he
      exact ⟨slots[j], by simp, he⟩
    · rw [chainAt_of_le h] at he
      simp at he

theorem entryCount_eq_length (slots : Slots S K V) : slots.entryCount = slots.entries.length := by
  have hsizes : (Chain.size : Chain S K V → Nat) = fun c => c.toList.length := funext Chain.size_eq
  rw [entryCount, entries, hsizes, sumOver_length]

@[simp] theorem entries_vacant (count : Nat) : (vacant count : Slots S K V).entries = [] := by
  rw [List.eq_nil_iff_forall_not_mem]
  intro e he
  obtain ⟨j, hj⟩ := mem_entries.1 he
  rw [chainAt_vacant] at hj
  simp at hj

theorem placed_vacant (count : Nat) : (vacant count : Slots S K V).Placed := by
  intro j e he
  rw [chainAt_vacant] at he
  simp at he

/-! ## One slot and the others -/

theorem entries_perm_slot {slots : Slots S K V} {j : Nat} (h : j < slots.size) :
    slots.entries.Perm ((slots.chainAt j).toList ++ slots.entriesBut j) := by
  have hj : j < slots.toList.length := h
  have hp := (List.getElem_cons_eraseIdx_perm hj).flatMap_right Chain.toList
  rw [List.flatMap_cons, Array.getElem_toList, ← chainAt_of_lt h] at hp
  exact hp.symm

theorem entriesBut_set (slots : Slots S K V) (j : Nat) (c : Chain S K V) :
    entriesBut (slots.setIfInBounds j c) j = slots.entriesBut j := by
  unfold entriesBut
  rw [Array.toList_setIfInBounds, List.eraseIdx_set_eq]

/-- Work on one slot changes the entries of that slot only. -/
theorem entries_set_perm {slots : Slots S K V} {j : Nat} (h : j < slots.size) (c : Chain S K V) :
    (entries (slots.setIfInBounds j c)).Perm (c.toList ++ slots.entriesBut j) := by
  have hj : j < (slots.setIfInBounds j c).size := by
    rw [Array.size_setIfInBounds]
    exact h
  have hp := entries_perm_slot hj
  rwa [chainAt_set_self h, entriesBut_set] at hp

theorem mem_entriesBut {slots : Slots S K V} {j : Nat} {e : Entry K V}
    (he : e ∈ slots.entriesBut j) : ∃ i, i ≠ j ∧ e ∈ (slots.chainAt i).toList := by
  obtain ⟨c, hc, hec⟩ := List.mem_flatMap.1 he
  obtain ⟨i, hij, hi⟩ := List.mem_eraseIdx_iff_getElem?.1 hc
  refine ⟨i, hij, ?_⟩
  rw [chainAt, ← Array.getElem?_toList, hi]
  exact hec

theorem Placed.hash_ne {slots : Slots S K V} (hp : slots.Placed) {hash : UInt64} {e : Entry K V}
    (he : e ∈ slots.entriesBut (home hash slots.size)) : e.hash ≠ hash := by
  obtain ⟨i, hi, hei⟩ := mem_entriesBut he
  rintro rfl
  exact hi (hp i e hei).symm

/-- Work on one slot keeps entries placed if what it leaves there belongs there. -/
theorem Placed.set {slots : Slots S K V} (hp : slots.Placed) {j : Nat} (hj : j < slots.size)
    {c : Chain S K V} (hc : ∀ e ∈ c.toList, home e.hash slots.size = j) :
    Placed (slots.setIfInBounds j c) := by
  intro i e he
  rw [Array.size_setIfInBounds]
  by_cases h : j = i
  · subst h
    rw [chainAt_set_self hj] at he
    exact hc e he
  · rw [chainAt_set_ne slots h] at he
    exact hp i e he

end Slots

end ShardedMap
