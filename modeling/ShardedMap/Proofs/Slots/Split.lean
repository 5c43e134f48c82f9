import Mathlib.Data.List.Basic
import ShardedMap.Proofs.Slots.Resize
/-
  Doubling. A hash that belongs to slot `j` among twice as many slots belonged to slot `j` modulo
  the old slot count, so in a `Placed` array a resize to a multiple of the slot count splits each
  slot on its own (`chainAt_resized_of_dvd`). A doubled slot falls into two, with its entries shared
  out between them: no chain is longer than the longest was, and where there was an empty slot there
  are two (`Placed.split`).
-/
namespace ShardedMap

universe u v w

namespace Slots

variable {S : Type (max u v) → Type (max u v)} {H : Type} [DecidableEq H] [Storage S H]
  [LawfulStorage S H]
variable {K : Type u} {V : Type v}

/-! ## Slots by number -/

theorem toList_eq_map (slots : Slots S K V) :
    slots.toList = (List.range slots.size).map slots.chainAt := by
  apply List.ext_getElem
  · simp
  · intro j hj hj'
    have hlt : j < slots.size := hj
    simp [chainAt, hlt]

theorem entries_eq_flatMap (slots : Slots S K V) :
    slots.entries = (List.range slots.size).flatMap fun j => (slots.chainAt j).toList := by
  rw [entries, toList_eq_map, List.flatMap_map]

theorem emptyCount_eq_countP (slots : Slots S K V) :
    slots.emptyCount = (List.range slots.size).countP fun j => (slots.chainAt j).isEmpty := by
  rw [emptyCount, ← Array.countP_toList, toList_eq_map, List.countP_map]
  rfl

theorem longest_le_iff {slots : Slots S K V} {bound : Nat} :
    slots.longest ≤ bound ↔ ∀ j, (slots.chainAt j).size ≤ bound := by
  have hfold : ∀ (chains : List (Chain S K V)) (start : Nat),
      chains.foldl (fun n chain => max n chain.size) start ≤ bound ↔
        start ≤ bound ∧ ∀ chain ∈ chains, chain.size ≤ bound := by
    intro chains
    induction chains with
    | nil => simp
    | cons chain rest ih =>
      intro start
      rw [List.foldl_cons, ih, List.forall_mem_cons, Nat.max_le, and_assoc]
  rw [longest, ← Array.foldl_toList, hfold, toList_eq_map]
  constructor
  · rintro ⟨-, h⟩ j
    rcases Nat.lt_or_ge j slots.size with hj | hj
    · exact h _ (List.mem_map_of_mem (List.mem_range.2 hj))
    · rw [chainAt_of_le hj, Chain.size_empty]
      exact Nat.zero_le _
  · intro h
    refine ⟨Nat.zero_le _, ?_⟩
    intro chain hchain
    obtain ⟨j, -, rfl⟩ := List.mem_map.1 hchain
    exact h j

theorem size_le_longest (slots : Slots S K V) (j : Nat) : (slots.chainAt j).size ≤ slots.longest :=
  longest_le_iff.1 (Nat.le_refl _) j

/-! ## Splitting -/

/-- Lists in a row of which only one may hold anything. -/
theorem flatMap_range_of_one {α : Type w} {f : Nat → List α} {i count : Nat} (hi : i < count)
    (h : ∀ j, j ≠ i → f j = []) : (List.range count).flatMap f = f i := by
  induction count with
  | zero => cases hi
  | succ count ih =>
    rw [List.range_succ, List.flatMap_append, List.flatMap_singleton]
    rcases Nat.lt_or_eq_of_le (Nat.lt_succ_iff.1 hi) with hlt | rfl
    · rw [ih hlt, h count (Nat.ne_of_gt hlt), List.append_nil]
    · have hbefore : (List.range i).flatMap f = [] := by
        rw [List.flatMap_eq_nil_iff]
        intro j hj
        exact h j (Nat.ne_of_lt (List.mem_range.1 hj))
      rw [hbefore, List.nil_append]

/-- What can be in one slot only is found there. -/
theorem Placed.filter_entries {slots : Slots S K V} (hp : slots.Placed) {i : Nat}
    (hi : i < slots.size) {p : Entry K V → Bool}
    (h : ∀ e, p e = true → home e.hash slots.size = i) :
    slots.entries.filter p = (slots.chainAt i).toList.filter p := by
  rw [entries_eq_flatMap, List.filter_flatMap]
  apply flatMap_range_of_one hi
  intro j hj
  rw [List.filter_eq_nil_iff]
  intro e he hpe
  exact hj ((hp j e he).symm.trans (h e hpe))

/-- A resize to a multiple of the slot count moves the entries of a slot to slots of their own. -/
theorem Placed.chainAt_resized_of_dvd {slots : Slots S K V} (hp : slots.Placed)
    (hpos : 0 < slots.size) {count : Nat} (hcount : 0 < count) (hdvd : slots.size ∣ count)
    (j : Nat) :
    ((slots.resized count).chainAt j).toList =
      ((slots.chainAt (j % slots.size)).toList.filter fun e => home e.hash count = j).reverse := by
  rw [chainAt_resized slots hcount]
  congr 1
  apply hp.filter_entries (Nat.mod_lt j hpos)
  intro e he
  have hj : e.hash.toNat % count = j := of_decide_eq_true he
  rw [← hj, Nat.mod_mod_of_dvd _ hdvd]
  rfl

/-- Each slot of `slots` has fallen into two of `after`. -/
structure Split (slots after : Slots S K V) : Prop where
  size : after.size = slots.size * 2
  /-- A chain is the reverse of what the old chain held for it. -/
  chains : ∀ j, (after.chainAt j).toList =
    ((slots.chainAt (j % slots.size)).toList.filter fun e =>
      home e.hash (slots.size * 2) = j).reverse
  lengths : ∀ j, j < slots.size →
    (after.chainAt j).size + (after.chainAt (j + slots.size)).size = (slots.chainAt j).size
  longest : after.longest ≤ slots.longest
  empty : slots.emptyCount * 2 ≤ after.emptyCount

/-- Among twice as many slots a hash stays in its slot or moves up by the old slot count. -/
theorem home_double (hash : UInt64) (count : Nat) :
    home hash (count * 2) = home hash count ∨ home hash (count * 2) = home hash count + count := by
  have hmod : hash.toNat % (count * 2) =
      hash.toNat % count + count * (hash.toNat / count % 2) := Nat.mod_mul
  unfold home
  rcases Nat.mod_two_eq_zero_or_one (hash.toNat / count) with hparity | hparity
  · left
    rw [hmod, hparity, Nat.mul_zero, Nat.add_zero]
  · right
    rw [hmod, hparity, Nat.mul_one]

theorem Placed.length_halves {slots : Slots S K V} (hp : slots.Placed) {j : Nat}
    (hpos : 0 < slots.size) :
    let into := fun i => (slots.chainAt j).toList.filter fun e => home e.hash (slots.size * 2) = i
    (into j).length + (into (j + slots.size)).length = (slots.chainAt j).toList.length := by
  intro into
  have hother : into (j + slots.size) =
      (slots.chainAt j).toList.filter fun e => !decide (home e.hash (slots.size * 2) = j) := by
    apply List.filter_congr
    intro e he
    have hhome := hp j e he
    rw [Bool.eq_iff_iff, Bool.not_eq_true', decide_eq_true_iff, decide_eq_false_iff_not]
    rcases home_double e.hash slots.size with h | h
    · omega
    · omega
  rw [hother, ← List.length_eq_length_filter_add]

theorem Placed.split {slots : Slots S K V} (hp : slots.Placed) (hpos : 0 < slots.size) :
    slots.Split (slots.resized (slots.size * 2)) := by
  have hdouble : 0 < slots.size * 2 := by omega
  have hsize := slots.size_resized (slots.size * 2)
  have hchains := hp.chainAt_resized_of_dvd hpos hdouble (Nat.dvd_mul_right slots.size 2)
  generalize slots.resized (slots.size * 2) = after at hsize hchains ⊢
  refine ⟨hsize, hchains, ?_, ?_, ?_⟩
  · intro j hj
    rw [Chain.size_eq, Chain.size_eq, Chain.size_eq, hchains, hchains, List.length_reverse,
      List.length_reverse, Nat.add_mod_right, Nat.mod_eq_of_lt hj]
    exact hp.length_halves hpos
  · -- A chain is a part of one of the old chains.
    rw [longest_le_iff]
    intro j
    refine Nat.le_trans ?_ (slots.size_le_longest (j % slots.size))
    rw [Chain.size_eq, Chain.size_eq, hchains, List.length_reverse]
    exact List.length_filter_le _ _
  · -- Of an empty chain both parts are empty.
    have hpart : ∀ i j, i = j % slots.size → (slots.chainAt i).isEmpty = true →
        (after.chainAt j).isEmpty = true := by
      rintro _ j rfl hempty
      rw [Chain.isEmpty_iff] at hempty ⊢
      rw [hchains, hempty]
      rfl
    rw [emptyCount_eq_countP, emptyCount_eq_countP, hsize, Nat.mul_two, Nat.mul_two,
      List.range_add, List.countP_append, List.countP_map]
    apply Nat.add_le_add
    · apply List.countP_mono_left
      intro j hj
      exact hpart j j (Nat.mod_eq_of_lt (List.mem_range.1 hj)).symm
    · apply List.countP_mono_left
      intro j hj
      apply hpart j (slots.size + j)
      rw [Nat.add_mod_left, Nat.mod_eq_of_lt (List.mem_range.1 hj)]

end Slots

end ShardedMap
