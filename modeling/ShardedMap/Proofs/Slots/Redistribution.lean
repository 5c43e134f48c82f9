import ShardedMap.Proofs.Slots.Resize
/-
  Redistribution. A resize asks nothing of the slots that it begins with, which may be none, nor
  that an entry is in its home slot. What it answers and leaves is settled by the entries, in slot
  order and chain order, and by the new slot count, so it does not matter whether the array is
  extended or made anew (`resize_congr`); a resize to no slot leaves the array as it was
  (`resize_redistributes`).
-/
namespace ShardedMap

variable {S : Type → Type} {H : Type} [DecidableEq H] [Storage S H] [LawfulStorage S H]

namespace Slots

variable {K V : Type}

/-- A resize goes by the entries alone. -/
theorem resize_congr {slots other : Slots S K V} (h : other.entries = slots.entries) {count : Nat}
    (hpos : 0 < count) : other.resize count = slots.resize count := by
  rw [resize_of_pos other hpos, resize_of_pos slots hpos, entryCount_eq_length,
    entryCount_eq_length, resized, resized, h]

/-- Any slots, with chains of any entries. A resize to some slots answers the number of entries and
leaves as many slots as it was asked for; the chain of slot `j` is what all chains together held for
`j`, in reverse, so no entry is lost, doubled or changed. It is the same for all slots with these
entries, be they more or fewer than the new ones. A resize to no slot panics, and the array is as it
was. -/
theorem resize_redistributes (slots : Slots S K V) :
    (∀ count, 0 < count → ∃ after,
      slots.resize count = (.ok slots.entries.length, after) ∧
      slots.carryOut [count] = (.ok (), after, [.resized slots.entries.length count]) ∧
      after.size = count ∧
      (∀ j, (after.chainAt j).toList =
        (slots.entries.filter fun e => home e.hash count = j).reverse) ∧
      after.entries.Perm slots.entries ∧
      ∀ other : Slots S K V, other.entries = slots.entries →
        other.resize count = (.ok slots.entries.length, after)) ∧
    slots.resize 0 = (.error .resizeToZero, slots) ∧
    ∀ rest, slots.carryOut (0 :: rest) = (.error .resizeToZero, slots, []) := by
  refine ⟨?_, slots.resize_zero, fun _ => rfl⟩
  intro count hpos
  have hresize : slots.resize count = (.ok slots.entries.length, slots.resized count) := by
    rw [resize_of_pos slots hpos, entryCount_eq_length]
  have hcarried := slots.carryOut_singleton hpos
  rw [entryCount_eq_length] at hcarried
  refine ⟨slots.resized count, hresize, hcarried, slots.size_resized count,
    slots.chainAt_resized hpos, slots.entries_resized hpos, ?_⟩
  intro other hother
  rw [resize_congr hother hpos, hresize]

/-- Three entries, two of them away from home, in three slots or in six: five slots extend the one
array and not the other. -/
theorem resize_redistributes_strays :
    let chain : Chain Arena Nat Nat := ((∅ : Chain Arena Nat Nat).push ⟨1, 5, 10⟩).push ⟨2, 4, 20⟩
    let slots : Slots Arena Nat Nat := #[chain, ∅, (∅ : Chain Arena Nat Nat).push ⟨3, 5, 30⟩]
    let other : Slots Arena Nat Nat :=
      #[∅, chain, ∅, ∅, (∅ : Chain Arena Nat Nat).push ⟨3, 5, 30⟩, ∅]
    ∃ after, 0 < 5 ∧ slots.resize 5 = (.ok 3, after) ∧ other.resize 5 = (.ok 3, after) ∧
      after.size = 5 ∧ ((after.chainAt 0).toList.map Entry.pair) = [(3, 30), (1, 10)] ∧
      ((after.chainAt 4).toList.map Entry.pair) = [(2, 20)] ∧
      slots.carryOut [0, 5] = (.error .resizeToZero, slots, []) := by
  intro chain slots other
  obtain ⟨hsome, -, hnone⟩ := resize_redistributes slots
  obtain ⟨after, hresize, -, hsize, hchains, -, hother⟩ := hsome 5 (by decide)
  refine ⟨after, by decide, hresize, hother other rfl, hsize, ?_, ?_, hnone [5]⟩
  · rw [hchains]
    decide +kernel
  · rw [hchains]
    decide +kernel

end Slots

end ShardedMap
