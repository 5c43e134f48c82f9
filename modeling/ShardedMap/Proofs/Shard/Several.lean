import ShardedMap.Proofs.Shard.Perform
/-
  Shards side by side. What happens to one of them leaves the others alone (`get_set_ne`,
  `entriesBut_set`), so the entries of all are those of any one and those of the others
  (`allEntries_perm`). Fresh shards are sound and hold nothing.
-/
namespace ShardedMap

variable {S : Type → Type} {H : Type} [DecidableEq H] [Storage S H] [LawfulStorage S H]

namespace Shard

variable {n : Nat} {K V P : Type}

theorem get_set_self (shards : Vector (Shard S K V P) n) (i : Fin n) (s : Shard S K V P) :
    (shards.set i s i.isLt).get i = s := by
  show (shards.set i s i.isLt)[i] = s
  exact Vector.getElem_set_self i.isLt

theorem get_set_ne (shards : Vector (Shard S K V P) n) {i j : Fin n} (h : i ≠ j)
    (s : Shard S K V P) : (shards.set i s i.isLt).get j = shards.get j := by
  show (shards.set i s i.isLt)[j] = shards[j]
  exact Vector.getElem_set_ne i.isLt j.isLt fun he => h (Fin.ext he)

/-- After a change of one shard, it is enough to look at this one and at the others as they were. -/
theorem forall_set {shards : Vector (Shard S K V P) n} {i : Fin n} {s : Shard S K V P}
    {C : Fin n → Shard S K V P → Prop} (h : ∀ j, i ≠ j → C j (shards.get j)) (hs : C i s) :
    ∀ j, C j ((shards.set i s i.isLt).get j) := by
  intro j
  by_cases hij : i = j
  · subst hij
    rw [get_set_self]
    exact hs
  · rw [get_set_ne shards hij]
    exact h j hij

theorem toList_eq_finRange (shards : Vector (Shard S K V P) n) :
    shards.toList = (List.finRange n).map shards.get := by
  apply List.ext_getElem
  · simp
  · intro i hi hi'
    rw [List.getElem_map, List.getElem_finRange]
    exact Vector.getElem_toList hi

/-! ## All entries -/

/-- The entries of all shards, shard by shard. -/
def allEntries (shards : Vector (Shard S K V P) n) : List (Entry K V) :=
  shards.toList.flatMap fun s => s.slots.entries

/-- The entries of the shards other than `i`. -/
def entriesBut (shards : Vector (Shard S K V P) n) (i : Fin n) : List (Entry K V) :=
  (shards.toList.eraseIdx i).flatMap fun s => s.slots.entries

theorem allEntries_eq (shards : Vector (Shard S K V P) n) :
    allEntries shards = (List.finRange n).flatMap fun i => (shards.get i).slots.entries := by
  unfold allEntries
  rw [toList_eq_finRange, List.flatMap_map]

theorem mem_allEntries {shards : Vector (Shard S K V P) n} {e : Entry K V} :
    e ∈ allEntries shards ↔ ∃ i, e ∈ (shards.get i).slots.entries := by
  rw [allEntries_eq, List.mem_flatMap]
  constructor
  · rintro ⟨i, -, he⟩
    exact ⟨i, he⟩
  · rintro ⟨i, he⟩
    exact ⟨i, List.mem_finRange i, he⟩

theorem allEntries_perm (shards : Vector (Shard S K V P) n) (i : Fin n) :
    (allEntries shards).Perm ((shards.get i).slots.entries ++ entriesBut shards i) := by
  have hi : i < shards.toList.length := by
    rw [Vector.length_toList]
    exact i.isLt
  have hp := (List.getElem_cons_eraseIdx_perm hi).flatMap_right fun s => s.slots.entries
  rw [List.flatMap_cons, Vector.getElem_toList] at hp
  exact hp.symm

theorem entriesBut_set (shards : Vector (Shard S K V P) n) (i : Fin n) (s : Shard S K V P) :
    entriesBut (shards.set i s i.isLt) i = entriesBut shards i := by
  unfold entriesBut
  rw [Vector.toList_set, List.eraseIdx_set_eq]

/-- A change of one shard changes the entries of that shard only. -/
theorem allEntries_set_perm (shards : Vector (Shard S K V P) n) (i : Fin n) (s : Shard S K V P) :
    (allEntries (shards.set i s i.isLt)).Perm (s.slots.entries ++ entriesBut shards i) := by
  have hp := allEntries_perm (shards.set i s i.isLt) i
  rwa [get_set_self, entriesBut_set] at hp

theorem mem_entriesBut {shards : Vector (Shard S K V P) n} {i : Fin n} {e : Entry K V}
    (he : e ∈ entriesBut shards i) : ∃ j, j ≠ i ∧ e ∈ (shards.get j).slots.entries := by
  obtain ⟨s, hs, hes⟩ := List.mem_flatMap.1 he
  obtain ⟨j, hji, hj⟩ := List.mem_eraseIdx_iff_getElem?.1 hs
  obtain ⟨hlt, rfl⟩ := List.getElem?_eq_some_iff.1 hj
  have hjn : j < n := by simpa using hlt
  refine ⟨⟨j, hjn⟩, fun h => hji (congrArg Fin.val h), ?_⟩
  simpa [Vector.get] using hes

theorem sum_totals [BEq K] {shards : Vector (Shard S K V P) n} (h : ∀ i, (shards.get i).Sound) :
    sumOver Shard.total shards.toList = (allEntries shards).length := by
  have htotals : ∀ i, (shards.get i).total = (shards.get i).slots.entries.length := by
    intro i
    rw [← Slots.entryCount_eq_length]
    exact (h i).counted
  rw [toList_eq_finRange, allEntries_eq, sumOver_map, funext htotals, sumOver_length]

/-- Entries are told apart if they are within each shard and have different hashes in any two. -/
theorem distinct_allEntries [BEq K] {shards : Vector (Shard S K V P) n}
    (h : ∀ i, (shards.get i).Sound)
    (hapart : ∀ i j, i ≠ j → ∀ a ∈ (shards.get i).slots.entries,
      ∀ b ∈ (shards.get j).slots.entries, a.hash ≠ b.hash) :
    (allEntries shards).Pairwise Entry.Apart := by
  rw [allEntries_eq, List.pairwise_flatMap]
  constructor
  · intro i _
    exact (h i).distinct
  · refine (List.nodup_finRange n).imp ?_
    intro i j hij a ha b hb hab
    exact hapart i j hij a ha b hb hab.1

/-! ## Fresh shards -/

section Policy

variable [ResizePolicy P]

@[simp] theorem entries_fresh (slotCount : Nat) (policy : P) :
    (fresh slotCount policy : Shard S K V P).slots.entries = [] :=
  Slots.entries_vacant slotCount

theorem Sound.fresh [BEq K] {slotCount : Nat} (h : 0 < slotCount) (policy : P) :
    (fresh slotCount policy : Shard S K V P).Sound := by
  refine ⟨?_, ?_, Slots.placed_vacant slotCount, ?_⟩
  · show 0 < (Slots.vacant slotCount : Slots S K V).size
    rw [Slots.vacant, Array.size_replicate]
    exact h
  · show 0 = (Slots.vacant slotCount : Slots S K V).entryCount
    rw [Slots.entryCount_eq_length, Slots.entries_vacant]
    rfl
  · rw [entries_fresh]
    exact List.Pairwise.nil

theorem cautious_fresh {policy : P} (h : ResizePolicy.Cautious S K V policy) {slotCount : Nat}
    (hpos : 0 < slotCount) :
    ResizePolicy.Cautious S K V (fresh slotCount policy : Shard S K V P).policy :=
  h.becomes (.recompute .same 0 hpos)

end Policy

end Shard

end ShardedMap
