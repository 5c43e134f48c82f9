import ShardedMap.Proofs.Chain.Drain
import ShardedMap.Proofs.Slots.Split
/-
  Resizes in a row. None of them loses an entry or adds one, so each finds the entries that the
  first one found, in some order, and the slot of an entry is settled by its hash and the last slot
  count (`foldl_resized_perm`, `mem_chainAt_resized`). What was resized before shows in the order of
  a chain at most. A resize to as many slots as there are turns round every chain of a `Placed`
  array and does nothing else (`Placed.chainAt_resized_size`), so the next one turns them back.
-/
namespace ShardedMap

variable {S : Type → Type} {H : Type} [DecidableEq H] [Storage S H] [LawfulStorage S H]

namespace Slots

variable {K V : Type}

/-! ## After other resizes -/

theorem resize_of_perm {slots other : Slots S K V} (h : other.entries.Perm slots.entries)
    {count : Nat} (hpos : 0 < count) :
    other.resize count = (.ok slots.entries.length, other.resized count) := by
  rw [resize_of_pos other hpos, entryCount_eq_length, h.length_eq]

/-- The order in which a resize finds the entries shows in the order of the chains, and nowhere
else. -/
theorem chainAt_resized_perm {slots other : Slots S K V} (h : other.entries.Perm slots.entries)
    {count : Nat} (hpos : 0 < count) (j : Nat) :
    ((other.resized count).chainAt j).toList.Perm ((slots.resized count).chainAt j).toList := by
  rw [chainAt_resized other hpos, chainAt_resized slots hpos]
  exact (List.reverse_perm _).trans ((h.filter _).trans (List.reverse_perm _).symm)

/-- Each resize in a row finds the entries that the first one found. -/
theorem entries_foldl_resized {history : List Nat} (h : 0 ∉ history) (slots : Slots S K V) :
    (history.foldl resized slots).entries.Perm slots.entries := by
  induction history generalizing slots with
  | nil => exact List.Perm.refl _
  | cons count rest ih =>
    rw [List.mem_cons, not_or] at h
    have hcount : 0 < count := by omega
    exact (ih h.2 (slots.resized count)).trans (slots.entries_resized hcount)

theorem foldl_resized_perm {history : List Nat} (h : 0 ∉ history) (slots : Slots S K V)
    {count : Nat} (hpos : 0 < count) (j : Nat) :
    (((history ++ [count]).foldl resized slots).chainAt j).toList.Perm
      ((slots.resized count).chainAt j).toList := by
  rw [List.foldl_concat]
  exact chainAt_resized_perm (entries_foldl_resized h slots) hpos j

/-! ## To as many slots as there are -/

/-- Entries at home stay in their slot, the last one first. -/
theorem Placed.chainAt_resized_size {slots : Slots S K V} (hp : slots.Placed)
    (hpos : 0 < slots.size) (j : Nat) :
    ((slots.resized slots.size).chainAt j).toList = (slots.chainAt j).toList.reverse := by
  rcases Nat.lt_or_ge j slots.size with hj | hj
  · have hhome : ((slots.chainAt j).toList.filter fun e => home e.hash slots.size = j) =
        (slots.chainAt j).toList := by
      rw [List.filter_eq_self]
      intro e he
      exact decide_eq_true (hp j e he)
    rw [hp.chainAt_resized_of_dvd hpos hpos (Nat.dvd_refl _), Nat.mod_eq_of_lt hj, hhome]
  · rw [chainAt_of_le hj, chainAt_of_le (by rwa [size_resized])]
    rw [Chain.toList_empty, List.reverse_nil]

theorem Placed.chainAt_resized_size_twice {slots : Slots S K V} (hp : slots.Placed)
    (hpos : 0 < slots.size) (j : Nat) :
    (((slots.resized slots.size).resized slots.size).chainAt j).toList =
      (slots.chainAt j).toList := by
  have hplaced := slots.placed_resized hpos
  have hsize := slots.size_resized slots.size
  have htwice := hplaced.chainAt_resized_size (by rwa [hsize]) j
  rw [hsize] at htwice
  rw [htwice, hp.chainAt_resized_size hpos, List.reverse_reverse]

/-- Any slots, with chains of any entries. What a resize to `b` slots puts into slot `j` are the
entries whose hash belongs there, and up to its order the chain is the same if the slots were
resized before, once to any number of slots or as often as one likes. If all entries are at home, a
resize to as many slots as there are turns every chain round and leaves each entry in its slot; a
second one turns the chains back, and nothing that is done with them later tells them from those of
before. -/
theorem resizes_forget [BEq K] (slots : Slots S K V) :
    (∀ b, 0 < b → ∃ direct,
      slots.resize b = (.ok slots.entries.length, direct) ∧ direct.size = b ∧
      (∀ j e, e ∈ (direct.chainAt j).toList ↔ e ∈ slots.entries ∧ home e.hash b = j) ∧
      (∀ a, 0 < a → ∃ between after,
        slots.resize a = (.ok slots.entries.length, between) ∧
        between.resize b = (.ok slots.entries.length, after) ∧ after.size = b ∧
        ∀ j, (after.chainAt j).toList.Perm (direct.chainAt j).toList) ∧
      ∀ history, 0 ∉ history → ∃ after events,
        slots.carryOut (history ++ [b]) = (.ok (), after, events) ∧ after.size = b ∧
        ∀ j, (after.chainAt j).toList.Perm (direct.chainAt j).toList) ∧
    (0 < slots.size → slots.Placed → ∃ turned back,
      slots.resize slots.size = (.ok slots.entries.length, turned) ∧
      turned.resize slots.size = (.ok slots.entries.length, back) ∧
      turned.size = slots.size ∧ back.size = slots.size ∧
      (∀ j, (turned.chainAt j).toList = (slots.chainAt j).toList.reverse) ∧
      ∀ j, (back.chainAt j).toList = (slots.chainAt j).toList ∧
        Links.Interchangeable.{0, 0, 0} (back.chainAt j).links (slots.chainAt j).links) := by
  have hself : slots.entries.Perm slots.entries := List.Perm.refl _
  constructor
  · intro b hb
    refine ⟨slots.resized b, resize_of_perm hself hb, slots.size_resized b, ?_, ?_, ?_⟩
    · intro j e
      exact slots.mem_chainAt_resized hb
    · intro a ha
      have hperm := slots.entries_resized ha
      exact ⟨slots.resized a, (slots.resized a).resized b, resize_of_perm hself ha,
        resize_of_perm hperm hb, size_resized _ b, chainAt_resized_perm hperm hb⟩
    · intro history hhistory
      have hall : 0 ∉ history ++ [b] := by
        rw [List.mem_append, List.mem_singleton]
        rintro (h | rfl)
        · exact hhistory h
        · exact Nat.lt_irrefl 0 hb
      obtain ⟨events, hcarried⟩ := slots.exists_carryOut hall
      refine ⟨(history ++ [b]).foldl resized slots, events, hcarried, ?_, ?_⟩
      · rw [List.foldl_concat, size_resized]
      · exact foldl_resized_perm hhistory slots hb
  · intro hpos hplaced
    have hperm := slots.entries_resized hpos
    refine ⟨slots.resized slots.size, (slots.resized slots.size).resized slots.size,
      resize_of_perm hself hpos, resize_of_perm hperm hpos, slots.size_resized _, size_resized _ _,
      hplaced.chainAt_resized_size hpos, ?_⟩
    intro j
    have hback := hplaced.chainAt_resized_size_twice hpos j
    exact ⟨hback, Links.interchangeable_of_toList_eq (Chain.linked _) (Chain.linked _) hback⟩

/-- Two slots with three entries at home. Among three slots all of them belong to slot 1, by way of
five slots or not; a resize to two slots turns the chain of slot 1 round, and another one turns it
back. -/
theorem resizes_forget_two :
    let slots : Slots Arena Nat Nat := #[(∅ : Chain Arena Nat Nat).push ⟨2, 4, 20⟩,
      ((∅ : Chain Arena Nat Nat).push ⟨1, 1, 10⟩).push ⟨3, 7, 30⟩]
    0 < 5 ∧ 0 < 3 ∧ 0 < slots.size ∧ slots.Placed ∧
    ∃ between after direct turned back,
      slots.resize 5 = (.ok 3, between) ∧ between.resize 3 = (.ok 3, after) ∧
      slots.resize 3 = (.ok 3, direct) ∧
      (after.chainAt 1).toList.Perm (direct.chainAt 1).toList ∧
      slots.resize 2 = (.ok 3, turned) ∧ turned.resize 2 = (.ok 3, back) ∧
      (turned.chainAt 1).toList = [⟨1, 1, 10⟩, ⟨3, 7, 30⟩] ∧
      (back.chainAt 1).toList = [⟨3, 7, 30⟩, ⟨1, 1, 10⟩] := by
  intro slots
  have hplaced : slots.Placed := by
    intro j e he
    match j with
    | 0 => exact (by decide +kernel : ∀ e ∈ (slots.chainAt 0).toList, home e.hash 2 = 0) e he
    | 1 => exact (by decide +kernel : ∀ e ∈ (slots.chainAt 1).toList, home e.hash 2 = 1) e he
    | j + 2 => cases he
  obtain ⟨hsome, hsame⟩ := resizes_forget slots
  obtain ⟨direct, hdirect, -, -, hvia, -⟩ := hsome 3 (by decide)
  obtain ⟨between, after, hbetween, hafter, -, hperm⟩ := hvia 5 (by decide)
  obtain ⟨turned, back, hturned, hback, -, -, hreversed, hrestored⟩ := hsame (by decide) hplaced
  refine ⟨by decide, by decide, by decide, hplaced, between, after, direct, turned, back, hbetween,
    hafter, hdirect, hperm 1, hturned, hback, ?_, ?_⟩
  · rw [hreversed 1]
    rfl
  · rw [(hrestored 1).1]
    rfl

end Slots

end ShardedMap
