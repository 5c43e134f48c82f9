import ShardedMap.Proofs.Policy.Evidence
import ShardedMap.Proofs.Shard.Perform
/-
  The checks on the way of a keyed operation. It asks for nodes and slots by index, divides by a
  slot count, adds up in words, and asserts what must hold of totals, drains and resizes. On a sound
  shard whose stock policy is calm, below half of all words, every one of these succeeds
  (`Sound.checked`), those of a resize for whatever count a policy may plan (`Slots.resizes`).
-/
namespace ShardedMap

variable {S : Type → Type} {H : Type} [DecidableEq H] [Storage S H] [LawfulStorage S H]

/-! ## Sums in words -/

/-- The sum of a list, one addition after another, up to one that exceeds 64 bits. -/
def sumInWords (counts : List Nat) : Option Nat :=
  counts.foldlM (fun sum count => if sum + count < 2 ^ 64 then some (sum + count) else none) 0

/-- The additions succeed if the last of them does. -/
theorem sumInWords_eq {α : Type} (f : α → Nat) (l : List α) :
    sumInWords (l.map f) = if sumOver f l < 2 ^ 64 then some (sumOver f l) else none := by
  suffices h : ∀ start, start < 2 ^ 64 →
      (l.map f).foldlM (fun sum count => if sum + count < 2 ^ 64 then some (sum + count) else none)
        start = if start + sumOver f l < 2 ^ 64 then some (start + sumOver f l) else none by
    have hzero := h 0 (by omega)
    rwa [Nat.zero_add] at hzero
  induction l with
  | nil =>
    intro start hstart
    exact (if_pos hstart).symm
  | cons a rest ih =>
    intro start hstart
    rw [List.map_cons, List.foldlM_cons, sumOver_cons]
    by_cases hfits : start + f a < 2 ^ 64
    · rw [if_pos hfits, ← Nat.add_assoc]
      exact ih _ hfits
    · have hexceeds : ¬ start + (f a + sumOver f rest) < 2 ^ 64 := by omega
      rw [if_neg hfits, if_neg hexceeds]
      rfl

/-! ## Nodes -/

namespace Links

variable {S : Type → Type} {H : Type} [Storage S H] {K V : Type}

/-- The node under a handle is stored. -/
def Stored (a : S (Node H K V)) (h : H) : Prop := ∃ node, Storage.get? a h = some node

/-- A search ends at a stored node, and came there by one. -/
theorem stored_of_locate {a : S (Node H K V)} {p : Entry K V → Bool} {fuel : Nat}
    {before start b : Option H} {h : H} (hbefore : ∀ x ∈ before, Stored a x)
    (hlocate : locate a p fuel before start = some (b, h)) :
    Stored a h ∧ ∀ x ∈ b, Stored a x := by
  induction fuel generalizing before start with
  | zero => cases hlocate
  | succ fuel ih =>
    cases start with
    | none => cases hlocate
    | some x =>
      unfold locate at hlocate
      split at hlocate
      · cases hlocate
      · rename_i node hnode
        split at hlocate
        · cases hlocate
          exact ⟨⟨node, hnode⟩, hbefore⟩
        · refine ih ?_ hlocate
          intro y hy
          cases hy
          exact ⟨node, hnode⟩

end Links

/-! ## Resizes -/

namespace Slots

variable {K V : Type}

/-- The checks of a resize of these slots to `count`. -/
structure Resizes (slots : Slots S K V) (count : Nat) : Prop where
  /-- There is a slot to move to. -/
  target : 0 < count
  /-- The sizes of the chains add up before. -/
  before : sumInWords (slots.toList.map Chain.size) = some slots.entryCount
  /-- Drained chains hold nothing. -/
  drained : ∀ j, (slots.chainAt j).drained = .ok (slots.chainAt j).toList
  /-- Every entry has a slot, which is there. -/
  homes : ∀ e ∈ slots.entries, ∃ j, home? e.hash count = .ok j ∧
    j < (slots.gather.2.fitted count).size
  /-- As many entries were moved and placed as there were, and their number adds up afterwards. -/
  even : ∃ placed, slots.resize count = (.ok slots.entryCount, placed) ∧
    placed.entryCount = slots.entryCount ∧
    sumInWords (placed.toList.map Chain.size) = some slots.entryCount

/-- No check of a resize to some slots fails, as long as the entries can be counted. -/
theorem resizes {slots : Slots S K V} {count : Nat} (htarget : 0 < count)
    (hentries : slots.entryCount < 2 ^ 64) : slots.Resizes count where
  target := htarget
  before := by
    rw [sumInWords_eq]
    exact if_pos hentries
  drained j := (slots.chainAt j).drained_eq
  homes e _ := by
    rw [gather_eq, fitted_vacant, size_vacant]
    exact ⟨_, home?_of_pos e.hash htarget, home_lt e.hash htarget⟩
  even := by
    have hplaced : (slots.resized count).entryCount = slots.entryCount := by
      rw [entryCount_eq_length, entryCount_eq_length]
      exact (slots.entries_resized htarget).length_eq
    refine ⟨slots.resized count, resize_of_pos slots htarget, hplaced, ?_⟩
    rw [← hplaced] at hentries ⊢
    rw [sumInWords_eq]
    exact if_pos hentries

end Slots

/-! ## Operations -/

namespace Shard

variable {K V R : Type} [BEq K]

/-- The checks of a keyed operation on `s`, in the order in which they are made. -/
structure Checked (hash : UInt64) (op : Operation K V R) (s : Shard S K V LoadPolicy) : Prop where
  /-- The hash has a slot, which is there. -/
  home : ∃ j, Slots.home? hash s.slots.size = .ok j ∧ j < s.slots.size
  /-- The node that a search in that slot ends at is stored, and so is the one before it. -/
  nodes : ∀ wanted before h,
    let links := (s.slots.chainAt (Slots.home hash s.slots.size)).links
    links.find wanted = some (before, h) →
      Links.Stored links.arena h ∧ ∀ b ∈ before, Links.Stored links.arena b
  /-- An entry that goes was counted. -/
  access : ∃ done, (s.access hash op).1 = .ok done
  /-- One more slot can be counted as overweight. -/
  judgement : s.policy.overweight.toNat + 1 < 2 ^ 64
  /-- Whatever has become of the policy by then, it only plans resizes whose checks succeed. -/
  plan : ∀ (policy : LoadPolicy) v,
    ∀ count ∈ (ResizePolicy.plan policy v (s.access hash op).2.slots).targets,
      (s.access hash op).2.slots.Resizes count
  /-- After all of them there is an answer. -/
  answer : ∃ answer, (s.perform hash op).1 = .ok answer

variable [EquivBEq K]

theorem Sound.entryCount_access {P : Type} {s : Shard S K V P} (hs : s.Sound) (hash : UInt64)
    (op : Operation K V R) :
    (s.access hash op).2.slots.entryCount ≤ s.slots.entryCount + 1 := by
  obtain ⟨found, rest, hacc, -, -⟩ := hs.access hash op
  rw [Slots.entryCount_eq_length, Slots.entryCount_eq_length, hacc.after.length_eq,
    hacc.before.length_eq, List.length_append, List.length_append]
  cases (op.onEntry hash found).2 with
  | none =>
    rw [Option.toList_none, List.length_nil]
    omega
  | some e =>
    rw [Option.toList_some, List.length_singleton]
    omega

/-- On a sound shard with a calm policy, below half of all words, no check fails. -/
theorem Sound.checked {s : Shard S K V LoadPolicy} (hs : s.Sound)
    (hcalm : s.policy.Calm s.slots.size) (hslots : s.slots.size < 2 ^ 63)
    (hentries : s.slots.entryCount < 2 ^ 63) (hash : UInt64) (op : Operation K V R) :
    s.Checked hash op where
  home := ⟨_, Slots.home?_of_pos hash hs.pos, Slots.home_lt hash hs.pos⟩
  nodes := by
    intro wanted before h links hfind
    refine Links.stored_of_locate ?_ hfind
    intro x hx
    cases hx
  access := by
    obtain ⟨_, _, -, hanswer, -⟩ := hs.access hash op
    exact ⟨_, hanswer⟩
  judgement := by
    have hquarter := hcalm.overweight
    omega
  plan policy v count hcount := by
    have hzero := policy.targets_decidePlan v (s.access hash op).2.slots.size
    have hadded := hs.entryCount_access hash op
    apply Slots.resizes
    · exact Nat.pos_of_ne_zero fun hnone => hzero (hnone ▸ hcount)
    · omega
  answer := by
    obtain ⟨_, _, -, -, -, -, -, -, hanswer⟩ := hs.perform hash op
    exact ⟨_, hanswer (LoadPolicy.cautious K V s.policy)⟩

end Shard

end ShardedMap
