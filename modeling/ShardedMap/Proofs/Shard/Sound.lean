import ShardedMap.Shard.Basic
import ShardedMap.Proofs.Operation
import ShardedMap.Proofs.Policy.Cautious
import ShardedMap.Proofs.Slots.Resize
/-
  What every phase of an operation keeps of a shard (`Shard.Sound`): it has a slot, its total is the
  number of its entries, each entry is in its home slot, and no two have one hash and equal keys. An
  access finds the entry for its key wherever a resize has put it (`Sound.access`); consulting the
  policy moves entries about at most (`Settled`). A shard stays sound whatever its policy is, also
  when a plan asks for no slot and panics; with a cautious policy no phase panics.
-/
namespace ShardedMap

variable {S : Type → Type} {H : Type} [DecidableEq H] [Storage S H] [LawfulStorage S H]

namespace Shard

variable {K V P R : Type}

/-- A shard whose slots, total and entries fit together. -/
structure Sound [BEq K] (s : Shard S K V P) : Prop where
  pos : 0 < s.slots.size
  counted : s.total = s.slots.entryCount
  placed : s.slots.Placed
  distinct : s.slots.entries.Pairwise Entry.Apart

theorem Sound.of_policy [BEq K] {s : Shard S K V P} (hs : s.Sound) (policy : P) :
    Sound { s with policy } :=
  ⟨hs.pos, hs.counted, hs.placed, hs.distinct⟩

/-- Entries that are moved about stay distinct and as many. -/
theorem Sound.of_perm [BEq K] [PartialEquivBEq K] {s : Shard S K V P} (hs : s.Sound)
    {slots : Slots S K V} (policy : P) (hpos : 0 < slots.size) (hplaced : slots.Placed)
    (hperm : slots.entries.Perm s.slots.entries) : Sound { s with slots, policy } := by
  refine ⟨hpos, ?_, hplaced, ?_⟩
  · show s.total = slots.entryCount
    rw [hs.counted, Slots.entryCount_eq_length, Slots.entryCount_eq_length, hperm.length_eq]
  · exact (Entry.pairwise_apart_perm hperm).2 hs.distinct

/-! ## Access -/

/-- An access to `s` found `found` among its entries, passed over `rest`, and left `s'`. -/
structure Accessed [BEq K] (hash : UInt64) (op : Operation K V R) (s s' : Shard S K V P)
    (found : Option (Entry K V)) (rest : List (Entry K V)) : Prop where
  before : s.slots.entries.Perm (found.toList ++ rest)
  hit : ∀ e ∈ found, e.isFor hash op.key = true
  miss : ∀ e ∈ rest, e.isFor hash op.key = false
  after : s'.slots.entries.Perm ((op.onEntry hash found).2.toList ++ rest)
  slotCount : s'.slots.size = s.slots.size
  policy : s'.policy = s.policy

/-- The total follows the entry that came or went. -/
theorem totalAfter_onEntry (hash : UInt64) (op : Operation K V R) (found : Option (Entry K V))
    (n : Nat) :
    totalAfter (found.toList.length + n) (op.onEntry hash found).1.2 =
      .ok ((op.onEntry hash found).2.toList.length + n) := by
  cases found with
  | none => cases op <;> simp [Operation.onEntry, totalAfter, Nat.add_comm]
  | some e => cases op <;> simp [Operation.onEntry, totalAfter]

/-- The chain that an access leaves in the home slot of its hash. -/
def chainAfter [BEq K] (s : Shard S K V P) (hash : UInt64) (op : Operation K V R) : Chain S K V :=
  (op.onChain hash (s.slots.chainAt (Slots.home hash s.slots.size))).2

theorem access_eq [BEq K] {s : Shard S K V P} (hpos : 0 < s.slots.size) {hash : UInt64}
    {op : Operation K V R} {answer : Answer V R} {effect : Effect} {total : Nat}
    (ha : (op.onChain hash (s.slots.chainAt (Slots.home hash s.slots.size))).1 = (answer, effect))
    (ht : totalAfter s.total effect = .ok total) :
    s.access hash op =
      (.ok (answer, reportOf (s.chainAfter hash op).size s.slots.size effect),
        { s with
          slots := s.slots.setIfInBounds (Slots.home hash s.slots.size) (s.chainAfter hash op)
          total }) := by
  unfold access chainAfter
  simp only [Slots.onHome_of_pos hpos]
  rcases hd : op.onChain hash (s.slots.chainAt (Slots.home hash s.slots.size)) with ⟨done, c⟩
  rw [hd] at ha
  cases ha
  simp only [ht, Array.size_setIfInBounds]

/-- In the home slot of its hash, an operation finds the entry for its key if the shard has one
anywhere, and what it leaves there belongs there. -/
theorem Sound.onHome [BEq K] [EquivBEq K] {s : Shard S K V P} (hs : s.Sound) (hash : UInt64)
    (op : Operation K V R) :
    let j := Slots.home hash s.slots.size
    let after := s.slots.setIfInBounds j (s.chainAfter hash op)
    ∃ (found : Option (Entry K V)) (rest : List (Entry K V)),
      s.slots.entries.Perm (found.toList ++ rest) ∧
      (∀ e ∈ found, e.isFor hash op.key = true) ∧ (∀ e ∈ rest, e.isFor hash op.key = false) ∧
      (op.onChain hash (s.slots.chainAt j)).1 = (op.onEntry hash found).1 ∧
      (Slots.entries after).Perm ((op.onEntry hash found).2.toList ++ rest) ∧
      Slots.Placed after := by
  intro j after
  have hj : j < s.slots.size := Slots.home_lt hash hs.pos
  have hbefore := Slots.entries_perm_slot hj
  have hdist := (Entry.pairwise_apart_perm hbefore).1 hs.distinct
  obtain ⟨found, rest, hc, hhit, hmiss, hdone, hc'⟩ :=
    op.onChain_spec hash (List.pairwise_append.1 hdist).1
  -- The entries passed over are those of the chain and all those of the other slots.
  refine ⟨found, rest ++ s.slots.entriesBut j, ?_, hhit, ?_, hdone, ?_, ?_⟩
  · rw [← List.append_assoc]
    exact hbefore.trans (hc.append_right _)
  · intro e he
    rcases List.mem_append.1 he with he | he
    · exact hmiss e he
    · exact Entry.isFor_eq_false_of_hash_ne (hs.placed.hash_ne he)
  · rw [← List.append_assoc]
    exact (Slots.entries_set_perm hj _).trans (hc'.append_right _)
  · apply hs.placed.set hj
    intro e he
    rcases List.mem_append.1 (hc'.mem_iff.1 he) with he | he
    · have hfor := Operation.isFor_onEntry hhit e (Option.mem_toList.1 he)
      rw [(Entry.isFor_iff.1 hfor).1]
    · exact hs.placed _ e (hc.mem_iff.2 (List.mem_append_right _ he))

/-- An access to a sound shard answers by the entry for its key, changes at most that entry, and
leaves the shard sound. -/
theorem Sound.access [BEq K] [EquivBEq K] {s : Shard S K V P} (hs : s.Sound) (hash : UInt64)
    (op : Operation K V R) :
    ∃ found rest, Accessed hash op s (s.access hash op).2 found rest ∧
      (s.access hash op).1 = .ok ((op.onEntry hash found).1.1,
        reportOf (s.chainAfter hash op).size s.slots.size (op.onEntry hash found).1.2) ∧
      (s.access hash op).2.Sound := by
  obtain ⟨found, rest, hbefore, hhit, hmiss, hdone, hafter, hplaced⟩ := hs.onHome hash op
  have htotal : totalAfter s.total (op.onEntry hash found).1.2 =
      .ok ((op.onEntry hash found).2.toList.length + rest.length) := by
    rw [hs.counted, Slots.entryCount_eq_length, hbefore.length_eq, List.length_append]
    exact totalAfter_onEntry hash op found _
  have hsize : (s.slots.setIfInBounds (Slots.home hash s.slots.size)
      (s.chainAfter hash op)).size = s.slots.size := Array.size_setIfInBounds
  rw [access_eq hs.pos hdone htotal]
  refine ⟨found, rest, ⟨hbefore, hhit, hmiss, hafter, hsize, rfl⟩, rfl, ?_, ?_, hplaced, ?_⟩
  · show 0 < (s.slots.setIfInBounds _ _).size
    rw [hsize]
    exact hs.pos
  · show _ = Slots.entryCount (s.slots.setIfInBounds _ _)
    rw [Slots.entryCount_eq_length, hafter.length_eq]
    exact List.length_append.symm
  · have hfound := (Entry.pairwise_apart_perm hbefore).1 hs.distinct
    rw [Entry.pairwise_apart_perm hafter]
    exact Operation.distinct_onEntry hfound hhit hmiss

theorem assign_of_pos [BEq K] {s : Shard S K V P} (hpos : 0 < s.slots.size) (hash : UInt64)
    (key : K) (value : V) :
    let c := s.slots.chainAt (Slots.home hash s.slots.size)
    s.assign hash key value =
      { s with
        slots := s.slots.setIfInBounds (Slots.home hash s.slots.size)
          (c.modify hash key fun _ => ((), value)).2 } := by
  intro c
  unfold Shard.assign
  rw [Slots.onHome_of_pos hpos]

/-- Assigning a value is an access that updates it. -/
theorem assign_eq_access [BEq K] {s : Shard S K V P} (hpos : 0 < s.slots.size) (hash : UInt64)
    (key : K) (value : V) :
    s.assign hash key value = (s.access hash (.update key fun _ => ((), value))).2 := by
  rw [access_eq hpos rfl rfl, assign_of_pos hpos]
  rfl

theorem Sound.assign [BEq K] [EquivBEq K] {s : Shard S K V P} (hs : s.Sound) (hash : UInt64)
    (key : K) (value : V) : (s.assign hash key value).Sound := by
  rw [assign_eq_access hs.pos]
  obtain ⟨_, _, -, -, hsound⟩ := hs.access hash (.update key fun _ => ((), value))
  exact hsound

/-- Assigning a value gives no entry another hash or key, and adds none. -/
theorem Sound.mem_entries_assign [BEq K] [EquivBEq K] {s : Shard S K V P} (hs : s.Sound)
    {hash : UInt64} {key : K} {value : V} {e' : Entry K V}
    (he' : e' ∈ (s.assign hash key value).slots.entries) :
    ∃ e ∈ s.slots.entries, e'.hash = e.hash ∧ e'.key = e.key := by
  rw [assign_eq_access hs.pos] at he'
  obtain ⟨found, rest, hacc, -, -⟩ := hs.access hash (.update key fun _ => ((), value))
  rcases List.mem_append.1 (hacc.after.mem_iff.1 he') with h | h
  · cases found with
    | none => cases h
    | some e =>
      refine ⟨e, hacc.before.mem_iff.2 (List.mem_append_left _ List.mem_cons_self), ?_⟩
      exact Operation.onEntry_some (Option.mem_toList.1 h)
  · exact ⟨e', hacc.before.mem_iff.2 (List.mem_append_right _ h), rfl, rfl⟩

/-! ## Consulting the policy -/

section Policy

variable [ResizePolicy P]

theorem resize_fst (s : Shard S K V P) (v : Verdict) :
    (s.resize v).1 = (s.slots.carryOut (ResizePolicy.plan s.policy v s.slots).targets).1 := by
  unfold resize
  simp only
  rcases s.slots.carryOut _ with ⟨_ | _, slots, events⟩
  · rfl
  · simp only
    split <;> rfl

theorem resize_ok {s : Shard S K V P} (hpos : 0 < s.slots.size)
    (hp : ResizePolicy.Cautious S K V s.policy) (v : Verdict) : (s.resize v).1 = .ok () :=
  (s.resize_fst v).trans (s.slots.carryOut_ok (hp.targets v hpos))

variable [BEq K]

/-- `s'` is a sound shard with the entries of `s`, and with what calls made of the policy of `s`. -/
structure Settled (s s' : Shard S K V P) : Prop where
  sound : s'.Sound
  entries : s'.slots.entries.Perm s.slots.entries
  policy : ResizePolicy.Becomes S K V s.policy s'.policy

theorem Settled.trans {s s' s'' : Shard S K V P} (h : Settled s s') (h' : Settled s' s'') :
    Settled s s'' :=
  ⟨h'.sound, h'.entries.trans h.entries, h.policy.trans h'.policy⟩

theorem Sound.inspect {s : Shard S K V P} (hs : s.Sound) (r : Report) :
    Settled s (s.inspect r).2 :=
  ⟨hs.of_policy _, List.Perm.refl _, .inspect .same s.total r.size⟩

theorem Sound.wants {s : Shard S K V P} (hs : s.Sound) (v : Verdict) {slotCount : Nat}
    (hpos : 0 < slotCount) : Settled s (s.wants v slotCount).2 :=
  ⟨hs.of_policy _, List.Perm.refl _, .wants .same v hpos⟩

/-- A resize leaves a sound shard sound, also one that panics on its way. -/
theorem Sound.resize [PartialEquivBEq K] {s : Shard S K V P} (hs : s.Sound) (v : Verdict) :
    Settled s (s.resize v).2.1 := by
  obtain ⟨hpos, hplaced, hperm⟩ :=
    Slots.carryOut_placed hs.pos hs.placed (ResizePolicy.plan s.policy v s.slots).targets
  have hnext : ResizePolicy.Becomes S K V s.policy (ResizePolicy.plan s.policy v s.slots).next :=
    .plan .same v hs.pos
  unfold Shard.resize
  rcases hc : s.slots.carryOut (ResizePolicy.plan s.policy v s.slots).targets with
    ⟨result, slots, events⟩
  rw [hc] at hpos hplaced hperm
  cases result with
  | error p =>
    simp only [hc]
    exact ⟨hs.of_perm _ hpos hplaced hperm, hperm, hnext⟩
  | ok =>
    simp only [hc]
    split
    · exact ⟨hs.of_perm _ hpos hplaced hperm, hperm, hnext.recompute _ hpos⟩
    · exact ⟨hs.of_perm _ hpos hplaced hperm, hperm, hnext⟩

end Policy

end Shard

end ShardedMap
