import ShardedMap.Proofs.Shard.Sound
/-
  What an access does to the sizes of chains. It works on one chain, which becomes longer by one
  entry at most, and only if it puts something in place or takes something out does it report, and
  then the size that it leaves (`touched_access`). This holds of every shard, sound or not.
-/
namespace ShardedMap

variable {S : Type → Type} {H : Type} [DecidableEq H] [Storage S H] [LawfulStorage S H]

variable {K V P R : Type}

namespace Operation

/-- Whether an operation that answered so put an entry in place or took one out. -/
def mutated : Operation K V R → Answer V R → Bool
  | put _ _, _ => true
  | insertNew _ _, .inserted (.ok ()) => true
  | remove _, .value (some _) => true
  | delete _, .present true => true
  | _, _ => false

theorem mutated_onEntry (hash : UInt64) (op : Operation K V R) (found : Option (Entry K V)) :
    op.mutated (op.onEntry hash found).1.1 = true ↔ (op.onEntry hash found).1.2 ≠ .none := by
  cases found with
  | none => cases op <;> simp [onEntry, mutated]
  | some e => cases op <;> simp [onEntry, mutated]

variable [BEq K]

theorem mutated_onChain (hash : UInt64) (op : Operation K V R) (c : Chain S K V) :
    op.mutated (op.onChain hash c).1.1 = true ↔ (op.onChain hash c).1.2 ≠ .none := by
  rw [onChain_fst]
  exact mutated_onEntry hash op _

/-- The size of a chain follows the effect of an operation on it, as the total does. -/
theorem totalAfter_size (hash : UInt64) (op : Operation K V R) (c : Chain S K V) :
    Shard.totalAfter c.size (op.onChain hash c).1.2 = .ok (op.onChain hash c).2.size := by
  rw [Chain.size_eq, Chain.size_eq, onChain_fst]
  rcases Entry.split_first (Entry.isFor hash op.key) c.toList with hn | ⟨l, e, r, hlist, hl, he⟩
  · rw [Entry.find?_of_none hn, toList_onChain_miss hash op hn, List.length_append]
    have h := Shard.totalAfter_onEntry hash op none c.toList.length
    rwa [Option.toList_none, List.length_nil, Nat.zero_add] at h
  · have h := Shard.totalAfter_onEntry hash op (some e) (l ++ r).length
    have hsize : c.toList.length = (some e).toList.length + (l ++ r).length := by
      rw [hlist]
      simp
      omega
    have hafter : (op.onChain hash c).2.toList.length =
        (op.onEntry hash (some e)).2.toList.length + (l ++ r).length := by
      rw [toList_onChain_hit hash op hlist hl he]
      simp
      omega
    rw [hsize, hafter, ← h, hlist, Entry.find?_of_first hl he]

theorem size_pos_of_replaced {hash : UInt64} {op : Operation K V R} {c : Chain S K V}
    (h : (op.onChain hash c).1.2 = .replaced) : 0 < c.size := by
  rw [Chain.size_eq, List.length_pos_iff]
  intro hnil
  rw [onChain_fst, hnil] at h
  cases op <;> cases h

/-- An operation lengthens a chain by one entry at most, and only if it adds one. -/
theorem size_onChain_le (hash : UInt64) (op : Operation K V R) (c : Chain S K V) :
    (op.onChain hash c).2.size ≤ c.size + 1 := by
  have h := totalAfter_size hash op c
  unfold Shard.totalAfter at h
  split at h
  · exact Nat.le_of_eq (Except.ok.inj h).symm
  · split at h
    · cases h
    · have hsize := Except.ok.inj h
      omega
  · have hsize := Except.ok.inj h
    omega
  · have hsize := Except.ok.inj h
    omega

theorem size_of_none {hash : UInt64} {op : Operation K V R} {c : Chain S K V}
    (h : (op.onChain hash c).1.2 = .none) : (op.onChain hash c).2.size = c.size := by
  have hsize := totalAfter_size hash op c
  rw [h] at hsize
  exact (Except.ok.inj hsize).symm

theorem size_of_removed {hash : UInt64} {op : Operation K V R} {c : Chain S K V}
    (h : (op.onChain hash c).1.2 = .removed) : (op.onChain hash c).2.size < c.size := by
  have hsize := totalAfter_size hash op c
  rw [h] at hsize
  unfold Shard.totalAfter at hsize
  simp only at hsize
  split at hsize
  · cases hsize
  · have hlt := Except.ok.inj hsize
    omega

theorem size_pos_of_stored {hash : UInt64} {op : Operation K V R} {c : Chain S K V}
    (h : (op.onChain hash c).1.2 = .added ∨ (op.onChain hash c).1.2 = .replaced) :
    0 < (op.onChain hash c).2.size := by
  have hsize := totalAfter_size hash op c
  rcases h with h | h
  · rw [h] at hsize
    have hadded := Except.ok.inj hsize
    omega
  · have hpos := size_pos_of_replaced h
    rw [h] at hsize
    have hsame := Except.ok.inj hsize
    omega

end Operation

namespace Shard

/-- An access to `s` ended with `result` and left `s'`. -/
structure Touched (hash : UInt64) (op : Operation K V R) (s s' : Shard S K V P)
    (result : Except Panic (Answer V R × Option Report)) : Prop where
  slotCount : s'.slots.size = s.slots.size
  policy : s'.policy = s.policy
  others : ∀ j, j ≠ Slots.home hash s.slots.size →
    (s'.slots.chainAt j).size = (s.slots.chainAt j).size
  /-- Without a report no chain has become longer. -/
  silent : (∀ answer r, result ≠ .ok (answer, some r)) →
    (s'.slots.chainAt (Slots.home hash s.slots.size)).size ≤
      (s.slots.chainAt (Slots.home hash s.slots.size)).size
  /-- A report is about the chain touched, which is empty only after a removal. -/
  reported : ∀ answer r, result = .ok (answer, some r) →
    0 < s.slots.size ∧ op.mutated answer = true ∧ r.slotCount = s.slots.size ∧
      r.size = (s'.slots.chainAt (Slots.home hash s.slots.size)).size ∧
      r.size ≤ (s.slots.chainAt (Slots.home hash s.slots.size)).size + 1 ∧
      (r.removed = false → 0 < r.size)

/-- Work on one chain leaves the number of chains and the sizes of the others. -/
theorem sizes_set {slots : Slots S K V} {j : Nat} (hj : j < slots.size) (c : Chain S K V) :
    Array.size (slots.setIfInBounds j c) = slots.size ∧
      Slots.chainAt (slots.setIfInBounds j c) j = c ∧
      ∀ k, k ≠ j → (Slots.chainAt (slots.setIfInBounds j c) k).size = (slots.chainAt k).size := by
  refine ⟨Array.size_setIfInBounds, Slots.chainAt_set_self hj c, ?_⟩
  intro k hk
  rw [Slots.chainAt_set_ne slots hk.symm]

theorem totalAfter_error {total : Nat} {effect : Effect} {p : Panic}
    (h : totalAfter total effect = .error p) : effect = .removed ∧ p = .totalUnderflow := by
  cases effect with
  | none | replaced | added => cases h
  | removed =>
    unfold totalAfter at h
    simp only at h
    split at h <;> cases h
    exact ⟨rfl, rfl⟩

theorem reportOf_none {size slotCount : Nat} {effect : Effect}
    (h : reportOf size slotCount effect = none) : effect = .none := by
  cases effect with
  | none => rfl
  | replaced | added | removed => cases h

theorem reportOf_some {size slotCount : Nat} {effect : Effect} {r : Report}
    (h : reportOf size slotCount effect = some r) :
    effect ≠ .none ∧ r.size = size ∧ r.slotCount = slotCount ∧
      (r.removed = false → effect = .added ∨ effect = .replaced) := by
  cases effect with
  | none => cases h
  | replaced =>
    cases h
    exact ⟨nofun, rfl, rfl, fun _ => .inr rfl⟩
  | added =>
    cases h
    exact ⟨nofun, rfl, rfl, fun _ => .inl rfl⟩
  | removed =>
    cases h
    exact ⟨nofun, rfl, rfl, nofun⟩

variable [BEq K]

theorem access_of_no_slots {s : Shard S K V P} (h : s.slots.size = 0) (hash : UInt64)
    (op : Operation K V R) : s.access hash op = (.error .noSlots, s) := by
  unfold access Slots.onHome Slots.home?
  rw [if_pos h]

/-- On slots, an access works on the home chain of its hash and then on the total. -/
theorem access_of_pos {s : Shard S K V P} (hpos : 0 < s.slots.size) (hash : UInt64)
    (op : Operation K V R) :
    let done := op.onChain hash (s.slots.chainAt (Slots.home hash s.slots.size))
    let slots := s.slots.setIfInBounds (Slots.home hash s.slots.size) done.2
    s.access hash op =
      match totalAfter s.total done.1.2 with
      | .error p => (.error p, { s with slots })
      | .ok total => (.ok (done.1.1, reportOf done.2.size s.slots.size done.1.2),
          { s with slots, total }) := by
  intro done slots
  have hsize : slots.size = s.slots.size := Array.size_setIfInBounds
  unfold access
  dsimp only
  rw [Slots.onHome_of_pos hpos]
  show (match totalAfter s.total done.1.2 with
    | .error p => (Except.error p, { s with slots })
    | .ok total => (Except.ok (done.1.1, reportOf done.2.size slots.size done.1.2),
        { s with slots, total })) = _
  rw [hsize]

/-- On slots, a look-up goes to the home chain of its hash. -/
theorem value?_of_pos {s : Shard S K V P} (h : 0 < s.slots.size) (hash : UInt64) (key : K) :
    s.value? hash key = .ok ((s.slots.chainAt (Slots.home hash s.slots.size)).get? hash key) := by
  unfold value? Slots.chainFor
  rw [Slots.home?_of_pos hash h]
  rfl

theorem touched_access (s : Shard S K V P) (hash : UInt64) (op : Operation K V R) :
    Touched hash op s (s.access hash op).2 (s.access hash op).1 := by
  rcases Nat.eq_zero_or_pos s.slots.size with hzero | hpos
  · rw [access_of_no_slots hzero]
    exact ⟨rfl, rfl, fun _ _ => rfl, fun _ => Nat.le_refl _, fun _ _ h => by cases h⟩
  · have hacc := access_of_pos hpos hash op
    have hmutated := op.mutated_onChain hash (s.slots.chainAt (Slots.home hash s.slots.size))
    have hle := op.size_onChain_le hash (s.slots.chainAt (Slots.home hash s.slots.size))
    obtain ⟨hsize, hself, hothers⟩ := sizes_set (Slots.home_lt hash hpos)
      (op.onChain hash (s.slots.chainAt (Slots.home hash s.slots.size))).2
    have hhome := congrArg Chain.size hself
    simp only at hacc
    rw [hacc]
    split
    · rename_i p htotal
      refine ⟨hsize, rfl, hothers, fun _ => ?_, nofun⟩
      have hlt := Operation.size_of_removed (totalAfter_error htotal).1
      exact Nat.le_trans (Nat.le_of_eq hhome) (Nat.le_of_lt hlt)
    · refine ⟨hsize, rfl, hothers, ?_, ?_⟩
      · intro hsilent
        have hnone := reportOf_none (Option.eq_none_iff_forall_ne_some.2 fun r h =>
          hsilent _ r (congrArg (fun report => Except.ok (_, report)) h))
        exact Nat.le_of_eq (hhome.trans (Operation.size_of_none hnone))
      · intro answer r h
        obtain ⟨hanswer, hr⟩ := Prod.mk.inj (Except.ok.inj h)
        obtain ⟨heffect, hrsize, hrcount, hstored⟩ := reportOf_some hr
        rw [← hanswer, hrsize, hrcount]
        exact ⟨hpos, hmutated.2 heffect, rfl, hhome.symm, hle,
          fun hkept => Operation.size_pos_of_stored (hstored hkept)⟩

end Shard

end ShardedMap
