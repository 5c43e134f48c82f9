import ShardedMap.Proofs.Shard.Access
/-
  A keyed operation on a shard that no one else works on: its phases one after another
  (`Shard.perform`). On a sound shard it answers by the entry for its key and leaves a sound shard
  of the entries after the access, whether the policy resizes or panics (`Sound.perform`).
-/
namespace ShardedMap

variable {S : Type → Type} {H : Type} [DecidableEq H] [Storage S H] [LawfulStorage S H]

namespace Shard

variable {K V P R : Type} [ResizePolicy P]

/-- Takes a report to the policy: the phases after the access, with what happened, oldest first. -/
def settle (s : Shard S K V P) (r : Report) :
    Except Panic Unit × Shard S K V P × List PolicyEvent :=
  let inspected := PolicyEvent.inspected s.total r.size
  let (verdict, s) := s.inspect r
  if verdict = .normal then (.ok (), s, [inspected])
  else
    let asked := PolicyEvent.asked verdict r.slotCount
    let (wanted, s) := s.wants verdict r.slotCount
    if wanted then
      let (result, s, events) := s.resize verdict
      (result, s, inspected :: asked :: events)
    else (.ok (), s, [inspected, asked])

/-- All phases of a keyed operation, with what happened between the shard and its policy. -/
def perform [BEq K] (s : Shard S K V P) (hash : UInt64) (op : Operation K V R) :
    Except Panic (Answer V R) × Shard S K V P × List PolicyEvent :=
  match s.access hash op with
  | (.error p, s) => (.error p, s, [])
  | (.ok (answer, none), s) => (.ok answer, s, [])
  | (.ok (answer, some r), s) =>
    let (result, s, events) := s.settle r
    (result.map fun () => answer, s, events)

theorem Sound.settle [BEq K] [PartialEquivBEq K] {s : Shard S K V P} (hs : s.Sound) {r : Report}
    (hr : 0 < r.slotCount) : Settled s (s.settle r).2.1 := by
  have hi := hs.inspect r
  unfold Shard.settle
  rcases hx : s.inspect r with ⟨verdict, s₁⟩
  rw [hx] at hi
  simp only
  split
  · exact hi
  · have hw := hi.sound.wants verdict hr
    rcases hy : s₁.wants verdict r.slotCount with ⟨wanted, s₂⟩
    rw [hy] at hw
    simp only
    split
    · exact hi.trans (hw.trans (hw.sound.resize verdict))
    · exact hi.trans hw

/-- Taking a report to a cautious policy does not panic. -/
theorem settle_ok {s : Shard S K V P} (hpos : 0 < s.slots.size)
    (hp : ResizePolicy.Cautious S K V s.policy) {r : Report} (hr : 0 < r.slotCount) :
    (s.settle r).1 = .ok () := by
  have hinspected : 0 < (s.inspect r).2.slots.size := hpos
  have hi : ResizePolicy.Cautious S K V (s.inspect r).2.policy :=
    hp.becomes (.inspect .same s.total r.size)
  unfold Shard.settle
  rcases hx : s.inspect r with ⟨verdict, s₁⟩
  rw [hx] at hi hinspected
  simp only
  split
  · rfl
  · have hasked : 0 < (s₁.wants verdict r.slotCount).2.slots.size := hinspected
    have hw : ResizePolicy.Cautious S K V (s₁.wants verdict r.slotCount).2.policy :=
      hi.becomes (.wants .same verdict hr)
    rcases hy : s₁.wants verdict r.slotCount with ⟨wanted, s₂⟩
    rw [hy] at hw hasked
    simp only
    split
    · exact resize_ok hasked hw verdict
    · rfl

variable [BEq K] [EquivBEq K]

/-- An operation on a sound shard concerns the entry for its key alone. Whatever the policy does,
the shard is sound afterwards and holds what the operation left. -/
theorem Sound.perform {s : Shard S K V P} (hs : s.Sound) (hash : UInt64) (op : Operation K V R) :
    ∃ (found : Option (Entry K V)) (rest : List (Entry K V)),
      s.slots.entries.Perm (found.toList ++ rest) ∧
      (∀ e ∈ found, e.isFor hash op.key = true) ∧ (∀ e ∈ rest, e.isFor hash op.key = false) ∧
      (s.perform hash op).2.1.slots.entries.Perm ((op.onEntry hash found).2.toList ++ rest) ∧
      (s.perform hash op).2.1.Sound ∧
      ResizePolicy.Becomes S K V s.policy (s.perform hash op).2.1.policy ∧
      (ResizePolicy.Cautious S K V s.policy →
        (s.perform hash op).1 = .ok (op.onEntry hash found).1.1) := by
  obtain ⟨found, rest, hacc, hans, hsound⟩ := hs.access hash op
  refine ⟨found, rest, hacc.before, hacc.hit, hacc.miss, ?_⟩
  have hafter := hacc.after
  have hpol := hacc.policy
  unfold Shard.perform
  rcases hx : s.access hash op with ⟨result, s₁⟩
  rw [hx] at hans hsound hafter hpol
  simp only at hans hpol
  rw [hans]
  cases hr : reportOf (s.chainAfter hash op).size s.slots.size (op.onEntry hash found).1.2 with
  | none => exact ⟨hafter, hsound, hpol ▸ .same, fun _ => rfl⟩
  | some r =>
    have hcount : 0 < r.slotCount := (reportOf_some hr).2.2.1 ▸ hs.pos
    have hset := hsound.settle hcount
    refine ⟨hset.entries.trans hafter, hset.sound, hpol ▸ hset.policy, ?_⟩
    intro hp
    have hok := settle_ok hsound.pos (hpol ▸ hp : ResizePolicy.Cautious S K V s₁.policy) hcount
    show (s₁.settle r).1.map _ = _
    rw [hok]
    rfl

end Shard

end ShardedMap
