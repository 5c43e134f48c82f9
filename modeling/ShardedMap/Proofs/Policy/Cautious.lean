import ShardedMap.Policy.Load
import ShardedMap.Policy.Scripted
/-
  Policies that never ask for no slot. A resize to no slot panics, and a policy may plan one; it is
  `Cautious` if no calls that a shard makes bring it to such a plan. A shard has one slot at least,
  so what a policy makes of no slots does not matter. The stock policy is cautious in every state,
  and a scripted policy is if it scales no slot count down.
-/
namespace ShardedMap

namespace ResizePolicy

variable (S : Type → Type) {H : Type} [DecidableEq H] [Storage S H] [LawfulStorage S H]
variable (K V : Type) {P : Type} [ResizePolicy P]

/-- `q` is what some calls of a shard from `K` to `V` make of the policy `p`. -/
inductive Becomes (p : P) : P → Prop where
  | same : Becomes p p
  | recompute {q : P} (h : Becomes p q) (total : Nat) {slotCount : Nat} (hpos : 0 < slotCount) :
    Becomes p (recompute q total slotCount)
  | inspect {q : P} (h : Becomes p q) (total size : Nat) : Becomes p (inspect q total size).2
  | wants {q : P} (h : Becomes p q) (v : Verdict) {slotCount : Nat} (hpos : 0 < slotCount) :
    Becomes p (wants q v slotCount).2
  | plan {q : P} (h : Becomes p q) (v : Verdict) {slots : Slots S K V} (hpos : 0 < slots.size) :
    Becomes p (plan q v slots).next

/-- Whatever calls a shard makes of the policy, it never plans a resize to no slot. -/
def Cautious (p : P) : Prop :=
  ∀ q, Becomes S K V p q → ∀ (v : Verdict) (slots : Slots S K V), 0 < slots.size →
    0 ∉ (plan q v slots).targets

variable {S K V}

theorem Becomes.trans {p q r : P} (h : Becomes S K V p q) (h' : Becomes S K V q r) :
    Becomes S K V p r := by
  induction h' with
  | same => exact h
  | recompute _ total hpos ih => exact ih.recompute total hpos
  | inspect _ total size ih => exact ih.inspect total size
  | wants _ v hpos ih => exact ih.wants v hpos
  | plan _ v hpos ih => exact ih.plan v hpos

theorem Cautious.becomes {p q : P} (hp : Cautious S K V p) (h : Becomes S K V p q) :
    Cautious S K V q :=
  fun r hr => hp r (h.trans hr)

theorem Cautious.targets {p : P} (hp : Cautious S K V p) (v : Verdict) {slots : Slots S K V}
    (hpos : 0 < slots.size) : 0 ∉ (plan p v slots).targets :=
  hp p .same v slots hpos

end ResizePolicy

variable {S : Type → Type} {H : Type} [DecidableEq H] [Storage S H] [LawfulStorage S H]

/-- A decision of the stock policy stays or leads to some slots. -/
theorem LoadPolicy.target_ne_zero {v : Verdict} {slotCount : Nat}
    (h : target v slotCount ≠ slotCount) : target v slotCount ≠ 0 := by
  cases v with
  | normal => exact absurd rfl h
  | overweight =>
    show min (slotCount * 2) maxWord ≠ 0
    have hne : min (slotCount * 2) maxWord ≠ slotCount := h
    unfold maxWord at hne ⊢
    omega
  | underweight =>
    show max (min (slotCount * 2) maxWord) minSlotCount ≠ 0
    unfold minSlotCount
    omega

theorem LoadPolicy.targets_decidePlan (p : LoadPolicy) (v : Verdict) (slotCount : Nat) :
    0 ∉ (p.decidePlan v slotCount).targets := by
  unfold decidePlan
  split
  · split
    · exact List.not_mem_nil
    · rename_i hne
      intro hm
      exact target_ne_zero hne (List.mem_singleton.1 hm).symm
  · exact List.not_mem_nil

theorem LoadPolicy.cautious (K V : Type) (p : LoadPolicy) : ResizePolicy.Cautious S K V p :=
  fun q _ v slots _ => q.targets_decidePlan v slots.size

theorem ScriptedPolicy.cautious (K V : Type) {p : ScriptedPolicy} (hpos : 0 < p.divisor)
    (hscale : p.divisor ≤ p.multiplier) : ResizePolicy.Cautious S K V p := by
  intro q hq v slots hslots
  obtain rfl : q = p := by
    induction hq with
    | same => rfl
    | recompute _ _ _ ih | inspect _ _ _ ih | wants _ _ _ ih | plan _ _ _ ih => exact ih
  have htarget : slots.size ≤ q.target slots.size := by
    refine Nat.le_trans ?_ (Nat.le_max_left _ _)
    rw [Nat.le_div_iff_mul_le hpos]
    exact Nat.mul_le_mul_left _ hscale
  show 0 ∉ if q.resizes then [q.target slots.size] else []
  split
  · rw [List.mem_singleton]
    omega
  · exact List.not_mem_nil

end ShardedMap
