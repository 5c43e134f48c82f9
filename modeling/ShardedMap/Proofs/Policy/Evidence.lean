import Mathlib.Algebra.Group.Nat.Defs
import ShardedMap.Proofs.Policy.Cautious
/-
  The evidence of the stock policy. Every judgement counts at most once, and each count is worth
  four slots (`credit`): a decision to resize goes up by no more slots than the evidence for it is
  worth, and uses all of it up (`decidePlan_reach`). As long as decisions are taken in time, the
  evidence stays below both gates (`Calm`).
-/
namespace ShardedMap

namespace LoadPolicy

/-! ## Counting -/

theorem toNat_succ_le (count : UInt64) : (count + 1).toNat ≤ count.toNat + 1 := by
  rw [UInt64.toNat_add]
  exact Nat.mod_le _ _

theorem toNat_succ_of_lt {count : UInt64} (h : count.toNat + 1 < 2 ^ 64) :
    (count + 1).toNat = count.toNat + 1 := by
  rw [UInt64.toNat_add]
  exact Nat.mod_eq_of_lt h

theorem toNat_succ {count : UInt64} (h : count.toNat < 2 ^ 63) :
    (count + 1).toNat = count.toNat + 1 :=
  toNat_succ_of_lt (by omega)

theorem fourfold_le (count : UInt64) : fourfold count ≤ count.toNat * 4 := Nat.min_le_left _ _

theorem one_le_thresholdFor (f : LoadFactor) (total slotCount : Nat) :
    1 ≤ (thresholdFor f total slotCount).toNat := by
  unfold thresholdFor
  generalize ((average total slotCount).toFloat * f.value).toUInt64 = scaled
  rcases UInt64.le_total scaled 1 with h | h
  · rw [show max scaled 1 = 1 from if_pos h]
    exact Nat.le_refl 1
  · show 1 ≤ (if scaled ≤ 1 then 1 else scaled).toNat
    split
    · exact Nat.le_refl 1
    · exact UInt64.le_iff_toNat_le.1 h

/-! ## Judging -/

/-- The greatest size that is not overweight. -/
def limit (p : LoadPolicy) : Nat := min p.maxSlotSize (p.threshold.toNat - 1)

theorem limit_lt_iff {p : LoadPolicy} (h : 1 ≤ p.threshold.toNat) (size : Nat) :
    p.limit < size ↔ p.maxSlotSize < size ∨ p.threshold.toNat ≤ size := by
  unfold limit
  omega

theorem judge_of_lt {p : LoadPolicy} (h : 1 ≤ p.threshold.toNat) {size : Nat}
    (hsize : p.limit < size) :
    p.judge size = (.overweight, { p with overweight := p.overweight + 1 }) :=
  if_pos ((limit_lt_iff h size).1 hsize)

theorem judge_of_le {p : LoadPolicy} (h : 1 ≤ p.threshold.toNat) {size : Nat}
    (hsize : size ≤ p.limit) :
    p.judge size = (.normal, if size = 0 then { p with empty := p.empty + 1 } else p) := by
  have hlight : ¬ (p.maxSlotSize < size ∨ p.threshold.toNat ≤ size) := by
    rw [← limit_lt_iff h size]
    omega
  unfold judge
  rw [if_neg hlight]
  split <;> rfl

theorem judge_fst_iff {p : LoadPolicy} (h : 1 ≤ p.threshold.toNat) (size : Nat) :
    (p.judge size).1 = .overweight ↔ p.limit < size := by
  rcases Nat.lt_or_ge p.limit size with hsize | hsize
  · simp [judge_of_lt h hsize, hsize]
  · simp [judge_of_le h hsize, hsize]

theorem limit_judge (p : LoadPolicy) (size : Nat) : (p.judge size).2.limit = p.limit := by
  unfold judge
  split
  · rfl
  · split <;> rfl

/-! ## Deciding -/

theorem ready_overweight {p : LoadPolicy} {slotCount : Nat} :
    p.ready .overweight slotCount = true ↔ slotCount < fourfold p.overweight := by
  simp [ready]

theorem ready_underweight {p : LoadPolicy} {slotCount : Nat} :
    p.ready .underweight slotCount = true ↔
      underweightMinSlots ≤ slotCount ∧ slotCount ≤ fourfold p.empty := by
  simp [ready]

theorem overweight_le_of_not_ready {p : LoadPolicy} {slotCount : Nat} (hlt : slotCount < 2 ^ 63)
    (h : p.ready .overweight slotCount = false) : p.overweight.toNat * 4 ≤ slotCount := by
  have hgate : ¬ slotCount < fourfold p.overweight := by
    rw [← ready_overweight, h]
    exact Bool.false_ne_true
  unfold fourfold maxWord at hgate
  omega

theorem empty_lt_of_not_ready {p : LoadPolicy} {slotCount : Nat} (hlt : slotCount < 2 ^ 63)
    (hmin : underweightMinSlots ≤ slotCount) (h : p.ready .underweight slotCount = false) :
    p.empty.toNat * 4 < slotCount := by
  have hgate : ¬ (underweightMinSlots ≤ slotCount ∧ slotCount ≤ fourfold p.empty) := by
    rw [← ready_underweight, h]
    exact Bool.false_ne_true
  unfold fourfold maxWord at hgate
  omega

/-- How many slots the evidence is worth. -/
def credit (p : LoadPolicy) : Nat := 4 * (p.overweight.toNat + p.empty.toNat)

theorem credit_judge (p : LoadPolicy) (size : Nat) : (p.judge size).2.credit ≤ p.credit + 4 := by
  have hover := toNat_succ_le p.overweight
  have hempty := toNat_succ_le p.empty
  unfold judge credit
  split
  · dsimp only
    omega
  · split
    · dsimp only
      omega
    · dsimp only
      omega

/-- Only a resize for which there is evidence goes ahead, and it does not lead further up than the
evidence is worth. -/
theorem target_of_ready {p : LoadPolicy} {v : Verdict} {slotCount : Nat}
    (h : p.ready v slotCount = true) :
    0 < p.credit ∧ slotCount ≤ target v slotCount ∧
      target v slotCount ≤ slotCount + p.credit := by
  cases v with
  | normal => cases h
  | overweight =>
    have hgate := ready_overweight.1 h
    show 0 < p.credit ∧ slotCount ≤ min (slotCount * 2) maxWord ∧ min (slotCount * 2) maxWord ≤ _
    unfold fourfold at hgate
    unfold credit
    omega
  | underweight =>
    obtain ⟨hmin, hgate⟩ := ready_underweight.1 h
    show 0 < p.credit ∧ slotCount ≤ max (min (slotCount * 2) maxWord) 2 ∧
      max (min (slotCount * 2) maxWord) 2 ≤ _
    unfold fourfold at hgate
    unfold underweightMinSlots at hmin
    unfold credit
    omega

theorem target_eq_double {p : LoadPolicy} {v : Verdict} {slotCount : Nat}
    (h : p.ready v slotCount = true) (hlt : slotCount < 2 ^ 63) :
    target v slotCount = slotCount * 2 := by
  cases v with
  | normal => cases h
  | overweight =>
    show min (slotCount * 2) maxWord = slotCount * 2
    unfold maxWord
    omega
  | underweight =>
    have hmin := (ready_underweight.1 h).1
    show max (min (slotCount * 2) maxWord) 2 = slotCount * 2
    unfold underweightMinSlots at hmin
    unfold maxWord
    omega

/-- A plan of the stock policy has one target at most, which is neither zero nor the slot count, and
uses the evidence up. -/
theorem decidePlan_cases (p : LoadPolicy) (v : Verdict) (slotCount : Nat) :
    (p.ready v slotCount = false ∧ p.decidePlan v slotCount = ⟨[], false, p⟩) ∨
      (p.ready v slotCount = true ∧ target v slotCount = slotCount ∧
        p.decidePlan v slotCount = ⟨[], false, p.forget⟩) ∨
      (p.ready v slotCount = true ∧ target v slotCount ≠ slotCount ∧
        p.decidePlan v slotCount = ⟨[target v slotCount], true, p.forget⟩) := by
  unfold decidePlan
  cases h : p.ready v slotCount with
  | false => exact Or.inl ⟨rfl, rfl⟩
  | true =>
    by_cases ht : target v slotCount = slotCount
    · exact Or.inr (Or.inl ⟨rfl, ht, by simp [ht]⟩)
    · exact Or.inr (Or.inr ⟨rfl, ht, by simp [ht]⟩)

/-- The slot count that a plan leads to and the credit left afterwards are no more together than
before. -/
theorem decidePlan_reach (p : LoadPolicy) (v : Verdict) (slotCount : Nat) :
    (p.decidePlan v slotCount).targets.getLastD slotCount + (p.decidePlan v slotCount).next.credit ≤
      slotCount + p.credit := by
  rcases p.decidePlan_cases v slotCount with ⟨-, h⟩ | ⟨-, -, h⟩ | ⟨hready, -, h⟩
  · rw [h]
    exact Nat.le_refl _
  · rw [h]
    exact Nat.add_le_add_left (Nat.zero_le _) _
  · rw [h]
    exact (target_of_ready hready).2.2

theorem decidePlan_grows (p : LoadPolicy) (v : Verdict) (slotCount : Nat) :
    slotCount ≤ (p.decidePlan v slotCount).targets.getLastD slotCount := by
  rcases p.decidePlan_cases v slotCount with ⟨-, h⟩ | ⟨-, -, h⟩ | ⟨hready, -, h⟩
  · rw [h]
    exact Nat.le_refl _
  · rw [h]
    exact Nat.le_refl _
  · rw [h]
    exact (target_of_ready hready).2.1

/-! ## Evidence below the gates -/

/-- In a shard of `slotCount` slots neither gate stands open: at most a quarter of the slots were
judged overweight and, if there are many slots, less than a quarter were seen empty. -/
structure Calm (p : LoadPolicy) (slotCount : Nat) : Prop where
  overweight : p.overweight.toNat * 4 ≤ slotCount
  empty : underweightMinSlots ≤ slotCount → p.empty.toNat * 4 < slotCount
  threshold : 1 ≤ p.threshold.toNat

theorem calm_learn_forget (p : LoadPolicy) (total slotCount : Nat) :
    (p.forget.learn total slotCount).Calm slotCount := by
  refine ⟨Nat.zero_le _, ?_, one_le_thresholdFor _ _ _⟩
  intro h
  have hzero : (0 : UInt64).toNat * 4 = 0 := rfl
  show (0 : UInt64).toNat * 4 < slotCount
  unfold underweightMinSlots at h
  omega

theorem calm_ofSettings (s : PolicySettings) (slotCount : Nat) :
    ((ofSettings s).learn 0 slotCount).Calm slotCount :=
  calm_learn_forget (ofSettings s) 0 slotCount

theorem Calm.not_ready {p : LoadPolicy} {slotCount : Nat} (h : p.Calm slotCount) (v : Verdict) :
    p.ready v slotCount = false := by
  cases v with
  | normal => rfl
  | overweight =>
    have hle := Nat.le_trans (fourfold_le p.overweight) h.overweight
    rw [← Bool.not_eq_true, ready_overweight]
    omega
  | underweight =>
    rw [← Bool.not_eq_true, ready_underweight]
    rintro ⟨hmin, hgate⟩
    have hle := fourfold_le p.empty
    have hlt := h.empty hmin
    omega

theorem Calm.judge_zero {p : LoadPolicy} {slotCount : Nat} (h : p.Calm slotCount) :
    (p.judge 0).1 ≠ .overweight := by
  rw [Ne, judge_fst_iff h.threshold]
  exact Nat.not_lt_zero _

/-- The verdict on a size that a removal leaves if it is zero: zero is underweight if the policy
finds nothing else. -/
def conclude (p : LoadPolicy) (size : Nat) : Verdict :=
  if (p.judge size).1 = .normal ∧ size = 0 then .underweight else (p.judge size).1

theorem conclude_of_lt {p : LoadPolicy} (h : 1 ≤ p.threshold.toNat) {size : Nat}
    (hsize : p.limit < size) : p.conclude size = .overweight := by
  simp [conclude, judge_of_lt h hsize]

theorem conclude_zero {p : LoadPolicy} (h : 1 ≤ p.threshold.toNat) :
    p.conclude 0 = .underweight := by
  simp [conclude, judge_of_le h (Nat.zero_le _)]

/-- A judgement that opens no gate leaves the policy calm. -/
theorem Calm.judge {p : LoadPolicy} {slotCount size : Nat} (h : p.Calm slotCount)
    (hlt : slotCount < 2 ^ 63)
    (hclosed : (p.judge size).2.ready (p.conclude size) slotCount = false) :
    (p.judge size).2.Calm slotCount := by
  rcases Nat.lt_or_ge p.limit size with hsize | hsize
  · rw [conclude_of_lt h.threshold hsize, judge_of_lt h.threshold hsize] at hclosed
    rw [judge_of_lt h.threshold hsize]
    exact ⟨overweight_le_of_not_ready hlt hclosed, h.empty, h.threshold⟩
  · by_cases hzero : size = 0
    · subst hzero
      rw [conclude_zero h.threshold, judge_of_le h.threshold hsize] at hclosed
      rw [judge_of_le h.threshold hsize]
      exact ⟨h.overweight, fun hmin => empty_lt_of_not_ready hlt hmin hclosed, h.threshold⟩
    · rw [judge_of_le h.threshold hsize]
      simp only [hzero, if_false]
      exact h

end LoadPolicy

end ShardedMap
