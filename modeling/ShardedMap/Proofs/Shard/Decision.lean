import ShardedMap.Proofs.Shard.Consultation
import ShardedMap.Proofs.Shard.Stock
/-
  When a shard with the stock policy is resized. An operation that puts an entry in place or takes
  one out has the size that it leaves judged. On calm evidence that judgement alone decides: the
  slot count doubles if the judgement is one more than a gate admits (`LoadPolicy.Due`), and
  otherwise it stays and the judgement is counted (`settle_of_due`, `settle_of_not_due`). So the
  policy is never asked for a plan unless one is carried out (`Sound.decided`).
-/
namespace ShardedMap

variable {S : Type → Type} {H : Type} [DecidableEq H] [Storage S H] [LawfulStorage S H]

variable {K V R : Type}

namespace LoadPolicy

/-- The policy finds a slot of `size` entries overweight. -/
def Overweight (p : LoadPolicy) (size : Nat) : Prop :=
  p.maxSlotSize < size ∨ p.threshold.toNat ≤ size

instance (p : LoadPolicy) (size : Nat) : Decidable (p.Overweight size) :=
  inferInstanceAs (Decidable (_ ∨ _))

/-- A slot that an operation leaves with `size` entries tips the balance in a shard of `slotCount`
slots: it is overweight, and with it more than a quarter of the slots were; or a removal left it
empty, there are many slots, and with it a quarter of them at least were seen empty. -/
def Due (p : LoadPolicy) (slotCount size : Nat) (removes : Bool) : Prop :=
  (p.Overweight size ∧ slotCount < 4 * (p.overweight.toNat + 1)) ∨
    (removes = true ∧ size = 0 ∧ 100 ≤ slotCount ∧ slotCount ≤ 4 * (p.empty.toNat + 1))

instance (p : LoadPolicy) (slotCount size : Nat) (removes : Bool) :
    Decidable (p.Due slotCount size removes) :=
  inferInstanceAs (Decidable (_ ∨ _))

/-- The evidence after a judgement of a slot of `size` entries that leads to no resize. -/
def counted (p : LoadPolicy) (size : Nat) : LoadPolicy :=
  { p with
    overweight := if p.Overweight size then p.overweight + 1 else p.overweight
    empty := if size = 0 then p.empty + 1 else p.empty }

/-- The policy after a resize of a shard of `total` entries to `slotCount` slots. -/
def renewed (p : LoadPolicy) (total slotCount : Nat) : LoadPolicy :=
  { p with
    threshold := thresholdFor p.loadFactor total slotCount
    overweight := 0
    empty := 0 }

theorem conclude_of_pos {p : LoadPolicy} (h : 1 ≤ p.threshold.toNat) {size : Nat}
    (hsize : size ≤ p.limit) (hpos : 0 < size) : p.conclude size = .normal := by
  have hne : size ≠ 0 := by omega
  simp [conclude, judge_of_le h hsize, hne]

/-- A judgement changes nothing that is kept when the evidence is used up. -/
theorem learn_forget_judge (p : LoadPolicy) (size total slotCount : Nat) :
    (p.judge size).2.forget.learn total slotCount = p.renewed total slotCount := by
  unfold judge
  split
  · rfl
  · split <;> rfl

theorem overweight_iff {p : LoadPolicy} (h : 1 ≤ p.threshold.toNat) {size : Nat} :
    p.Overweight size ↔ p.limit < size :=
  (limit_lt_iff h size).symm

theorem judge_eq_counted {p : LoadPolicy} (h : 1 ≤ p.threshold.toNat) (size : Nat) :
    (p.judge size).2 = p.counted size := by
  unfold counted
  rcases Nat.lt_or_ge p.limit size with hsize | hsize
  · have hne : size ≠ 0 := by omega
    rw [judge_of_lt h hsize, if_pos ((overweight_iff h).2 hsize), if_neg hne]
  · have hlight : ¬ p.Overweight size := by
      rw [overweight_iff h]
      omega
    rw [judge_of_le h hsize, if_neg hlight]
    split <;> rfl

/-- On calm evidence a judgement opens a gate exactly if it tips the balance. No count has come near
the greatest word by then. -/
theorem Calm.ready_iff_due {p : LoadPolicy} {slotCount size : Nat} {removes : Bool}
    (h : p.Calm slotCount) (hlt : slotCount < 2 ^ 63) (hremoves : removes = false → 0 < size) :
    (p.judge size).2.ready (p.conclude size) slotCount = true ↔
      p.Due slotCount size removes := by
  unfold Due
  rw [overweight_iff h.threshold]
  rcases Nat.lt_or_ge p.limit size with hsize | hsize
  · have hover := h.overweight
    have hsucc : (p.overweight + 1).toNat = p.overweight.toNat + 1 := toNat_succ (by omega)
    rw [conclude_of_lt h.threshold hsize, judge_of_lt h.threshold hsize, ready_overweight]
    simp only [fourfold, maxWord, hsucc, hsize, true_and]
    omega
  · have hlight : ¬ p.limit < size := by omega
    simp only [hlight, false_and, false_or]
    rcases Nat.eq_zero_or_pos size with rfl | hpos
    · have hremoved : removes = true := by
        cases removes with
        | true => rfl
        | false => exact absurd (hremoves rfl) (Nat.lt_irrefl 0)
      rw [conclude_zero h.threshold, judge_of_le h.threshold hsize, ready_underweight]
      simp only [if_pos, hremoved, true_and, underweightMinSlots]
      refine and_congr_right fun hmin => ?_
      have hempty := h.empty hmin
      have hsucc : (p.empty + 1).toNat = p.empty.toNat + 1 := toNat_succ (by omega)
      simp only [fourfold, maxWord, hsucc]
      omega
    · have hne : size ≠ 0 := by omega
      rw [conclude_of_pos h.threshold hsize hpos]
      simp [ready, hne]

end LoadPolicy

namespace Shard

/-! ## Taking a report to the policy -/

variable {s : Shard S K V LoadPolicy} {r : Report}

/-- A judgement that tips the balance is followed by a resize, which doubles the slot count and
leaves no evidence. -/
theorem settle_of_due (hpos : 0 < s.slots.size) (hlt : s.slots.size < 2 ^ 63)
    (hcalm : s.policy.Calm s.slots.size) (hcount : r.slotCount = s.slots.size)
    (hr : r.removed = false → 0 < r.size) (hdue : s.policy.Due s.slots.size r.size r.removed) :
    let v := s.policy.conclude r.size
    s.settle r = (.ok (),
      { s with
        slots := s.slots.resized (s.slots.size * 2)
        policy := s.policy.renewed s.total (s.slots.size * 2) },
      [.inspected s.total r.size, .asked v s.slots.size, .planned v s.slots.size,
        .resized s.slots.entryCount (s.slots.size * 2),
        .recomputed s.total (s.slots.size * 2)]) := by
  intro v
  have hready := (hcalm.ready_iff_due hlt hr).2 hdue
  have habnormal : v ≠ .normal := by
    intro hnormal
    rw [show s.policy.conclude r.size = .normal from hnormal] at hready
    cases hready
  have hresize := resize_eq_of_ready (s := { s with policy := (s.policy.judge r.size).2 })
    hpos hlt hready
  unfold settle
  simp only [s.inspect_stock hr, hcount, wants_stock, if_neg habnormal, v, hready, if_true, hresize,
    LoadPolicy.learn_forget_judge]

/-- Any other judgement is counted, and no plan is asked for. -/
theorem settle_of_not_due (hlt : s.slots.size < 2 ^ 63) (hcalm : s.policy.Calm s.slots.size)
    (hcount : r.slotCount = s.slots.size) (hr : r.removed = false → 0 < r.size)
    (hdue : ¬ s.policy.Due s.slots.size r.size r.removed) :
    ∃ events, s.settle r = (.ok (), { s with policy := s.policy.counted r.size }, events) ∧
      events.any PolicyEvent.isResize = false ∧ ∀ v slotCount, .planned v slotCount ∉ events := by
  have hready :
      (s.policy.judge r.size).2.ready (s.policy.conclude r.size) s.slots.size = false := by
    rw [← Bool.not_eq_true]
    exact fun h => hdue ((hcalm.ready_iff_due hlt hr).1 h)
  unfold settle
  simp only [s.inspect_stock hr, hcount, wants_stock]
  rw [LoadPolicy.judge_eq_counted hcalm.threshold] at hready ⊢
  by_cases hnormal : s.policy.conclude r.size = .normal
  · rw [if_pos hnormal]
    exact ⟨_, rfl, rfl, by simp⟩
  · rw [if_neg hnormal, hready]
    exact ⟨_, rfl, rfl, by simp⟩

/-! ## Operations -/

variable [BEq K] [EquivBEq K]

/-- What became of the slots and the stock policy of `s` in an operation that answered `answer`,
with these events, and left `s'`. -/
structure Decided (s : Shard S K V LoadPolicy) (hash : UInt64) (op : Operation K V R)
    (answer : Answer V R) (s' : Shard S K V LoadPolicy) (events : List PolicyEvent) : Prop where
  /-- The slots are resized exactly if an entry was put in place or taken out and that tips the
  balance. -/
  resized_iff : events.any PolicyEvent.isResize = true ↔
    op.mutated answer = true ∧ s.policy.Due s.slots.size (s.sizeLeft hash op) op.removes
  /-- A plan is asked for only in order to be carried out. -/
  planned : ∀ v slotCount, .planned v slotCount ∈ events →
    events.any PolicyEvent.isResize = true
  /-- A resize doubles the slot count and leaves no evidence. -/
  doubled : events.any PolicyEvent.isResize = true →
    s'.slots.size = s.slots.size * 2 ∧ s'.policy = s.policy.renewed s'.total (s.slots.size * 2)
  /-- It begins with what the operation itself left in the slots. -/
  moved : events.any PolicyEvent.isResize = true →
    s'.slots = (s.access hash op).2.slots.resized (s.slots.size * 2)
  /-- Without a resize there are as many slots as before. -/
  stays : events.any PolicyEvent.isResize = false → s'.slots.size = s.slots.size
  /-- What was put in place or taken out without a resize is counted. -/
  counted : events.any PolicyEvent.isResize = false → op.mutated answer = true →
    s'.policy = s.policy.counted (s.sizeLeft hash op)
  /-- What puts nothing in place and takes nothing out does not reach the policy. -/
  silent : op.mutated answer = false →
    s'.slots.size = s.slots.size ∧ s'.policy = s.policy ∧ events = []

theorem Sound.decided {s : Shard S K V LoadPolicy} (hs : s.Sound)
    (hcalm : s.policy.Calm s.slots.size) (hlt : s.slots.size < 2 ^ 63) (hash : UInt64)
    (op : Operation K V R) :
    ∃ answer, (s.perform hash op).1 = .ok answer ∧
      s.Decided hash op answer (s.perform hash op).2.1 (s.perform hash op).2.2 := by
  obtain ⟨hcount, hpolicy, -, -, -⟩ := s.touched_access hash op
  have hpos := hs.pos
  obtain ⟨answer, -, ⟨hmutated, hperform⟩ |
    ⟨hmutated, r, hsize, hslots, hremoves, hr, hperform⟩⟩ := hs.perform_eq_settle hash op
  · refine ⟨answer, ?_⟩
    rw [hperform]
    refine ⟨rfl, ?_, nofun, nofun, nofun, fun _ => hcount, ?_,
      fun _ => ⟨hcount, hpolicy, rfl⟩⟩
    · simp [hmutated]
    · rw [hmutated]
      exact fun _ => nofun
  · refine ⟨answer, ?_⟩
    rw [hperform]
    rw [← hcount] at hslots hpos hlt hcalm
    rw [← hpolicy] at hcalm
    have hdecides :
        (s.access hash op).2.policy.Due (s.access hash op).2.slots.size r.size r.removed ↔
        s.policy.Due s.slots.size (s.sizeLeft hash op) op.removes := by
      rw [hpolicy, hcount, hsize, hremoves]
    by_cases hdue : s.policy.Due s.slots.size (s.sizeLeft hash op) op.removes
    · rw [settle_of_due hpos hlt hcalm hslots hr (hdecides.2 hdue), hcount, hpolicy]
      refine ⟨rfl, ?_, fun _ _ _ => rfl, fun _ => ⟨Slots.size_resized _ _, rfl⟩, fun _ => rfl,
        nofun, nofun, ?_⟩
      · exact ⟨fun _ => ⟨hmutated, hdue⟩, fun _ => rfl⟩
      · rw [hmutated]
        nofun
    · obtain ⟨events, hsettle, hnone, hunplanned⟩ :=
        settle_of_not_due hlt hcalm hslots hr (mt hdecides.1 hdue)
      rw [hsettle, hpolicy, hsize]
      refine ⟨rfl, ?_, fun v slotCount h => absurd h (hunplanned v slotCount), ?_, ?_,
        fun _ => hcount, fun _ _ => rfl, ?_⟩
      · simp [hnone, hdue]
      · simp [hnone]
      · simp [hnone]
      · rw [hmutated]
        nofun

end Shard

end ShardedMap
