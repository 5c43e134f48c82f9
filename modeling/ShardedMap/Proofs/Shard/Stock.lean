import ShardedMap.Proofs.Policy.Evidence
import ShardedMap.Proofs.Shard.Access
import ShardedMap.Proofs.Shard.Perform
/-
  Shards with the stock policy. A keyed operation leaves the policy alone, or it has one size judged
  and the slot count stays, or it doubles the slot count and uses the evidence up (`Evolves`,
  `evolves_perform`). Nothing makes the slot count smaller (`size_perform`).
-/
namespace ShardedMap

variable {S : Type → Type} {H : Type} [DecidableEq H] [Storage S H] [LawfulStorage S H]

variable {K V R : Type}

/-- The event is a resize. -/
def PolicyEvent.isResize : PolicyEvent → Bool
  | resized _ _ => true
  | _ => false

namespace Shard

/-! ## One phase -/

theorem wants_stock (s : Shard S K V LoadPolicy) (v : Verdict) (slotCount : Nat) :
    s.wants v slotCount = (s.policy.ready v slotCount, s) := rfl

/-- The stock policy judges the size alone. -/
theorem inspect_stock (s : Shard S K V LoadPolicy) {r : Report}
    (hr : r.removed = false → 0 < r.size) :
    s.inspect r = (s.policy.conclude r.size, { s with policy := (s.policy.judge r.size).2 }) := by
  have hverdict : ((s.policy.judge r.size).1 = .normal ∧ r.removed ∧ r.size = 0) ↔
      ((s.policy.judge r.size).1 = .normal ∧ r.size = 0) := by
    constructor
    · rintro ⟨hn, -, hz⟩
      exact ⟨hn, hz⟩
    · rintro ⟨hn, hz⟩
      refine ⟨hn, ?_, hz⟩
      cases hrem : r.removed with
      | true => rfl
      | false =>
        have hpos := hr hrem
        omega
  show (if _ then _ else _, _) = _
  unfold LoadPolicy.conclude
  refine Prod.ext ?_ rfl
  exact if_congr hverdict rfl rfl

/-- A resize by the stock policy stays, with or without the evidence, or has one target. -/
theorem resize_stock (s : Shard S K V LoadPolicy) (v : Verdict) :
    (s.policy.ready v s.slots.size = false ∧ (s.resize v).2.1 = s) ∨
      (s.policy.ready v s.slots.size = true ∧ LoadPolicy.target v s.slots.size = s.slots.size ∧
        (s.resize v).2.1 = { s with policy := s.policy.forget }) ∨
      (s.policy.ready v s.slots.size = true ∧ LoadPolicy.target v s.slots.size ≠ s.slots.size ∧
        (s.resize v).2.1 =
          { s with
            slots := s.slots.resized (LoadPolicy.target v s.slots.size)
            policy := s.policy.forget.learn s.total (LoadPolicy.target v s.slots.size) }) := by
  have hplan : ResizePolicy.plan s.policy v s.slots = s.policy.decidePlan v s.slots.size := rfl
  rcases s.policy.decidePlan_cases v s.slots.size with
    ⟨hready, h⟩ | ⟨hready, ht, h⟩ | ⟨hready, ht, h⟩
  · refine Or.inl ⟨hready, ?_⟩
    unfold resize
    simp only [hplan, h]
    rfl
  · refine Or.inr (Or.inl ⟨hready, ht, ?_⟩)
    unfold resize
    simp only [hplan, h]
    rfl
  · have hpos : 0 < LoadPolicy.target v s.slots.size :=
      Nat.pos_of_ne_zero (LoadPolicy.target_ne_zero ht)
    have hout := s.slots.carryOut_singleton hpos
    refine Or.inr (Or.inr ⟨hready, ht, ?_⟩)
    unfold resize
    simp only [hplan, h, hout, if_true, Slots.size_resized]
    rfl

theorem size_resize_stock (s : Shard S K V LoadPolicy) (v : Verdict) :
    s.slots.size ≤ (s.resize v).2.1.slots.size := by
  rcases s.resize_stock v with ⟨-, h⟩ | ⟨-, -, h⟩ | ⟨hready, -, h⟩
  · exact Nat.le_of_eq (by rw [h])
  · exact Nat.le_of_eq (by rw [h])
  · rw [h]
    show _ ≤ (s.slots.resized _).size
    rw [Slots.size_resized]
    exact (LoadPolicy.target_of_ready hready).2.1

/-- With evidence, a resize by the stock policy doubles the slot count. -/
theorem resize_eq_of_ready {s : Shard S K V LoadPolicy} {v : Verdict} (hpos : 0 < s.slots.size)
    (hlt : s.slots.size < 2 ^ 63) (h : s.policy.ready v s.slots.size = true) :
    s.resize v = (.ok (),
      { s with
        slots := s.slots.resized (s.slots.size * 2)
        policy := s.policy.forget.learn s.total (s.slots.size * 2) },
      [.planned v s.slots.size, .resized s.slots.entryCount (s.slots.size * 2),
        .recomputed s.total (s.slots.size * 2)]) := by
  have hdouble := LoadPolicy.target_eq_double h hlt
  have hplan : ResizePolicy.plan s.policy v s.slots =
      ⟨[s.slots.size * 2], true, s.policy.forget⟩ := by
    rcases s.policy.decidePlan_cases v s.slots.size with ⟨hshut, -⟩ | ⟨-, hstay, -⟩ | ⟨-, -, hgo⟩
    · rw [h] at hshut
      cases hshut
    · omega
    · rw [hdouble] at hgo
      exact hgo
  have htarget : 0 < s.slots.size * 2 := by omega
  have hout := s.slots.carryOut_singleton htarget
  unfold resize
  simp only [hplan, hout, if_true, Slots.size_resized]
  rfl

/-! ## All phases -/

/-- Taking a report to the stock policy is a judgement and, if that opens a gate, a resize. -/
theorem settle_stock (s : Shard S K V LoadPolicy) {r : Report} (hcount : r.slotCount = s.slots.size)
    (hr : r.removed = false → 0 < r.size) :
    let judged := { s with policy := (s.policy.judge r.size).2 }
    let v := s.policy.conclude r.size
    (judged.policy.ready v s.slots.size = false ∧ (s.settle r).2.1 = judged ∧
        (s.settle r).2.2.countP PolicyEvent.isResize = 0) ∨
      (judged.policy.ready v s.slots.size = true ∧ (s.settle r).2.1 = (judged.resize v).2.1 ∧
        (s.settle r).2.2.countP PolicyEvent.isResize =
          (judged.resize v).2.2.countP PolicyEvent.isResize) := by
  intro judged v
  have hjudged : s.inspect r = (v, judged) := s.inspect_stock hr
  unfold settle
  simp only [hjudged, hcount, wants_stock]
  by_cases hnormal : v = .normal
  · left
    rw [if_pos hnormal, hnormal]
    exact ⟨rfl, rfl, rfl⟩
  · rw [if_neg hnormal]
    cases hready : judged.policy.ready v s.slots.size with
    | false => exact Or.inl ⟨rfl, rfl, rfl⟩
    | true => exact Or.inr ⟨rfl, rfl, rfl⟩

/-- What an operation makes of a shard with the stock policy, and how many resizes it takes. -/
inductive Evolves (s s' : Shard S K V LoadPolicy) : Nat → Prop where
  /-- Nothing is judged, and no chain becomes longer. -/
  | idle (slotCount : s'.slots.size = s.slots.size) (policy : s'.policy = s.policy)
      (sizes : ∀ j, (s'.slots.chainAt j).size ≤ (s.slots.chainAt j).size) : Evolves s s' 0
  /-- The size of one chain is judged, and no gate opens. -/
  | judged (j : Nat) (slotCount : s'.slots.size = s.slots.size)
      (policy : s'.policy = (s.policy.judge (s'.slots.chainAt j).size).2)
      (closed : s'.policy.ready (s.policy.conclude (s'.slots.chainAt j).size) s.slots.size = false)
      (touched : (s'.slots.chainAt j).size ≤ (s.slots.chainAt j).size + 1)
      (others : ∀ k, k ≠ j → (s'.slots.chainAt k).size = (s.slots.chainAt k).size) :
      Evolves s s' 0
  /-- A gate opens: the slot count doubles, and no evidence is left. -/
  | doubled (p : LoadPolicy) (total : Nat) (slotCount : s'.slots.size = s.slots.size * 2)
      (policy : s'.policy = p.forget.learn total s'.slots.size) : Evolves s s' 1

variable [BEq K]

theorem size_perform (s : Shard S K V LoadPolicy) (hash : UInt64) (op : Operation K V R) :
    s.slots.size ≤ (s.perform hash op).2.1.slots.size := by
  have ht := touched_access s hash op
  unfold perform
  rcases hx : s.access hash op with ⟨result, s₁⟩
  rw [hx] at ht
  rcases result with p | ⟨answer, _ | r⟩
  · exact Nat.le_of_eq ht.slotCount.symm
  · exact Nat.le_of_eq ht.slotCount.symm
  · obtain ⟨-, -, hcount, -, -, hr⟩ := ht.reported answer r rfl
    rw [← ht.slotCount] at hcount ⊢
    show _ ≤ (s₁.settle r).2.1.slots.size
    rcases s₁.settle_stock hcount hr with ⟨-, h, -⟩ | ⟨-, h, -⟩
    · exact Nat.le_of_eq (by rw [h])
    · rw [h]
      exact size_resize_stock { s₁ with policy := (s₁.policy.judge r.size).2 } _

theorem evolves_perform {s : Shard S K V LoadPolicy} (hlt : s.slots.size < 2 ^ 63) (hash : UInt64)
    (op : Operation K V R) :
    Evolves s (s.perform hash op).2.1
      ((s.perform hash op).2.2.countP PolicyEvent.isResize) := by
  have ht := touched_access s hash op
  unfold perform
  rcases hx : s.access hash op with ⟨result, s₁⟩
  rw [hx] at ht
  have hidle : (∀ answer r, result ≠ .ok (answer, some r)) → Evolves s s₁ 0 := by
    intro hsilent
    refine .idle ht.slotCount ht.policy ?_
    intro j
    by_cases hj : j = Slots.home hash s.slots.size
    · subst hj
      exact ht.silent hsilent
    · exact Nat.le_of_eq (ht.others j hj)
  rcases result with p | ⟨answer, _ | r⟩
  · exact hidle fun _ _ h => by cases h
  · exact hidle fun _ _ h => by cases h
  · obtain ⟨hpos, -, hcount, hsize, hle, hr⟩ := ht.reported answer r rfl
    have hcount' : r.slotCount = s₁.slots.size := by rw [hcount, ht.slotCount]
    show Evolves s (s₁.settle r).2.1 ((s₁.settle r).2.2.countP PolicyEvent.isResize)
    rcases s₁.settle_stock hcount' hr with ⟨hclosed, h, hevents⟩ | ⟨hopen, h, hevents⟩
    · rw [h, hevents]
      rw [ht.policy, ht.slotCount, hsize] at hclosed
      refine .judged (Slots.home hash s.slots.size) ht.slotCount ?_ ?_ ?_ ht.others
      · show (s₁.policy.judge r.size).2 = _
        rw [ht.policy, hsize]
      · show (s₁.policy.judge r.size).2.ready _ _ = false
        rw [ht.policy, hsize]
        exact hclosed
      · rw [← hsize]
        exact hle
    · have hresize := resize_eq_of_ready
        (s := { s₁ with policy := (s₁.policy.judge r.size).2 })
        (ht.slotCount.symm ▸ hpos) (ht.slotCount.symm ▸ hlt) hopen
      rw [h, hevents, hresize]
      refine .doubled (s₁.policy.judge r.size).2 s₁.total ?_ ?_
      · show (s₁.slots.resized _).size = _
        rw [Slots.size_resized, ← ht.slotCount]
      · show _ = LoadPolicy.learn _ _ (s₁.slots.resized _).size
        rw [Slots.size_resized]

end Shard

end ShardedMap
