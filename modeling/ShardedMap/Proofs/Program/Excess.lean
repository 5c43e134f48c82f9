import Mathlib.Algebra.BigOperators.Group.Finset.Piecewise
import Mathlib.Algebra.Order.BigOperators.Group.Finset
import ShardedMap.Proofs.Program.Gates
/-
  How long chains grow under the stock policy. A chain grows above the limit of the policy only in a
  judgement that counts, so what chains have grown above the limit and above their length after the
  last resize is, all together, no more than was counted since (`Shard.Evolves.excess_le`). The
  count never exceeds a quarter of the slots, and so neither does the growth (`excess_passed`).
-/
namespace ShardedMap

variable {S : Type → Type} {H : Type} [DecidableEq H] [Storage S H] [LawfulStorage S H]

variable {A : Type} {n : Nat} {K V M R : Type}

namespace Shard

/-- How far chains are, all together, above their levels and above the limit of the policy. -/
def excess (s : Shard S K V LoadPolicy) (level : Nat → Nat) : Nat :=
  ∑ j ∈ Finset.range s.slots.size,
    ((s.slots.chainAt j).size - max (level j) s.policy.limit)

theorem excess_lengths (s : Shard S K V LoadPolicy) :
    s.excess (fun j => (s.slots.chainAt j).size) = 0 :=
  Finset.sum_eq_zero fun _ _ => Nat.sub_eq_zero_of_le (Nat.le_max_left _ _)

variable {s s' : Shard S K V LoadPolicy}

theorem excess_le_of_sizes (slotCount : s'.slots.size = s.slots.size)
    (limit : s'.policy.limit = s.policy.limit) {level : Nat → Nat}
    (sizes : ∀ j, (s'.slots.chainAt j).size - max (level j) s.policy.limit ≤
      (s.slots.chainAt j).size - max (level j) s.policy.limit) :
    s'.excess level ≤ s.excess level := by
  unfold excess
  rw [slotCount, limit]
  exact Finset.sum_le_sum fun j _ => sizes j

theorem excess_le_succ (slotCount : s'.slots.size = s.slots.size)
    (limit : s'.policy.limit = s.policy.limit) {j : Nat}
    (touched : (s'.slots.chainAt j).size ≤ (s.slots.chainAt j).size + 1)
    (others : ∀ k, k ≠ j → (s'.slots.chainAt k).size = (s.slots.chainAt k).size)
    (level : Nat → Nat) : s'.excess level ≤ s.excess level + 1 := by
  have hone : ∑ k ∈ Finset.range s.slots.size, (if k = j then 1 else 0) ≤ 1 := by
    rw [Finset.sum_ite_eq']
    split
    · exact Nat.le_refl 1
    · exact Nat.zero_le 1
  have heach : ∀ k ∈ Finset.range s.slots.size,
      (s'.slots.chainAt k).size - max (level k) s.policy.limit ≤
        (s.slots.chainAt k).size - max (level k) s.policy.limit + if k = j then 1 else 0 := by
    intro k _
    by_cases hk : k = j
    · subst hk
      rw [if_pos rfl]
      omega
    · rw [others k hk]
      exact Nat.le_add_right _ _
  unfold excess
  rw [slotCount, limit]
  calc
    _ ≤ ∑ k ∈ Finset.range s.slots.size,
          ((s.slots.chainAt k).size - max (level k) s.policy.limit + if k = j then 1 else 0) :=
        Finset.sum_le_sum heach
    _ = _ + ∑ k ∈ Finset.range s.slots.size, (if k = j then 1 else 0) := Finset.sum_add_distrib
    _ ≤ _ := Nat.add_le_add_left hone _

/-- The policy has counted what chains have grown above the limit and above their length after the
last resize. -/
theorem Evolves.excess_le {k : Nat} (h : Evolves s s' k) (hlt : s.slots.size < 2 ^ 63)
    (hcalm : s.policy.Calm s.slots.size) {level : Nat → Nat}
    (hs : s.excess level ≤ s.policy.overweight.toNat) :
    s'.excess (if k = 0 then level else fun j => (s'.slots.chainAt j).size) ≤
      s'.policy.overweight.toNat := by
  cases h with
  | idle slotCount policy sizes =>
    rw [if_pos rfl, policy]
    refine Nat.le_trans (excess_le_of_sizes slotCount (by rw [policy]) ?_) hs
    intro j
    exact Nat.sub_le_sub_right (sizes j) _
  | judged j slotCount policy closed touched others =>
    have hlimit : s'.policy.limit = s.policy.limit := by
      rw [policy, LoadPolicy.limit_judge]
    rw [if_pos rfl]
    rcases Nat.lt_or_ge s.policy.limit (s'.slots.chainAt j).size with hsize | hsize
    · -- The size is above the limit: it was counted.
      have hmore := excess_le_succ slotCount hlimit touched others level
      have hcount := hcalm.overweight
      have hsucc : s'.policy.overweight.toNat = s.policy.overweight.toNat + 1 := by
        rw [policy, LoadPolicy.judge_of_lt hcalm.threshold hsize]
        exact LoadPolicy.toNat_succ (by omega)
      omega
    · have hsame : s'.policy.overweight = s.policy.overweight := by
        rw [policy, LoadPolicy.judge_of_le hcalm.threshold hsize]
        split <;> rfl
      rw [hsame]
      refine Nat.le_trans (excess_le_of_sizes slotCount hlimit ?_) hs
      intro i
      by_cases hi : i = j
      · subst hi
        omega
      · rw [others i hi]
  | doubled p total slotCount policy =>
    rw [if_neg Nat.one_ne_zero, excess_lengths]
    exact Nat.zero_le _

theorem excess_fresh (slotCount : Nat) (policy : LoadPolicy) (level : Nat → Nat) :
    (fresh slotCount policy : Shard S K V LoadPolicy).excess level = 0 := by
  apply Finset.sum_eq_zero
  intro j _
  show ((Slots.vacant slotCount : Slots S K V).chainAt j).size - _ = 0
  rw [Slots.chainAt_vacant, Chain.size_empty, Nat.zero_sub]

end Shard

namespace Session

/-- The lengths of the chains of shard `i` right after it was last resized, going by the sessions up
to now, newest first. They are zero if it was never resized. -/
def lengthsResized (i : Fin n) : List (Session n S K V LoadPolicy M) → Nat → Nat
  | s :: t :: older =>
    if s.resizes i = t.resizes i then lengthsResized i (t :: older)
    else fun j => (s.chainAt i j).size
  | _ => fun _ => 0

theorem lengthsResized_cons {i : Fin n} {s t : Session n S K V LoadPolicy M} {k : Nat}
    (h : s.resizes i = t.resizes i + k) (older : List (Session n S K V LoadPolicy M)) :
    lengthsResized i (s :: t :: older) =
      if k = 0 then lengthsResized i (t :: older) else fun j => (s.chainAt i j).size := by
  have hiff : s.resizes i = t.resizes i ↔ k = 0 := by omega
  rw [lengthsResized]
  simp only [hiff]

/-- Along a past that begins with a calm shard without excess, the count bounds the excess. -/
theorem excess_past {first : Session n S K V LoadPolicy M} {i : Fin n} (hcalm : CalmAt i first)
    (hfirst : ∀ level, (first.shards.get i).excess level = 0)
    {older : List (Session n S K V LoadPolicy M)} {s : Session n S K V LoadPolicy M}
    (hpast : (s :: older).IsChain fun s t => Moves i t s)
    (hlast : (s :: older).getLast? = some first) :
    CalmAt i s ∧ ((s.shards.get i).slots.size < 2 ^ 63 →
      (s.shards.get i).excess (lengthsResized i (s :: older)) ≤
        (s.shards.get i).policy.overweight.toNat) := by
  induction older generalizing s with
  | nil =>
    obtain rfl : s = first := Option.some.inj hlast
    refine ⟨hcalm, fun _ => ?_⟩
    rw [hfirst]
    exact Nat.zero_le _
  | cons t older ih =>
    obtain ⟨hmoves, hrest⟩ := List.isChain_cons_cons.1 hpast
    obtain ⟨hbefore, hexcess⟩ := ih hrest (List.getLast?_cons_cons ▸ hlast)
    refine ⟨hmoves.calmAt hbefore, fun hlt => ?_⟩
    have hlt' : (t.shards.get i).slots.size < 2 ^ 63 := Nat.lt_of_le_of_lt hmoves.grows hlt
    obtain ⟨k, hresizes, hevolves⟩ := hmoves.evolves hlt'
    rw [lengthsResized_cons hresizes]
    exact hevolves.excess_le hlt' (hbefore hlt') (hexcess hlt')

end Session

namespace Program

variable [BEq K]

/-- Shards with the stock policy, fresh in the beginning and made for whatever settings. In any
session that a program passes, let `limit` be the greatest size that the policy of a shard does not
judge overweight, and `level` the lengths of its chains right after it was last resized, or zero.
Below half of all words, the chains are together no further above both than the policy has counted,
which is a quarter of the slots at most; so between two resizes no chain grows further than that. -/
theorem excess_passed {shards : Vector (Shard S K V LoadPolicy) n}
    (hfresh : ∀ i, ∃ slotCount settings,
      shards.get i = Shard.fresh slotCount (LoadPolicy.ofSettings settings))
    (memory : M) (locate : A → K → Fin n × UInt64) (program : Program A n K V LoadPolicy M R)
    {before after : List (Session n S K V LoadPolicy M)} {s : Session n S K V LoadPolicy M}
    (hpassed : program.passed locate (.start shards memory) = before ++ s :: after) (i : Fin n) :
    let slotCount := (s.shards.get i).slots.size
    let policy := (s.shards.get i).policy
    let limit := min policy.maxSlotSize (policy.threshold.toNat - 1)
    let level := Session.lengthsResized i (s :: before.reverse)
    let excess := ∑ j ∈ Finset.range slotCount, ((s.chainAt i j).size - max (level j) limit)
    slotCount < 2 ^ 63 →
      (∀ total size, (ResizePolicy.inspect policy total size).1 = .overweight ↔ limit < size) ∧
      excess ≤ policy.overweight.toNat ∧
      excess ≤ slotCount / 4 ∧
      ∀ j, (s.chainAt i j).size ≤ max (level j) limit + slotCount / 4 := by
  intro slotCount policy limit level excess hlt
  obtain ⟨count, settings, hi⟩ := hfresh i
  have hgoes := (Session.steps_moves locate i).goes_passed program (.start shards memory)
  rw [hpassed] at hgoes
  have hreverse : s :: before.reverse = (before ++ [s]).reverse := by
    rw [List.reverse_append]
    rfl
  have hpast : (s :: before.reverse).IsChain fun s t => Session.Moves i t s := by
    rw [hreverse, List.isChain_reverse]
    have hchain := hgoes.chain
    rw [List.append_cons] at hchain
    exact (List.isChain_append.1 hchain).1
  have hlast : (s :: before.reverse).getLast? = some (.start shards memory) := by
    rw [hreverse, List.getLast?_reverse, ← hgoes.head]
    cases before <;> rfl
  have hnone : ∀ level, (shards.get i).excess level = 0 := by
    intro level
    rw [hi]
    exact Shard.excess_fresh count _ level
  obtain ⟨hcalm, hexcess⟩ :=
    Session.excess_past (Session.calmAt_start (hfresh i) memory) hnone hpast hlast
  have hcounted : excess ≤ policy.overweight.toNat := hexcess hlt
  have hquarter : policy.overweight.toNat * 4 ≤ slotCount := (hcalm hlt).overweight
  have hbound : excess ≤ slotCount / 4 := by omega
  refine ⟨fun _ size => LoadPolicy.judge_fst_iff (hcalm hlt).threshold size, hcounted, hbound, ?_⟩
  intro j
  rcases Nat.lt_or_ge j slotCount with hj | hj
  · have hone : (s.chainAt i j).size - max (level j) limit ≤ excess :=
      Finset.single_le_sum (f := fun j => (s.chainAt i j).size - max (level j) limit)
        (fun _ _ => Nat.zero_le _) (Finset.mem_range.2 hj)
    omega
  · have hvoid : (s.chainAt i j).size = 0 := by
      unfold Session.chainAt
      rw [Slots.chainAt_of_le hj, Chain.size_empty]
    omega

/-- Two puts in two slots of which neither may hold anything. The first makes them four, so that
only the second is above what was there after the resize. -/
theorem excess_passed_doubled :
    let shards : Vector (Shard Arena Nat Nat LoadPolicy) 1 :=
      #v[Shard.fresh 2 (LoadPolicy.ofSettings ⟨.standard, 2, 0⟩)]
    let first : Session 1 Arena Nat Nat LoadPolicy Unit := .start shards ()
    let second := (first.perform 0 (UInt64.ofNat 1) (.put 1 5 : Operation Nat Nat Unit)).2
    let third := (second.perform 0 (UInt64.ofNat 2) (.put 2 7 : Operation Nat Nat Unit)).2
    let level := Session.lengthsResized 0 [third, second, first]
    (third.shards.get 0).slots.size = 4 ∧ level 1 = 1 ∧ level 2 = 0 ∧
      ∀ j, (third.chainAt 0 j).size ≤ max (level j) 0 + 1 := by
  intro shards first second third level
  have hfresh : ∀ i, ∃ slotCount settings,
      shards.get i = Shard.fresh slotCount (LoadPolicy.ofSettings settings) := by
    intro i
    obtain rfl : i = 0 := Subsingleton.elim i 0
    exact ⟨2, ⟨.standard, 2, 0⟩, rfl⟩
  let program : Program Unit 1 Nat Nat LoadPolicy Unit Unit :=
    .perform () (.put 1 5) fun _ => .perform () (.put 2 7) fun _ => .done ()
  have hpassed : program.passed (fun _ k => (0, .ofNat k)) first =
      [first, second] ++ third :: [] := by
    simp only [program, Program.passed, Operation.key]
    rfl
  have hsize : (third.shards.get 0).slots.size = 4 := by decide +kernel
  have hmax : (third.shards.get 0).policy.maxSlotSize = 0 := by decide +kernel
  have hexcess := excess_passed hfresh () _ program hpassed 0
  simp only [hsize, hmax, Nat.zero_min] at hexcess
  obtain ⟨-, -, -, hchains⟩ := hexcess (by decide)
  exact ⟨hsize, by decide +kernel, by decide +kernel, hchains⟩

end Program

end ShardedMap
