import ShardedMap.Policy.Bench
import ShardedMap.Proofs.Concurrent
import ShardedMap.Proofs.Shard.Stock
/-
  How far the stock policy lets slots grow. The slot count and what the evidence is worth are no
  more together after a call than before it, except that showing a size adds four (`run_reach`).
  Hence slots grow by four at most for each size shown, in whatever order calls are made
  (`runAll_reach`); calls that show no size resize once at most (`resizes_le_one`); and shards that
  threads share grow by four slots at most for each entry put in place or taken out
  (`Machine.run_reach`).
-/
namespace ShardedMap

variable {S : Type → Type} {H : Type} [DecidableEq H] [Storage S H] [LawfulStorage S H]

/-! ## A policy on its own -/

namespace Bench

variable {K V : Type}

/-- The slot count that the slots of a bench may come to on the evidence there is. -/
def reach (b : Bench S K V LoadPolicy) : Nat := b.slots.size + b.policy.credit

end Bench

namespace PolicyCall

variable {K V : Type}

/-- The call shows the policy a slot size. -/
def inspects : PolicyCall → Bool
  | inspect _ _ => true
  | _ => false

/-- How many of the calls change the slot count. -/
def resizes (b : Bench S K V LoadPolicy) : List PolicyCall → Nat
  | [] => 0
  | call :: rest =>
    (if (call.run b).2.slots.size = b.slots.size then 0 else 1) + resizes (call.run b).2 rest

theorem resizes_cons (b : Bench S K V LoadPolicy) (call : PolicyCall) (rest : List PolicyCall) :
    resizes b (call :: rest) =
      (if (call.run b).2.slots.size = b.slots.size then 0 else 1) + resizes (call.run b).2 rest :=
  rfl

theorem run_resize (b : Bench S K V LoadPolicy) (v : Verdict) :
    ((resize v).run b).2.slots.size =
        (b.policy.decidePlan v b.slots.size).targets.getLastD b.slots.size ∧
      ((resize v).run b).2.policy = (b.policy.decidePlan v b.slots.size).next := by
  have hzero := b.policy.targets_decidePlan v b.slots.size
  have hsize := b.slots.size_carryOut hzero
  have hplan : ResizePolicy.plan b.policy v b.slots = b.policy.decidePlan v b.slots.size := rfl
  unfold run
  simp only [hplan]
  rcases hc : b.slots.carryOut (b.policy.decidePlan v b.slots.size).targets with
    ⟨result, slots, events⟩
  rw [hc] at hsize
  cases result <;> exact ⟨hsize, rfl⟩

/-- Only showing a size lets slots grow further. -/
theorem run_reach (b : Bench S K V LoadPolicy) (call : PolicyCall) :
    (call.run b).2.reach ≤ b.reach + if call.inspects then 4 else 0 := by
  cases call with
  | recompute total slotCount => exact Nat.le_refl _
  | inspect total size => exact Nat.add_le_add_left (b.policy.credit_judge size) b.slots.size
  | ask v slotCount => exact Nat.le_refl _
  | resize v =>
    obtain ⟨hsize, hpolicy⟩ := run_resize b v
    have hreach := b.policy.decidePlan_reach v b.slots.size
    unfold Bench.reach
    rw [hsize, hpolicy]
    exact hreach

/-- Slots grow by four at most for each size shown. -/
theorem runAll_reach (b : Bench S K V LoadPolicy) (calls : List PolicyCall) :
    (runAll b calls).2.reach ≤ b.reach + 4 * calls.countP inspects := by
  induction calls generalizing b with
  | nil => exact Nat.le_refl _
  | cons call rest ih =>
    have hstep := run_reach b call
    have hrest := ih (call.run b).2
    rw [List.countP_cons]
    show (runAll (call.run b).2 rest).2.reach ≤ _
    split at hstep <;> rename_i h <;> simp only [h, if_true, Bool.false_eq_true, if_false]
    · omega
    · omega

/-- Below half of all words, a call doubles the slot count or leaves it. -/
theorem run_doubles {b : Bench S K V LoadPolicy} (hlt : b.slots.size < 2 ^ 63) (call : PolicyCall) :
    (call.run b).2.slots.size = b.slots.size ∨ (call.run b).2.slots.size = b.slots.size * 2 := by
  cases call with
  | recompute | inspect | ask => exact Or.inl rfl
  | resize v =>
    obtain ⟨hsize, -⟩ := run_resize b v
    rw [hsize]
    rcases b.policy.decidePlan_cases v b.slots.size with
      ⟨-, h⟩ | ⟨-, -, h⟩ | ⟨hready, -, h⟩
    · rw [h]
      exact Or.inl rfl
    · rw [h]
      exact Or.inl rfl
    · rw [h]
      exact Or.inr (LoadPolicy.target_eq_double hready hlt)

/-- As long as the slots stay below half of all words, the slot count tells the number of
resizes. -/
theorem size_runAll {b : Bench S K V LoadPolicy} {calls : List PolicyCall}
    (hlt : ∀ before call after, calls = before ++ call :: after →
      (runAll b before).2.slots.size < 2 ^ 63) :
    (runAll b calls).2.slots.size = b.slots.size * 2 ^ resizes b calls := by
  induction calls generalizing b with
  | nil => exact (Nat.mul_one _).symm
  | cons call rest ih =>
    have hfirst : b.slots.size < 2 ^ 63 := hlt [] call rest rfl
    have hrest := ih (b := (call.run b).2) fun before c after h =>
      hlt (call :: before) c after (congrArg (call :: ·) h)
    show (runAll (call.run b).2 rest).2.slots.size = _
    rw [hrest, resizes_cons]
    rcases run_doubles hfirst call with h | h
    · rw [h, if_pos rfl, Nat.zero_add]
    · by_cases hzero : b.slots.size = 0
      · rw [h, hzero, Nat.zero_mul, Nat.zero_mul]
      · rw [h, if_neg (by omega), Nat.pow_add, Nat.mul_assoc]

theorem run_of_no_credit {b : Bench S K V LoadPolicy} (h : b.policy.credit = 0) {call : PolicyCall}
    (hcall : call.inspects = false) :
    (call.run b).2.slots.size = b.slots.size ∧ (call.run b).2.policy.credit = 0 := by
  cases call with
  | inspect => cases hcall
  | recompute | ask => exact ⟨rfl, h⟩
  | resize v =>
    obtain ⟨hsize, hpolicy⟩ := run_resize b v
    have hreach := b.policy.decidePlan_reach v b.slots.size
    have hgrows := b.policy.decidePlan_grows v b.slots.size
    rw [hsize, hpolicy]
    omega

theorem resizes_of_no_credit {b : Bench S K V LoadPolicy} (h : b.policy.credit = 0)
    {calls : List PolicyCall} (hcalls : ∀ call ∈ calls, call.inspects = false) :
    resizes b calls = 0 := by
  induction calls generalizing b with
  | nil => rfl
  | cons call rest ih =>
    rw [List.forall_mem_cons] at hcalls
    obtain ⟨hsize, hcredit⟩ := run_of_no_credit h hcalls.1
    rw [resizes_cons, if_pos hsize, ih hcredit hcalls.2]

theorem credit_of_resized {b : Bench S K V LoadPolicy} {call : PolicyCall}
    (h : (call.run b).2.slots.size ≠ b.slots.size) : (call.run b).2.policy.credit = 0 := by
  cases call with
  | recompute | inspect | ask => exact absurd rfl h
  | resize v =>
    obtain ⟨hsize, hpolicy⟩ := run_resize b v
    rcases b.policy.decidePlan_cases v b.slots.size with ⟨-, hp⟩ | ⟨-, -, hp⟩ | ⟨-, -, hp⟩
    · rw [hsize, hp] at h
      exact absurd rfl h
    · rw [hpolicy, hp]
      rfl
    · rw [hpolicy, hp]
      rfl

theorem resizes_le_one (b : Bench S K V LoadPolicy) {calls : List PolicyCall}
    (hcalls : ∀ call ∈ calls, call.inspects = false) : resizes b calls ≤ 1 := by
  induction calls generalizing b with
  | nil => exact Nat.zero_le 1
  | cons call rest ih =>
    rw [List.forall_mem_cons] at hcalls
    rw [resizes_cons]
    by_cases hsize : (call.run b).2.slots.size = b.slots.size
    · rw [if_pos hsize, Nat.zero_add]
      exact ih _ hcalls.2
    · rw [if_neg hsize, resizes_of_no_credit (credit_of_resized hsize) hcalls.2]

end PolicyCall

/-! ## Shards that threads share -/

namespace Shard

variable {K V R : Type}

/-- The slot count that a shard may come to on the evidence there is. -/
def reach (s : Shard S K V LoadPolicy) : Nat := s.slots.size + s.policy.credit

theorem reach_access [BEq K] (s : Shard S K V LoadPolicy) (hash : UInt64) (op : Operation K V R) :
    (s.access hash op).2.reach = s.reach := by
  have ht := touched_access s hash op
  unfold reach
  rw [ht.slotCount, ht.policy]

theorem reach_inspect (s : Shard S K V LoadPolicy) (r : Report) :
    (s.inspect r).2.reach ≤ s.reach + 4 :=
  Nat.add_le_add_left (s.policy.credit_judge r.size) s.slots.size

theorem reach_resize (s : Shard S K V LoadPolicy) (v : Verdict) :
    (s.resize v).2.1.reach ≤ s.reach := by
  rcases s.resize_stock v with ⟨-, h⟩ | ⟨-, -, h⟩ | ⟨hready, -, h⟩
  · exact Nat.le_of_eq (by rw [h])
  · rw [h]
    exact Nat.le_add_right _ _
  · have htarget := (LoadPolicy.target_of_ready hready).2.2
    rw [h]
    show (s.slots.resized _).size + 0 ≤ _
    rw [Slots.size_resized]
    exact htarget

end Shard

variable {n : Nat} {K V R : Type}

/-- A change of shard `i` raises the reach of shard `j` by no more than it raises that of `i`, and
only if they are the same. -/
theorem reach_set {shards : Vector (Shard S K V LoadPolicy) n} {i : Fin n}
    {s : Shard S K V LoadPolicy} {d : Nat} (h : s.reach ≤ (shards.get i).reach + d) (j : Fin n) :
    ((shards.set i s i.isLt).get j).reach ≤ (shards.get j).reach + d * (i == j).toNat := by
  by_cases hij : i = j
  · subst hij
    rw [Shard.get_set_self, beq_self_eq_true, Bool.toNat_true, Nat.mul_one]
    exact h
  · rw [Shard.get_set_ne shards hij]
    exact Nat.le_add_right _ _

theorem reach_set_le {shards : Vector (Shard S K V LoadPolicy) n} {i : Fin n}
    {s : Shard S K V LoadPolicy} (h : s.reach ≤ (shards.get i).reach) (j : Fin n) :
    ((shards.set i s i.isLt).get j).reach ≤ (shards.get j).reach := by
  have hset := reach_set (d := 0) h j
  rwa [Nat.zero_mul] at hset

namespace Worker

/-- The worker has worked on shard `i` and is about to show the policy what it left. -/
def inspecting (w : Worker n K V R) (i : Fin n) : Bool :=
  match w.phase with
  | .accessed j _ _ => j == i
  | _ => false

variable [BEq K]

/-- The next step of the worker puts an entry in place in shard `i` or takes one out of it. -/
def mutates (w : Worker n K V R) (shards : Vector (Shard S K V LoadPolicy) n) (i : Fin n) : Bool :=
  match w.next? with
  | none => false
  | some task =>
    task.shard == i &&
      match ((shards.get task.shard).access task.hash task.op).1 with
      | .ok (answer, _) => task.op.mutated answer
      | .error _ => false

/-- A worker that shows the policy a size has put an entry in place or taken one out before. -/
theorem step_reach (w : Worker n K V R) (shards : Vector (Shard S K V LoadPolicy) n) (i : Fin n) :
    ((w.step shards).2.get i).reach + 4 * ((w.step shards).1.inspecting i).toNat ≤
      (shards.get i).reach + 4 * (w.inspecting i).toNat + 4 * (w.mutates shards i).toNat := by
  obtain ⟨pending, phase, current, closed⟩ := w
  cases phase with
  | idle =>
    rcases pending with _ | ⟨_ | ⟨task, rest⟩, later⟩
    · exact Nat.le_refl _
    · exact Nat.le_refl _
    · have ht := Shard.touched_access (shards.get task.shard) task.hash task.op
      have hreach := reach_set_le
        (Nat.le_of_eq (Shard.reach_access (shards.get task.shard) task.hash task.op)) i
      unfold step mutates next?
      simp only [Shard.workOn_eq]
      rcases hx : (shards.get task.shard).access task.hash task.op with ⟨result, s⟩
      rw [hx] at ht hreach
      rcases result with p | ⟨answer, _ | r⟩
      · exact Nat.le_trans hreach (Nat.le_add_right _ _)
      · exact Nat.le_trans hreach (Nat.le_trans (Nat.le_add_right _ _) (Nat.le_add_right _ _))
      · have hmutated := (ht.reported answer r rfl).2.1
        simp only [hmutated, Bool.and_true]
        exact Nat.add_le_add_right hreach _
  | accessed j answer r =>
    have hreach := reach_set (Shard.reach_inspect (shards.get j) r) i
    unfold step
    simp only [Shard.workOn_eq]
    split
    · exact hreach
    · exact hreach
  | judged j answer v slotCount =>
    have hreach := reach_set_le (s := ((shards.get j).wants v slotCount).2)
      (Nat.le_refl (shards.get j).reach) i
    unfold step
    simp only [Shard.workOn_eq]
    split
    · exact hreach
    · exact hreach
  | granted j answer v =>
    have hreach := reach_set_le (Shard.reach_resize (shards.get j) v) i
    unfold step
    simp only [Shard.workOn_eq]
    exact hreach

end Worker

namespace Machine

/-- The slot count that shard `i` may come to on the evidence there is and on what workers are
about to show its policy. -/
def reach (i : Fin n) (m : Machine n S K V LoadPolicy R) : Nat :=
  (m.shards.get i).reach + 4 * m.workers.countP fun w => w.inspecting i

theorem reach_start {shards : Vector (Shard S K V LoadPolicy) n} {i : Fin n} {slotCount : Nat}
    {settings : PolicySettings}
    (h : shards.get i = Shard.fresh slotCount (LoadPolicy.ofSettings settings))
    (programs : List (List (Batch n K V R))) : (start shards programs).reach i = slotCount := by
  have hnone : (programs.map Worker.start).countP (fun w => w.inspecting i) = 0 := by
    rw [List.countP_eq_zero]
    intro w hw
    obtain ⟨batches, -, rfl⟩ := List.mem_map.1 hw
    exact Bool.false_ne_true
  show (shards.get i).reach + 4 * (programs.map Worker.start).countP _ = slotCount
  rw [hnone, h]
  exact Slots.size_vacant slotCount

variable [BEq K]

/-- How many steps of a schedule put an entry in place in shard `i` or take one out of it. -/
def mutations (i : Fin n) (m : Machine n S K V LoadPolicy R) : List Nat → Nat
  | [] => 0
  | t :: rest =>
    (m.workers[t]?.any fun w => w.mutates m.shards i).toNat + (m.step t).mutations i rest

theorem step_reach (i : Fin n) (m : Machine n S K V LoadPolicy R) (t : Nat) :
    (m.step t).reach i ≤
      m.reach i + 4 * (m.workers[t]?.any fun w => w.mutates m.shards i).toNat := by
  unfold step
  cases ht : m.workers[t]? with
  | none => exact Nat.le_refl _
  | some w =>
    obtain ⟨hlt, hw⟩ := List.getElem?_eq_some_iff.1 ht
    have hstep := w.step_reach m.shards i
    have hcount := List.countP_set (p := fun w => w.inspecting i) (a := (w.step m.shards).1) hlt
    have hpos : (w.inspecting i).toNat ≤ m.workers.countP fun w => w.inspecting i := by
      cases h : w.inspecting i with
      | false => exact Nat.zero_le _
      | true => exact List.countP_pos_iff.2 ⟨w, hw ▸ List.getElem_mem hlt, h⟩
    have hite : ∀ b : Bool, (if b = true then 1 else 0) = b.toNat := by decide
    simp only [hw, hite] at hcount
    unfold reach
    show _ ≤ _ + 4 * (w.mutates m.shards i).toNat
    simp only [hcount]
    omega

/-- A run raises the reach of a shard by four at most for each mutation of it. -/
theorem run_reach (i : Fin n) (m : Machine n S K V LoadPolicy R) (schedule : List Nat) :
    (m.run schedule).reach i ≤ m.reach i + 4 * m.mutations i schedule := by
  induction schedule generalizing m with
  | nil => exact Nat.le_refl _
  | cons t rest ih =>
    have hstep := m.step_reach i t
    have hrest := ih (m.step t)
    show ((m.step t).run rest).reach i ≤ _
    unfold mutations
    omega

end Machine

/-! ## The bound -/

/-- Slots that start with no evidence grow by four at most for each size shown to the policy,
whatever is called in whatever order. So below half of all words, each resize takes a quarter of the
slots in sizes shown, and calls among which no size is shown resize once at most. The slots of a
shard that threads share grow by four at most for each entry put in place or taken out. -/
theorem LoadPolicy.growth_bounded [BEq K] :
    (∀ (settings : PolicySettings) (slots : Slots S K V) (calls : List PolicyCall),
      let start : Bench S K V LoadPolicy := ⟨slots, LoadPolicy.ofSettings settings⟩
      (PolicyCall.runAll start calls).2.slots.size ≤
          slots.size + 4 * calls.countP PolicyCall.inspects ∧
        ((∀ before call after, calls = before ++ call :: after →
            (PolicyCall.runAll start before).2.slots.size < 2 ^ 63) →
          slots.size * (2 ^ PolicyCall.resizes start calls - 1) ≤
            4 * calls.countP PolicyCall.inspects) ∧
        ∀ before racing after, calls = before ++ racing ++ after →
          (∀ call ∈ racing, call.inspects = false) →
            PolicyCall.resizes (PolicyCall.runAll start before).2 racing ≤ 1) ∧
      ∀ (slotCounts : Fin n → Nat) (settings : Fin n → PolicySettings)
        (programs : List (List (Batch n K V R))) (schedule : List Nat) (i : Fin n),
        let start : Machine n S K V LoadPolicy R := Machine.start
          (.ofFn fun i => Shard.fresh (slotCounts i) (LoadPolicy.ofSettings (settings i))) programs
        ((start.run schedule).shards.get i).slots.size ≤
          slotCounts i + 4 * start.mutations i schedule := by
  constructor
  · intro settings slots calls start
    have hreach := PolicyCall.runAll_reach start calls
    have hbound : (PolicyCall.runAll start calls).2.slots.size ≤
        slots.size + 4 * calls.countP PolicyCall.inspects :=
      Nat.le_trans (Nat.le_add_right _ _) hreach
    refine ⟨hbound, ?_, ?_⟩
    · intro hlt
      have hsize : (PolicyCall.runAll start calls).2.slots.size =
          slots.size * 2 ^ PolicyCall.resizes start calls := PolicyCall.size_runAll hlt
      rw [Nat.mul_sub, Nat.mul_one, ← hsize]
      omega
    · intro before racing after _ hracing
      exact PolicyCall.resizes_le_one _ hracing
  · intro slotCounts settings programs schedule i start
    have hrun := start.run_reach i schedule
    have hfresh : (Vector.ofFn fun i => (Shard.fresh (slotCounts i)
        (LoadPolicy.ofSettings (settings i)) : Shard S K V LoadPolicy)).get i =
        Shard.fresh (slotCounts i) (LoadPolicy.ofSettings (settings i)) :=
      Vector.getElem_ofFn i.isLt
    have hstart : start.reach i = slotCounts i := Machine.reach_start hfresh programs
    rw [hstart] at hrun
    exact Nat.le_trans (Nat.le_trans (Nat.le_add_right _ _) (Nat.le_add_right _ _)) hrun

/-- Two slots, a size far too great for them, and two resizes on it, of which one goes ahead. -/
theorem LoadPolicy.growth_bounded_raced :
    let start : Bench Arena Nat Nat LoadPolicy :=
      ⟨Slots.vacant 2, LoadPolicy.ofSettings LoadPolicy.defaultSettings⟩
    let calls : List PolicyCall := [.inspect 0 1001, .resize .overweight, .resize .overweight]
    (PolicyCall.runAll start calls).2.slots.size = 4 ∧
      2 * (2 ^ PolicyCall.resizes start calls - 1) ≤ 4 * calls.countP PolicyCall.inspects ∧
      PolicyCall.resizes (PolicyCall.runAll start [.inspect 0 1001]).2
        [.resize .overweight, .resize .overweight] ≤ 1 := by
  intro start calls
  have hbound := (LoadPolicy.growth_bounded (n := 1) (R := Unit)).1
    LoadPolicy.defaultSettings (Slots.vacant 2 : Slots Arena Nat Nat)
  obtain ⟨-, hgrown, hraced⟩ := hbound calls
  refine ⟨by decide +kernel, hgrown ?_, hraced [.inspect 0 1001] _ [] rfl (by decide)⟩
  intro before call after h
  have hsize := (hbound before).1
  have hcount := List.countP_le_length (p := PolicyCall.inspects) (l := before)
  have hlength : 3 = before.length + (call :: after).length := by
    rw [← List.length_append, ← h]
    rfl
  have htwo : (Slots.vacant 2 : Slots Arena Nat Nat).size = 2 := rfl
  show (PolicyCall.runAll ⟨_, _⟩ before).2.slots.size < 2 ^ 63
  omega

end ShardedMap
