import ShardedMap.Proofs.Program.Gates
import ShardedMap.Proofs.Program.Moments
import ShardedMap.Proofs.Shard.Decision
import ShardedMap.Proofs.Slots.Split
/-
  Resizes in programs on shards with the stock policy. In every session that a program passes, an
  operation on a shard is the one to resize it exactly if it tips the balance of the evidence, and
  what else a program does leaves all slot counts and policies alone (`resizes_decided`). A resize
  splits every slot, as the operation left it, into two (`resizes_split`).
-/
namespace ShardedMap

variable {S : Type → Type} {H : Type} [DecidableEq H] [Storage S H] [LawfulStorage S H]

variable {A : Type} {n : Nat} {K V P M R : Type}

namespace Session

/-- From `s` to `t`, no shard got another slot count or policy. -/
def Steady (s t : Session n S K V P M) : Prop :=
  ∀ i, (t.shards.get i).slots.size = (s.shards.get i).slots.size ∧
    (t.shards.get i).policy = (s.shards.get i).policy

theorem Steady.refl (s : Session n S K V P M) : s.Steady s := fun _ => ⟨rfl, rfl⟩

theorem steady_assign [BEq K] (s : Session n S K V P M) (i : Fin n) (value : V) :
    s.Steady (s.assign i value) := by
  unfold assign
  split
  · exact .refl s
  · rename_i hash key _
    rw [onShard_replace]
    have hsame := (s.shards.get i).sameBut_assign hash key value
    intro j
    by_cases hij : i = j
    · subst hij
      rw [get_replace_self]
      exact ⟨hsame.slotCount, hsame.policy⟩
    · rw [get_replace_ne s hij]
      exact ⟨rfl, rfl⟩

/-- All that a program does at once is a keyed operation on a free shard, or leaves slot counts and
policies alone. -/
theorem steps_steady [BEq K] [ResizePolicy P] (locate : A → K → Fin n × UInt64) :
    Program.Steps locate R fun s t : Session n S K V P M => s.Steady t ∨
      ∃ i hash, ∃ op : Operation K V R, i ∉ s.entered ∧ t = (s.perform i hash op).2 where
  refl s := .inl (.refl s)
  store s _ := .inl (.refl s)
  assign s i value := .inl (steady_assign s i value)
  enter s _ _ := .inl (.refl s)
  leave s _ := .inl (.refl s)
  perform _ _ op h := .inr ⟨_, _, op, not_mem_entered.2 h, rfl⟩

variable [BEq K] [EquivBEq K]

theorem perform_decided {s : Session n S K V LoadPolicy M} {i : Fin n}
    (hs : (s.shards.get i).Sound) (hcalm : s.CalmAt i)
    (hlt : (s.shards.get i).slots.size < 2 ^ 63) (hfree : i ∉ s.entered) (hash : UInt64)
    (op : Operation K V R) :
    ∃ answer after events,
      s.perform i hash op = (.ok answer, (s.replace i after).note i events) ∧
      (s.shards.get i).Decided hash op answer after events := by
  obtain ⟨answer, hanswer, hdecided⟩ := hs.decided (hcalm hlt) hlt hash op
  refine ⟨answer, _, _, ?_, hdecided⟩
  rw [perform_eq (not_mem_entered.1 hfree), hanswer]

end Session

namespace Program

open Session

variable [BEq K] [EquivBEq K]

/-- Shards of some slots each that hold nothing, whose stock policies have no evidence. -/
def AllFresh (shards : Vector (Shard S K V LoadPolicy) n) : Prop :=
  ∀ i, ∃ slotCount settings, 0 < slotCount ∧
    shards.get i = Shard.fresh slotCount (LoadPolicy.ofSettings settings)

omit [BEq K] [EquivBEq K] in
theorem allFresh_single {slotCount : Nat} (hpos : 0 < slotCount) (settings : PolicySettings) :
    AllFresh (#v[.fresh slotCount (.ofSettings settings)] : Vector (Shard S K V LoadPolicy) 1) := by
  intro i
  obtain rfl : i = 0 := Subsingleton.elim i 0
  exact ⟨slotCount, settings, hpos, rfl⟩

theorem sound_calm_passed {shards : Vector (Shard S K V LoadPolicy) n} (hfresh : AllFresh shards)
    (memory : M) (locate : A → K → Fin n × UInt64) (program : Program A n K V LoadPolicy M R) :
    ∀ s ∈ program.passed locate (.start shards memory), ∀ i,
      (s.shards.get i).Sound ∧ s.CalmAt i := by
  intro s hs i
  constructor
  · refine sound_passed ?_ memory locate program s hs i
    intro j
    obtain ⟨slotCount, settings, hpos, hj⟩ := hfresh j
    exact ⟨slotCount, .ofSettings settings, hpos, hj⟩
  · obtain ⟨slotCount, settings, -, hi⟩ := hfresh i
    exact calmAt_passed ⟨slotCount, settings, hi⟩ memory locate program s hs

/-- Shards with the stock policy, fresh in the beginning and made for whatever settings. In every
session that a program passes, inside its closures too and whatever panics, a keyed operation on a
shard that the thread has not entered, if the shard is below half of all words, answers; it changes
no other shard; and it decides on the slots of its own shard by the size that it leaves and by the
evidence, as `Shard.Decided` says. From one session passed to the next, whatever is not such an
operation leaves every slot count and every policy as they were. -/
theorem resizes_decided {shards : Vector (Shard S K V LoadPolicy) n} (hfresh : AllFresh shards)
    (memory : M) (locate : A → K → Fin n × UInt64) (program : Program A n K V LoadPolicy M R) :
    let passed := program.passed locate (.start shards memory)
    (∀ s ∈ passed, ∀ i, i ∉ s.entered → (s.shards.get i).slots.size < 2 ^ 63 →
      ∀ hash (op : Operation K V R), ∃ answer after events,
        s.perform i hash op = (.ok answer, (s.replace i after).note i events) ∧
        (s.shards.get i).Decided hash op answer after events) ∧
    passed.IsChain (fun s t => s.Steady t ∨
      ∃ i hash, ∃ op : Operation K V R, i ∉ s.entered ∧ t = (s.perform i hash op).2) := by
  intro passed
  refine ⟨?_, ((steps_steady locate).goes_passed program _).chain⟩
  intro s hs i hfree hlt hash op
  obtain ⟨hsound, hcalm⟩ := sound_calm_passed hfresh memory locate program s hs i
  exact perform_decided hsound hcalm hlt hfree hash op

/-- Two puts in one of four slots, of which none may hold anything. The first is counted; with the
second more than a quarter of the slots were overweight, and the four become eight. -/
theorem resizes_decided_eight :
    let shards : Vector (Shard Arena Nat Nat LoadPolicy) 1 :=
      #v[Shard.fresh 4 (LoadPolicy.ofSettings ⟨.standard, 4, 0⟩)]
    let start : Session 1 Arena Nat Nat LoadPolicy Unit := .start shards ()
    let s := (start.perform 0 1 (.put 1 5 : Operation Nat Nat Unit)).2
    let t := (s.perform 0 5 (.put 5 7 : Operation Nat Nat Unit)).2
    (s.shards.get 0).slots.size = 4 ∧ (s.shards.get 0).policy.overweight = 1 ∧
      (t.shards.get 0).slots.size = 8 ∧ (t.shards.get 0).policy.overweight = 0 := by
  intro shards start s t
  let first : Operation Nat Nat Unit := .put 1 5
  let second : Operation Nat Nat Unit := .put 5 7
  let locate : UInt64 → Nat → Fin 1 × UInt64 := fun hash _ => (0, hash)
  let program : Program UInt64 1 Nat Nat LoadPolicy Unit Unit :=
    .perform 1 first fun _ => .perform 5 second fun _ => .done ()
  have hfresh : AllFresh shards := allFresh_single (by decide) ⟨.standard, 4, 0⟩
  have hpassed : start ∈ program.passed locate start ∧ s ∈ program.passed locate start := by
    simp [program, passed, locate, s, first]
  obtain ⟨hdecided, -⟩ := resizes_decided hfresh () locate program
  obtain ⟨_, counted, events, hfirst, hcounts⟩ :=
    hdecided start hpassed.1 0 nofun (by decide +kernel) 1 first
  obtain ⟨_, doubled, events', hsecond, hdoubles⟩ :=
    hdecided s hpassed.2 0 (by decide +kernel) (by decide +kernel) 5 second
  have hs : s.shards.get 0 = counted := by
    rw [show s = (start.perform 0 1 first).2 from rfl, hfirst, shards_note, get_replace_self]
  have ht : t.shards.get 0 = doubled := by
    rw [show t = (s.perform 0 5 second).2 from rfl, hsecond, shards_note, get_replace_self]
  have hstay : events.any PolicyEvent.isResize = false := by
    rw [← Bool.not_eq_true, hcounts.resized_iff]
    rintro ⟨-, hdue⟩
    exact absurd hdue (by decide +kernel)
  have hgo : events'.any PolicyEvent.isResize = true :=
    hdoubles.resized_iff.2 ⟨rfl, by decide +kernel⟩
  have hfour : (s.shards.get 0).slots.size = 4 := by
    rw [hs, hcounts.stays hstay]
    decide +kernel
  have height : (t.shards.get 0).slots.size = 8 := by
    rw [ht, (hdoubles.doubled hgo).1, hfour]
  refine ⟨hfour, ?_, height, ?_⟩
  · rw [hs, hcounts.counted hstay rfl]
    decide +kernel
  · rw [ht, (hdoubles.doubled hgo).2]
    rfl

/-- Shards with the stock policy, fresh in the beginning. Whenever an operation resizes its shard,
in any session that a program passes, each slot is split on its own: what the operation left in slot
`j` goes to slots `j` and `j + n`, in reverse. -/
theorem resizes_split {shards : Vector (Shard S K V LoadPolicy) n} (hfresh : AllFresh shards)
    (memory : M) (locate : A → K → Fin n × UInt64) (program : Program A n K V LoadPolicy M R) :
    ∀ s ∈ program.passed locate (.start shards memory), ∀ i,
      (s.shards.get i).slots.size < 2 ^ 63 → ∀ hash (op : Operation K V R),
      let accessed := ((s.shards.get i).access hash op).2
      let t := (s.perform i hash op).2
      s.resizes i < t.resizes i →
        accessed.slots.size = (s.shards.get i).slots.size ∧
        accessed.slots.Split (t.shards.get i).slots := by
  intro s hs i hlt hash op accessed t hresized
  obtain ⟨hsound, hcalm⟩ := sound_calm_passed hfresh memory locate program s hs i
  have hfree : i ∉ s.entered := by
    intro hentered
    have hpanic := perform_of_holding (mem_entered.1 hentered) hash op
    simp only [t, hpanic, Nat.lt_irrefl] at hresized
  obtain ⟨answer, after, events, hperform, hdecided⟩ :=
    perform_decided hsound hcalm hlt hfree hash op
  have hevents : events.any PolicyEvent.isResize = true := by
    simp only [t, hperform, resizes_note_self] at hresized
    have hone : 0 < events.countP PolicyEvent.isResize := Nat.lt_add_right_iff_pos.1 hresized
    rw [List.any_eq_true]
    exact List.countP_pos_iff.1 hone
  obtain ⟨found, rest, hacc, -, hplaced⟩ := hsound.access hash op
  have hsplit := hplaced.placed.split hplaced.pos
  refine ⟨hacc.slotCount, ?_⟩
  simp only [t, hperform, shards_note, get_replace_self, hdecided.moved hevents]
  rw [← hacc.slotCount]
  exact hsplit

/-- Two puts in one of four slots, of which none may hold anything. The second doubles the slots,
and the two entries part. -/
theorem resizes_split_eight :
    let shards : Vector (Shard Arena Nat Nat LoadPolicy) 1 :=
      #v[Shard.fresh 4 (LoadPolicy.ofSettings ⟨.standard, 4, 0⟩)]
    let start : Session 1 Arena Nat Nat LoadPolicy Unit := .start shards ()
    let s := (start.perform 0 1 (.put 1 5 : Operation Nat Nat Unit)).2
    let t := (s.perform 0 5 (.put 5 7 : Operation Nat Nat Unit)).2
    let slots := (t.shards.get 0).slots
    s.resizes 0 < t.resizes 0 ∧ (slots.chainAt 1).toList.map Entry.pair = [(1, 5)] ∧
      (slots.chainAt 5).toList.map Entry.pair = [(5, 7)] ∧ slots.longest ≤ 2 ∧
      6 ≤ slots.emptyCount := by
  intro shards start s t slots
  let first : Operation Nat Nat Unit := .put 1 5
  let second : Operation Nat Nat Unit := .put 5 7
  let locate : UInt64 → Nat → Fin 1 × UInt64 := fun hash _ => (0, hash)
  let program : Program UInt64 1 Nat Nat LoadPolicy Unit Unit :=
    .perform 1 first fun _ => .perform 5 second fun _ => .done ()
  have hfresh : AllFresh shards := allFresh_single (by decide) ⟨.standard, 4, 0⟩
  have hpassed : s ∈ program.passed locate start := by
    simp [program, passed, locate, s, first]
  have hresized : s.resizes 0 < t.resizes 0 := by decide +kernel
  obtain ⟨-, hsplit⟩ :=
    resizes_split hfresh () locate program s hpassed 0 (by decide +kernel) 5 second hresized
  have ht : t = (s.perform 0 5 second).2 := rfl
  rw [← ht] at hsplit
  have hlongest : ((s.shards.get 0).access 5 second).2.slots.longest = 2 := by decide +kernel
  have hempty : ((s.shards.get 0).access 5 second).2.slots.emptyCount = 3 := by decide +kernel
  have hshorter := hsplit.longest
  have hdoubled := hsplit.empty
  rw [hlongest] at hshorter
  rw [hempty] at hdoubled
  refine ⟨hresized, ?_, ?_, hshorter, hdoubled⟩
  · rw [hsplit.chains]
    decide +kernel
  · rw [hsplit.chains]
    decide +kernel

end Program

end ShardedMap
