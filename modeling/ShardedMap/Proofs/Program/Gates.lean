import ShardedMap.Proofs.Program.History
import ShardedMap.Proofs.Shard.Stock
/-
  Programs on shards with the stock policy. Whatever a program does at once leaves a shard as it is,
  has one size judged, or doubles the slot count (`Session.steps_moves`). As evidence that opens a
  gate is acted on in the operation that brought it, both gates of every shard are closed in all
  sessions that a program passes (`gates_closed`).
-/
namespace ShardedMap

variable {S : Type → Type} {H : Type} [DecidableEq H] [Storage S H] [LawfulStorage S H]

variable {A : Type} {n : Nat} {K V M R : Type}

theorem Entry.length_rewriteFirst (p : Entry K V → Bool) (g : Entry K V → Entry K V)
    (es : List (Entry K V)) : (rewriteFirst p g es).length = es.length := by
  induction es with
  | nil => rfl
  | cons e rest ih =>
    rw [rewriteFirst]
    split
    · rfl
    · rw [List.length_cons, List.length_cons, ih]

namespace Shard

variable {s s' : Shard S K V LoadPolicy} {k : Nat}

/-- A shard that is what it was, as far as its policy and sizes go. -/
theorem Evolves.of_same (slotCount : s'.slots.size = s.slots.size) (policy : s'.policy = s.policy)
    (sizes : ∀ j, (s'.slots.chainAt j).size = (s.slots.chainAt j).size) : Evolves s s' 0 :=
  .idle slotCount policy fun j => Nat.le_of_eq (sizes j)

theorem evolves_assign [BEq K] (s : Shard S K V LoadPolicy) (hash : UInt64) (key : K) (value : V) :
    Evolves s (s.assign hash key value) 0 := by
  have hsame := sameBut_assign s hash key value
  obtain ⟨f, hf⟩ := hsame.chains
  refine .of_same hsame.slotCount hsame.policy ?_
  intro j
  rw [Chain.size_eq, Chain.size_eq, hf j]
  split
  · exact Entry.length_rewriteFirst ..
  · rfl

theorem Evolves.calm (h : Evolves s s' k) (hlt : s.slots.size < 2 ^ 63)
    (hs : s.policy.Calm s.slots.size) : s'.policy.Calm s'.slots.size := by
  cases h with
  | idle slotCount policy sizes =>
    rw [slotCount, policy]
    exact hs
  | judged j slotCount policy closed touched others =>
    rw [policy] at closed
    rw [slotCount, policy]
    exact hs.judge hlt closed
  | doubled p total slotCount policy =>
    rw [policy]
    exact p.calm_learn_forget total s'.slots.size

end Shard

namespace Session

/-- How often shard `i` was resized. -/
def resizes {P : Type} (s : Session n S K V P M) (i : Fin n) : Nat :=
  s.events.countP fun e => e.1 == i && e.2.isResize

theorem resizes_note_self {P : Type} (s : Session n S K V P M) (i : Fin n)
    (events : List PolicyEvent) :
    (s.note i events).resizes i = s.resizes i + events.countP PolicyEvent.isResize := by
  unfold resizes note
  rw [List.countP_append, List.countP_reverse, List.countP_map, Nat.add_comm]
  congr 2
  funext e
  simp

theorem resizes_note_ne {P : Type} (s : Session n S K V P M) {i j : Fin n} (h : j ≠ i)
    (events : List PolicyEvent) : (s.note j events).resizes i = s.resizes i := by
  unfold resizes note
  have hnone : (events.map fun e => (j, e)).countP (fun e => e.1 == i && e.2.isResize) = 0 := by
    rw [List.countP_map, List.countP_eq_zero]
    intro e _
    simp [h]
  rw [List.countP_append, List.countP_reverse, hnone, Nat.zero_add]

/-- From `s` to `t`, shard `i` went as an operation or less makes it go. -/
structure Moves (i : Fin n) (s t : Session n S K V LoadPolicy M) : Prop where
  grows : (s.shards.get i).slots.size ≤ (t.shards.get i).slots.size
  evolves : (s.shards.get i).slots.size < 2 ^ 63 →
    ∃ k, t.resizes i = s.resizes i + k ∧ (s.shards.get i).Evolves (t.shards.get i) k

theorem Moves.of_same {i : Fin n} {s t : Session n S K V LoadPolicy M}
    (hshard : t.shards.get i = s.shards.get i) (hresizes : t.resizes i = s.resizes i) :
    Moves i s t := by
  refine ⟨Nat.le_of_eq (by rw [hshard]), fun _ => ⟨0, hresizes, ?_⟩⟩
  rw [hshard]
  exact .of_same rfl rfl fun _ => rfl

/-- The policy of shard `i` is calm, unless the shard has become too large. -/
def CalmAt (i : Fin n) (s : Session n S K V LoadPolicy M) : Prop :=
  (s.shards.get i).slots.size < 2 ^ 63 →
    (s.shards.get i).policy.Calm (s.shards.get i).slots.size

theorem Moves.calmAt {i : Fin n} {s t : Session n S K V LoadPolicy M} (h : Moves i s t)
    (hs : CalmAt i s) : CalmAt i t := by
  intro hlt
  have hbefore : (s.shards.get i).slots.size < 2 ^ 63 := Nat.lt_of_le_of_lt h.grows hlt
  obtain ⟨k, -, hevolves⟩ := h.evolves hbefore
  exact hevolves.calm hbefore (hs hbefore)

theorem calmAt_start {shards : Vector (Shard S K V LoadPolicy) n} {i : Fin n}
    (hfresh : ∃ slotCount settings,
      shards.get i = Shard.fresh slotCount (LoadPolicy.ofSettings settings)) (memory : M) :
    CalmAt i (start shards memory) := by
  obtain ⟨slotCount, settings, hi⟩ := hfresh
  intro _
  show (shards.get i).policy.Calm (shards.get i).slots.size
  rw [hi]
  show LoadPolicy.Calm _ (Slots.vacant slotCount : Slots S K V).size
  rw [Slots.size_vacant]
  exact LoadPolicy.calm_ofSettings settings slotCount

variable [BEq K]

theorem moves_assign (i : Fin n) (s : Session n S K V LoadPolicy M) (j : Fin n) (value : V) :
    Moves i s (s.assign j value) := by
  unfold assign
  split
  · exact .of_same rfl rfl
  · rename_i hash key _
    rw [onShard_replace]
    by_cases hji : j = i
    · subst hji
      have hevolves := (s.shards.get j).evolves_assign hash key value
      refine ⟨?_, fun _ => ⟨0, rfl, ?_⟩⟩
      · rw [get_replace_self]
        exact Nat.le_of_eq ((s.shards.get j).sameBut_assign hash key value).slotCount.symm
      · rw [get_replace_self]
        exact hevolves
    · exact .of_same (get_replace_ne s hji _) rfl

theorem moves_perform (i : Fin n) {s : Session n S K V LoadPolicy M} {j : Fin n}
    (h : s.holding j = false) (hash : UInt64) (op : Operation K V R) :
    Moves i s (s.perform j hash op).2 := by
  rw [perform_eq h]
  by_cases hji : j = i
  · subst hji
    refine ⟨?_, fun hlt => ⟨_, resizes_note_self _ j _, ?_⟩⟩
    · rw [shards_note, get_replace_self]
      exact (s.shards.get j).size_perform hash op
    · rw [shards_note, get_replace_self]
      exact Shard.evolves_perform hlt hash op
  · exact .of_same (get_replace_ne s hji _) (resizes_note_ne _ hji _)

/-- All that a program does at once moves a shard on by an operation at most. -/
theorem steps_moves (locate : A → K → Fin n × UInt64) (i : Fin n) :
    Program.Steps locate R (Moves i : Session n S K V LoadPolicy M → _ → Prop) where
  refl _ := .of_same rfl rfl
  store _ _ := .of_same rfl rfl
  assign s j value := moves_assign i s j value
  enter _ _ _ := .of_same rfl rfl
  leave _ _ := .of_same rfl rfl
  perform _ _ op h := moves_perform i h _ op

end Session

namespace Program

variable [BEq K]

theorem calmAt_passed {shards : Vector (Shard S K V LoadPolicy) n} {i : Fin n}
    (hfresh : ∃ slotCount settings,
      shards.get i = Shard.fresh slotCount (LoadPolicy.ofSettings settings))
    (memory : M) (locate : A → K → Fin n × UInt64) (program : Program A n K V LoadPolicy M R) :
    ∀ s ∈ program.passed locate (.start shards memory), s.CalmAt i :=
  (Session.steps_moves locate i).forall_passed (fun _ _ h => h.calmAt) program
    (Session.calmAt_start hfresh memory)

/-- Shards with the stock policy, fresh in the beginning and made for whatever settings: in every
session that a program passes, inside its closures too and whatever panics, a shard below half of
all words has at most a quarter of its slots judged overweight since its evidence was last used up
and, if it has many slots, less than a quarter seen empty. No empty slot is overweight, and no
verdict makes the policy want a resize, so no evidence that is enough for one is left lying. -/
theorem gates_closed {shards : Vector (Shard S K V LoadPolicy) n}
    (hfresh : ∀ i, ∃ slotCount settings,
      shards.get i = Shard.fresh slotCount (LoadPolicy.ofSettings settings))
    (memory : M) (locate : A → K → Fin n × UInt64) (program : Program A n K V LoadPolicy M R) :
    ∀ s ∈ program.passed locate (.start shards memory), ∀ i,
      let slotCount := (s.shards.get i).slots.size
      let policy := (s.shards.get i).policy
      slotCount < 2 ^ 63 →
        policy.overweight.toNat * 4 ≤ slotCount ∧
        (100 ≤ slotCount → policy.empty.toNat * 4 < slotCount) ∧
        1 ≤ policy.threshold.toNat ∧
        (∀ total, (ResizePolicy.inspect policy total 0).1 ≠ .overweight) ∧
        ∀ v, (ResizePolicy.wants policy v slotCount).1 = false := by
  intro s hs i slotCount policy hlt
  have hcalm := calmAt_passed (hfresh i) memory locate program s hs hlt
  exact ⟨hcalm.overweight, hcalm.empty, hcalm.threshold, fun _ => hcalm.judge_zero,
    hcalm.not_ready⟩

/-- A put that makes two slots four, as no slot may hold anything, and a closure that asks for its
shard again and gives up. -/
theorem gates_closed_doubled :
    let shards : Vector (Shard Arena Nat Nat LoadPolicy) 1 :=
      #v[Shard.fresh 2 (LoadPolicy.ofSettings ⟨.standard, 2, 0⟩)]
    let program : Program Unit 1 Nat Nat LoadPolicy Unit Unit :=
      .perform () (.put 1 5) fun _ =>
        .update () 1 (fun _ _ => .perform () (.put 2 7) fun _ => .panic (.raised "enough"))
          fun _ => .perform () (.remove 1) fun _ => .done ()
    let s := (program.run (fun _ k => (0, k.toUInt64)) (.start shards ())).2
    let policy := (s.shards.get 0).policy
    (s.shards.get 0).slots.size = 4 ∧ policy.empty = 1 ∧ policy.overweight.toNat * 4 ≤ 4 ∧
      ∀ v, (ResizePolicy.wants policy v 4).1 = false := by
  intro shards program s policy
  have hfresh : ∀ i, ∃ slotCount settings,
      shards.get i = Shard.fresh slotCount (LoadPolicy.ofSettings settings) := by
    intro i
    obtain rfl : i = 0 := Subsingleton.elim i 0
    exact ⟨2, ⟨.standard, 2, 0⟩, rfl⟩
  have hsize : (s.shards.get 0).slots.size = 4 := by decide +kernel
  have hgates := gates_closed hfresh () (fun _ k => (0, k.toUInt64)) program s
    (run_mem_passed _ program _) 0
  simp only [hsize] at hgates
  obtain ⟨hover, -, -, -, hshut⟩ := hgates (by decide)
  exact ⟨hsize, by decide +kernel, hover, hshut⟩

end Program

end ShardedMap
