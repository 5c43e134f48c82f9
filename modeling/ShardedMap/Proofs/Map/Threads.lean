import ShardedMap.Proofs.Concurrent
import ShardedMap.Proofs.Confined
import ShardedMap.Proofs.Map.Refinement
/-
  Threads of keyed operations on one map (`Map.machine`), beside the same operations done at once,
  one after another (`Map.performEach`). A worker that is let alone carries an operation out as its
  shard does (`Worker.turns_perform`), so whatever operations done at once lead to, some schedule of
  the threads leads to (`exists_schedule`).
-/
namespace ShardedMap

variable {S : Type → Type} {H : Type} [DecidableEq H] [Storage S H] [LawfulStorage S H]

variable {n : Nat} {K V P R : Type}

/-! ## Threads on a map -/

namespace Map

/-- The shard that an operation is on. -/
def shardOf (m : Map S K V P) (op : Operation K V R) : Fin m.count :=
  route m.count_pos (m.hash op.key)

/-- An operation as a task of a worker. -/
def task (m : Map S K V P) (op : Operation K V R) : Task m.count K V R :=
  ⟨m.shardOf op, m.hash op.key, op⟩

/-- A worker's batches for operations of a thread. A panic ends its operation only. -/
def batches (m : Map S K V P) (ops : List (Operation K V R)) : List (Batch m.count K V R) :=
  ops.map fun op => [m.task op]

/-- Threads that have still to do all of their operations. -/
def machine (m : Map S K V P) (programs : List (List (Operation K V R))) :
    Machine m.count S K V P R :=
  .start m.shards (programs.map m.batches)

theorem length_machine (m : Map S K V P) (programs : List (List (Operation K V R))) :
    (m.machine programs).workers.length = programs.length := by
  show ((programs.map m.batches).map Worker.start).length = _
  rw [List.length_map, List.length_map]

theorem flatten_batches (m : Map S K V P) (ops : List (Operation K V R)) :
    (m.batches ops).flatten = ops.map m.task := by
  unfold batches
  rw [← List.flatMap_def]
  exact List.map_eq_flatMap.symm

theorem machine_worker {m : Map S K V P} {programs : List (List (Operation K V R))} {t : Nat}
    {w : Worker m.count K V R} (h : (m.machine programs).workers[t]? = some w) :
    w = .start (m.batches (programs.getD t [])) := by
  have hw : ((programs.map m.batches).map Worker.start)[t]? = some w := h
  rw [List.getElem?_map, List.getElem?_map] at hw
  rw [List.getD_eq_getElem?_getD]
  cases ht : programs[t]? with
  | none =>
    rw [ht] at hw
    cases hw
  | some ops =>
    rw [ht] at hw
    cases hw
    rfl

/-- Threads that have still all to do keep to the shards of their operations. -/
theorem confined_machine {m : Map S K V P} {programs : List (List (Operation K V R))}
    {owner : Fin m.count → Nat}
    (hown : ∀ t, ∀ op ∈ programs.getD t [], owner (m.shardOf op) = t) :
    (m.machine programs).Confined owner := by
  intro t w hw i hi
  rw [machine_worker hw] at hi
  obtain ⟨task, htask, rfl⟩ := List.mem_map.1 hi
  obtain ⟨batch, hbatch, htask⟩ := List.mem_flatten.1 htask
  obtain ⟨op, hop, rfl⟩ := List.mem_map.1 hbatch
  obtain rfl := List.mem_singleton.1 htask
  exact hown t op hop

end Map

variable [BEq K] [ResizePolicy P]

/-! ## A worker alone -/

namespace Worker

/-- A step of a worker, with the shards. -/
def turn (x : Worker n K V R × Vector (Shard S K V P) n) :
    Worker n K V R × Vector (Shard S K V P) n :=
  x.1.step x.2

theorem turn_of_site {w : Worker n K V R} {i : Fin n} (h : w.site? = some i)
    (shards : Vector (Shard S K V P) n) (s : Shard S K V P) :
    turn (w, shards.set i s i.isLt) = ((w.actOn s).1, shards.set i (w.actOn s).2 i.isLt) := by
  unfold turn
  rw [step_of_site h, Shard.get_set_self, Vector.set_set]

/-- A worker that is let alone takes a report to the policy as the shard does. -/
theorem turns_settle (pending : List (Batch n K V R)) (current : List (Except Panic (Answer V R)))
    (closed : List (List (Except Panic (Answer V R)))) (i : Fin n) (answer : Answer V R)
    (r : Report) (shards : Vector (Shard S K V P) n) (s : Shard S K V P) :
    let w : Worker n K V R := ⟨pending, .accessed i answer r, current, closed⟩
    ∃ k, turn^[k] (w, shards.set i s i.isLt) =
      (w.finish ((s.settle r).1.map fun () => answer), shards.set i (s.settle r).2.1 i.isLt) := by
  intro w
  have hjudge := turn_of_site (w := w) rfl shards s
  unfold Shard.settle
  simp only [actOn, w] at hjudge
  rcases hx : s.inspect r with ⟨verdict, s₁⟩
  rw [hx] at hjudge
  simp only at hjudge ⊢
  by_cases hnormal : verdict = .normal
  · rw [if_pos hnormal] at hjudge ⊢
    exact ⟨1, hjudge⟩
  · let w₁ : Worker n K V R := { w with phase := .judged i answer verdict r.slotCount }
    have hask := turn_of_site (w := w₁) rfl shards s₁
    simp only [actOn, w₁, w] at hask
    rcases hy : s₁.wants verdict r.slotCount with ⟨wanted, s₂⟩
    rw [hy] at hask
    simp only at hask ⊢
    rw [if_neg hnormal] at hjudge ⊢
    cases wanted with
    | false => exact ⟨2, (congrArg turn hjudge).trans hask⟩
    | true =>
      let w₂ : Worker n K V R := { w with phase := .granted i answer verdict }
      have hresize := turn_of_site (w := w₂) rfl shards s₂
      exact ⟨3, (congrArg (turn ∘ turn) hjudge).trans ((congrArg turn hask).trans hresize)⟩

/-- A worker that is let alone carries an operation out as the shard does, and closes its batch. -/
theorem turns_perform (task : Task n K V R) (later : List (Batch n K V R))
    (closed : List (List (Except Panic (Answer V R)))) (shards : Vector (Shard S K V P) n) :
    let done := (shards.get task.shard).perform task.hash task.op
    ∃ k, turn^[k] (⟨[task] :: later, .idle, [], closed⟩, shards) =
      (⟨later, .idle, [], [done.1] :: closed⟩, shards.set task.shard done.2.1 task.shard.isLt) := by
  intro done
  -- However the operation ends, one more step closes its batch.
  have hclose : ∀ (answer : Except Panic (Answer V R)) (phase : Phase n V R)
      (shards : Vector (Shard S K V P) n),
      turn (finish ⟨[] :: later, phase, [], closed⟩ answer, shards) =
        (⟨later, .idle, [], [answer] :: closed⟩, shards) := by
    intro answer phase shards
    cases answer <;> rfl
  let w : Worker n K V R := ⟨[task] :: later, .idle, [], closed⟩
  have haccess : turn (w, shards) = _ := step_of_site (rfl : w.site? = some task.shard) shards
  simp only [actOn, w] at haccess
  unfold done Shard.perform
  rcases hx : (shards.get task.shard).access task.hash task.op with ⟨p | ⟨answer, _ | r⟩, s⟩ <;>
    simp only [hx] at haccess ⊢
  · exact ⟨2, (congrArg turn haccess).trans (hclose (.error p) .idle _)⟩
  · exact ⟨2, (congrArg turn haccess).trans (hclose (.ok answer) .idle _)⟩
  · obtain ⟨k, hsettle⟩ := turns_settle ([] :: later) [] closed task.shard answer r shards s
    refine ⟨k + 1 + 1, ?_⟩
    rw [Function.iterate_succ_apply, haccess, Function.iterate_succ_apply', hsettle]
    exact hclose _ _ _

end Worker

/-- A worker that takes `k` turns in a row. -/
theorem Machine.run_replicate (k : Nat) {m : Machine n S K V P R} {t : Nat} {w : Worker n K V R}
    (h : m.workers[t]? = some w) :
    m.run (List.replicate k t) =
      ⟨(Worker.turn^[k] (w, m.shards)).2, m.workers.set t (Worker.turn^[k] (w, m.shards)).1⟩ := by
  induction k generalizing m w with
  | zero =>
    obtain ⟨hlt, rfl⟩ := List.getElem?_eq_some_iff.1 h
    show m = ⟨m.shards, m.workers.set t m.workers[t]⟩
    rw [List.set_getElem_self]
  | succ k ih =>
    have hlt := (List.getElem?_eq_some_iff.1 h).1
    rw [List.replicate_succ, Machine.run_cons, Machine.step_eq h,
      ih (List.getElem?_set_self hlt), List.set_set]
    rfl

theorem Machine.length_run (m : Machine n S K V P R) (schedule : List Nat) :
    (m.run schedule).workers.length = m.workers.length := by
  induction schedule generalizing m with
  | nil => rfl
  | cons t rest ih => exact (ih (m.step t)).trans (m.length_step t)

theorem Machine.lt_of_mem_accesses {m : Machine n S K V P R} {schedule : List Nat}
    {x : Nat × Task n K V R} (hx : x ∈ m.accesses schedule) : x.1 < m.workers.length := by
  induction schedule generalizing m with
  | nil => cases hx
  | cons t rest ih =>
    unfold accesses at hx
    rcases List.mem_append.1 hx with hx | hx
    · obtain ⟨task, htask, rfl⟩ := List.mem_map.1 hx
      obtain ⟨w, hw, -⟩ := Option.bind_eq_some_iff.1 (Option.mem_toList.1 htask)
      exact (List.getElem?_eq_some_iff.1 hw).1
    · rw [← m.length_step t]
      exact ih hx

/-! ## Operations at once -/

namespace Map

/-- Does operations of several threads one after another, each at once, with the answers of each
thread. -/
def performEach (m : Map S K V P) (log : List (Nat × Operation K V R)) :
    List (Nat × Except Panic (Answer V R)) × Map S K V P :=
  runEach (fun op m => m.perform op) log m

/-- An operation on the shards of a map. -/
def performOn (m : Map S K V P) (op : Operation K V R) (shards : Vector (Shard S K V P) m.count) :
    Except Panic (Answer V R) × Vector (Shard S K V P) m.count :=
  let done := (shards.get (m.shardOf op)).perform (m.hash op.key) op
  (done.1, shards.set (m.shardOf op) done.2.1)

theorem perform_withShards (m : Map S K V P) (op : Operation K V R)
    (shards : Vector (Shard S K V P) m.count) :
    Map.perform { m with shards } op =
      ((m.performOn op shards).1, { m with shards := (m.performOn op shards).2 }) :=
  perform_eq { m with shards } op

theorem performEach_withShards (m : Map S K V P) (log : List (Nat × Operation K V R))
    (shards : Vector (Shard S K V P) m.count) :
    performEach { m with shards } log =
      ((runEach m.performOn log shards).1,
        { m with shards := (runEach m.performOn log shards).2 }) := by
  induction log generalizing shards with
  | nil => rfl
  | cons x rest ih =>
    have hrest := ih (m.performOn x.2 shards).2
    unfold performEach at hrest ⊢
    simp only [runEach, perform_withShards, hrest]

theorem performEach_eq (m : Map S K V P) (log : List (Nat × Operation K V R)) :
    m.performEach log =
      ((runEach m.performOn log m.shards).1,
        { m with shards := (runEach m.performOn log m.shards).2 }) :=
  performEach_withShards m log m.shards

/-! ## Threads that come to the same -/

/-- What a worker is like that has still to do all of `ops`. -/
structure Awaits (m : Map S K V P) (ops : List (Operation K V R)) (w : Worker m.count K V R) :
    Prop where
  pending : w.pending = m.batches ops
  idle : w.phase = .idle
  current : w.current = []

/-- Whatever operations done at once lead to, some schedule of threads that have still to do them
leads to. -/
theorem exists_schedule (m : Map S K V P) (log : List (Nat × Operation K V R))
    {machine : Machine m.count S K V P R} (hworkers : ∀ x ∈ log, x.1 < machine.workers.length)
    (hawaits : ∀ t w, machine.workers[t]? = some w → m.Awaits (ofWorker t log) w) :
    ∃ schedule, (machine.run schedule).finished ∧
      (machine.run schedule).shards = (runEach m.performOn log machine.shards).2 ∧
      ∀ t w, machine.workers[t]? = some w → ∃ w', (machine.run schedule).workers[t]? = some w' ∧
        w'.received = w.received ++ ofWorker t (runEach m.performOn log machine.shards).1 := by
  induction log generalizing machine with
  | nil =>
    refine ⟨[], ?_, rfl, fun t w hw => ⟨w, hw, (List.append_nil _).symm⟩⟩
    intro w hw
    obtain ⟨t, ht⟩ := List.getElem?_of_mem hw
    exact ⟨(hawaits t w ht).pending, (hawaits t w ht).idle⟩
  | cons x rest ih =>
    obtain ⟨t, op⟩ := x
    obtain ⟨hlt, hrest⟩ := List.forall_mem_cons.1 hworkers
    -- Thread `t` takes as many turns as its operation needs, and then the others follow.
    obtain ⟨w, hw⟩ : ∃ w, machine.workers[t]? = some w := ⟨_, List.getElem?_eq_getElem hlt⟩
    obtain ⟨pending, phase, current, closed⟩ := w
    obtain ⟨hpending, hphase, hcurrent⟩ := hawaits t _ hw
    rw [ofWorker_cons_self] at hpending
    obtain rfl : pending = [m.task op] :: m.batches (ofWorker t rest) := hpending
    obtain rfl : phase = .idle := hphase
    obtain rfl : current = [] := hcurrent
    obtain ⟨k, hturns⟩ := Worker.turns_perform (m.task op) (m.batches (ofWorker t rest)) closed
      machine.shards
    let done := m.performOn op machine.shards
    let w₁ : Worker m.count K V R :=
      ⟨m.batches (ofWorker t rest), .idle, [], [done.1] :: closed⟩
    have hrun : machine.run (List.replicate k t) = ⟨done.2, machine.workers.set t w₁⟩ := by
      rw [Machine.run_replicate k hw, hturns]
      rfl
    have hw₁ : (machine.workers.set t w₁)[t]? = some w₁ := List.getElem?_set_self hlt
    have hnext : ∀ u w, (machine.workers.set t w₁)[u]? = some w →
        m.Awaits (ofWorker u rest) w := by
      intro u w hu
      by_cases htu : t = u
      · subst htu
        obtain rfl := Option.some.inj (hw₁.symm.trans hu)
        exact ⟨rfl, rfl, rfl⟩
      · rw [List.getElem?_set_ne htu] at hu
        have h := hawaits u w hu
        rw [ofWorker_cons_ne htu] at h
        exact h
    have hrest' : ∀ y ∈ rest, y.1 < (machine.workers.set t w₁).length := by
      rw [List.length_set]
      exact hrest
    obtain ⟨schedule, hfinished, hshards, hreceived⟩ :=
      @ih ⟨done.2, machine.workers.set t w₁⟩ hrest' hnext
    refine ⟨List.replicate k t ++ schedule, ?_⟩
    rw [Machine.run_append, hrun]
    refine ⟨hfinished, hshards, ?_⟩
    intro u w hu
    show ∃ w' : Worker m.count K V R, _ ∧ w'.received = w.received ++
      ofWorker u ((t, done.1) :: (runEach m.performOn rest done.2).1)
    by_cases htu : t = u
    · subst htu
      obtain rfl := Option.some.inj (hw.symm.trans hu)
      obtain ⟨w', hw', hreceived'⟩ := hreceived t w₁ hw₁
      refine ⟨w', hw', ?_⟩
      rw [hreceived', ofWorker_cons_self]
      simp [Worker.received, Worker.ended, Worker.underway, w₁]
    · rw [ofWorker_cons_ne htu]
      exact hreceived u w ((List.getElem?_set_ne htu).trans hu)

/-- Threads can do their operations as a mix of their programs does them at once. -/
theorem exists_schedule_machine (m : Map S K V P) {programs : List (List (Operation K V R))}
    {log : List (Nat × Operation K V R)} (hlog : Interleaves log programs) :
    ∃ schedule, ((m.machine programs).run schedule).finished ∧
      { m with shards := ((m.machine programs).run schedule).shards } = (m.performEach log).2 ∧
      ∀ t w, ((m.machine programs).run schedule).workers[t]? = some w →
        w.received = ofWorker t (m.performEach log).1 := by
  have hworkers : ∀ x ∈ log, x.1 < (m.machine programs).workers.length := by
    intro x hx
    have hmem := hlog.mem hx
    rw [length_machine]
    apply Nat.lt_of_not_le
    intro hle
    rw [getD_of_length_le hle] at hmem
    cases hmem
  have hawaits : ∀ t w, (m.machine programs).workers[t]? = some w →
      m.Awaits (ofWorker t log) w := by
    intro t w hw
    rw [machine_worker hw, hlog t]
    exact ⟨rfl, rfl, rfl⟩
  obtain ⟨schedule, hfinished, hshards, hreceived⟩ := m.exists_schedule log hworkers hawaits
  rw [performEach_eq]
  refine ⟨schedule, hfinished, ?_, ?_⟩
  · rw [hshards]
    rfl
  · intro t w hw
    have hlt : t < (m.machine programs).workers.length := by
      rw [← Machine.length_run _ schedule]
      exact (List.getElem?_eq_some_iff.1 hw).1
    obtain ⟨w', hw', hreceived'⟩ := hreceived t _ (List.getElem?_eq_getElem hlt)
    obtain rfl := Option.some.inj (hw.symm.trans hw')
    rw [hreceived', machine_worker (List.getElem?_eq_getElem hlt)]
    rfl

end Map

end ShardedMap
