import Mathlib.Logic.Function.Basic
import ShardedMap.Concurrent
import ShardedMap.Proofs.Interleaving
import ShardedMap.Proofs.Reference
import ShardedMap.Proofs.Shard.Several
/-
  Threads on shared shards, in any order of their steps. The accesses of a run, in the order in
  which they happen (`Machine.accesses`), are what a reference map for each shard is to serve one
  after another (`serve`). The steps after an access move entries about at most, however old the
  verdict and the slot count are that they go by, so each shard always stands for its reference map;
  and as each worker receives the answers of its own accesses, in its own order, a run cannot be
  told from one in which every operation happens at its access (`run_linearizable`).
-/
namespace ShardedMap

variable {S : Type → Type} {H : Type} [DecidableEq H] [Storage S H] [LawfulStorage S H]

variable {n : Nat} {K V P R : Type}

/-! ## What workers have done -/

/-- The slot count that a phase goes by, however old, was one of some slots. -/
def Phase.Measured : Phase n V R → Prop
  | .accessed _ _ report => 0 < report.slotCount
  | .judged _ _ _ slotCount => 0 < slotCount
  | .idle | .granted _ _ _ => True

namespace Worker

/-- The task that a worker is about to access, if an access is its next step. -/
def next? (w : Worker n K V R) : Option (Task n K V R) :=
  match w.phase, w.pending with
  | .idle, (task :: _) :: _ => some task
  | _, _ => none

/-- The answer of an operation whose access is done and that has not ended. -/
def underway (w : Worker n K V R) : List (Except Panic (Answer V R)) :=
  match w.phase with
  | .idle => []
  | .accessed _ answer _ | .judged _ answer _ _ | .granted _ answer _ => [.ok answer]

/-- The answers of the operations that have ended, oldest first. -/
def ended (w : Worker n K V R) : List (Except Panic (Answer V R)) :=
  (w.closed.reverse.map List.reverse).flatten ++ w.current.reverse

/-- The answers that a worker has received, oldest first, with that of an operation under way. -/
def received (w : Worker n K V R) : List (Except Panic (Answer V R)) := w.ended ++ w.underway

theorem received_finish (w : Worker n K V R) (answer : Except Panic (Answer V R)) :
    (w.finish answer).received = w.ended ++ [answer] := by
  simp [received, ended, underway, finish]

theorem received_close (w : Worker n K V R) (later : List (Batch n K V R)) :
    (w.close later).received = w.received := by
  simp [received, ended, underway, close]

theorem pending_finish_ok (w : Worker n K V R) (answer : Answer V R) :
    (w.finish (.ok answer)).pending = w.pending := by
  show Batch.leftAfter (.ok answer) w.pending = w.pending
  cases w.pending <;> rfl

/-- From `w` to `w'`, a worker did `tasks` and was given `answers`. -/
structure Went (w w' : Worker n K V R) (tasks : List (Task n K V R))
    (answers : List (Answer V R)) : Prop where
  received : w'.received = w.received ++ answers.map .ok
  left : w.pending.flatten = tasks ++ w'.pending.flatten

theorem Went.refl (w : Worker n K V R) : w.Went w [] [] :=
  ⟨(List.append_nil _).symm, rfl⟩

theorem Went.trans {w w' w'' : Worker n K V R} {tasks tasks' : List (Task n K V R)}
    {answers answers' : List (Answer V R)} (h : w.Went w' tasks answers)
    (h' : w'.Went w'' tasks' answers') :
    w.Went w'' (tasks ++ tasks') (answers ++ answers') := by
  constructor
  · rw [h'.received, h.received, List.map_append, List.append_assoc]
  · rw [h.left, h'.left, List.append_assoc]

end Worker

namespace Machine

variable [BEq K] [ResizePolicy P]

/-- The accesses on the way of a schedule, in order, each with the number of its worker. -/
def accesses (m : Machine n S K V P R) : List Nat → List (Nat × Task n K V R)
  | [] => []
  | t :: rest =>
    (m.workers[t]?.bind Worker.next?).toList.map (fun task => (t, task)) ++
      (m.step t).accesses rest

theorem length_step (m : Machine n S K V P R) (t : Nat) :
    (m.step t).workers.length = m.workers.length := by
  unfold step
  split
  · rfl
  · exact List.length_set

end Machine

/-! ## One map for each shard -/

section Serving

variable [BEq K] [EquivBEq K]

/-- Serves tasks one after another on one map for each shard, answering each worker's number with
the answer to it. -/
def serve : List (Nat × Task n K V R) → (Fin n → Reference K V) →
    List (Nat × Answer V R) × (Fin n → Reference K V)
  | [], refs => ([], refs)
  | (t, task) :: rest, refs =>
    let (answer, r) := (refs task.shard).step task.hash task.op
    let (answers, refs) := serve rest (Function.update refs task.shard r)
    ((t, answer) :: answers, refs)

theorem serve_append (l r : List (Nat × Task n K V R)) (refs : Fin n → Reference K V) :
    serve (l ++ r) refs =
      ((serve l refs).1 ++ (serve r (serve l refs).2).1, (serve r (serve l refs).2).2) := by
  induction l generalizing refs with
  | nil => rfl
  | cons x l ih =>
    obtain ⟨t, task⟩ := x
    rw [List.cons_append, serve, serve]
    simp only [ih, List.cons_append]

end Serving

/-! ## One shard and its map -/

namespace Shard

variable [BEq K] [EquivBEq K] [ResizePolicy P]

/-- A sound shard whose entries are those of a reference map, and whose policy never plans a resize
to no slot. -/
structure Stands (r : Reference K V) (s : Shard S K V P) : Prop where
  sound : s.Sound
  cautious : ResizePolicy.Cautious S K V s.policy
  entries : r.Represents s.slots.entries

theorem Stands.fresh {slotCount : Nat} (h : 0 < slotCount) {policy : P}
    (hp : ResizePolicy.Cautious S K V policy) :
    Stands ∅ (Shard.fresh slotCount policy : Shard S K V P) := by
  refine ⟨Sound.fresh h policy, cautious_fresh hp h, ?_⟩
  rw [entries_fresh]
  exact Reference.represents_nil

theorem Stands.settled {r : Reference K V} {s s' : Shard S K V P} (h : s.Stands r)
    (hs : Settled s s') : s'.Stands r :=
  ⟨hs.sound, h.cautious.becomes hs.policy, h.entries.perm hs.entries.symm⟩

/-- An access answers as the map does, and what it reports is of some slots. -/
theorem Stands.access {r : Reference K V} {s : Shard S K V P} (h : s.Stands r) (hash : UInt64)
    (op : Operation K V R) :
    ∃ report, (s.access hash op).1 = .ok ((r.step hash op).1, report) ∧
      (∀ x ∈ report, 0 < x.slotCount) ∧ (s.access hash op).2.Stands (r.step hash op).2 := by
  obtain ⟨found, rest, hacc, hanswer, hsound⟩ := h.sound.access hash op
  obtain ⟨hstep, hrep⟩ := (h.entries.perm hacc.before).step hacc.hit hacc.miss
  refine ⟨_, by rw [hstep]; exact hanswer, ?_, hsound, ?_, hrep.perm hacc.after.symm⟩
  · intro x hx
    rw [(reportOf_some hx).2.2.1]
    exact h.sound.pos
  · rw [hacc.policy]
    exact h.cautious

end Shard

/-! ## Steps and runs -/

section Steps

variable [BEq K] [EquivBEq K] [ResizePolicy P]
variable {shards : Vector (Shard S K V P) n} {refs : Fin n → Reference K V}

theorem stands_set (h : ∀ i, (shards.get i).Stands (refs i)) {i : Fin n} {s : Shard S K V P}
    (hs : Shard.Settled (shards.get i) s) :
    ∀ j, ((shards.set i s i.isLt).get j).Stands (refs j) :=
  Shard.forall_set (fun j _ => h j) ((h i).settled hs)

/-- After the access, the steps of an operation change neither its answer nor what is left to do. -/
theorem Worker.step_settling (h : ∀ i, (shards.get i).Stands (refs i)) {w : Worker n K V R}
    (hm : w.phase.Measured) (hw : w.phase ≠ .idle) :
    (∀ i, ((w.step shards).2.get i).Stands (refs i)) ∧ (w.step shards).1.phase.Measured ∧
      (w.step shards).1.received = w.received ∧ (w.step shards).1.pending = w.pending := by
  obtain ⟨pending, phase, current, closed⟩ := w
  unfold Worker.step
  simp only [Shard.workOn_eq]
  cases phase with
  | idle => exact absurd rfl hw
  | accessed i answer r =>
    have hall := stands_set h ((h i).sound.inspect r)
    simp only
    split
    · exact ⟨hall, trivial, received_finish _ _, pending_finish_ok _ _⟩
    · exact ⟨hall, hm, rfl, rfl⟩
  | judged i answer verdict slotCount =>
    have hall := stands_set h ((h i).sound.wants verdict hm)
    simp only
    split
    · exact ⟨hall, trivial, rfl, rfl⟩
    · exact ⟨hall, trivial, received_finish _ _, pending_finish_ok _ _⟩
  | granted i answer verdict =>
    have hall := stands_set h ((h i).sound.resize verdict)
    simp only [Shard.resize_ok (h i).sound.pos (h i).cautious verdict]
    exact ⟨hall, trivial, received_finish _ _, pending_finish_ok _ _⟩

theorem Worker.step_access (h : ∀ i, (shards.get i).Stands (refs i)) {w : Worker n K V R}
    (hphase : w.phase = .idle) {task : Task n K V R} {rest : Batch n K V R}
    {later : List (Batch n K V R)} (hpending : w.pending = (task :: rest) :: later) :
    let served := (refs task.shard).step task.hash task.op
    (∀ i, ((w.step shards).2.get i).Stands (Function.update refs task.shard served.2 i)) ∧
      (w.step shards).1.phase.Measured ∧
      (w.step shards).1.received = w.received ++ [.ok served.1] ∧
      (w.step shards).1.pending = rest :: later := by
  obtain ⟨pending, phase, current, closed⟩ := w
  obtain rfl : phase = .idle := hphase
  obtain rfl : pending = (task :: rest) :: later := hpending
  intro served
  obtain ⟨report, hanswer, hcount, hstands⟩ := (h task.shard).access task.hash task.op
  have hall : ∀ j, ((shards.set task.shard
      ((shards.get task.shard).access task.hash task.op).2 task.shard.isLt).get j).Stands
        (Function.update refs task.shard served.2 j) := by
    apply Shard.forall_set
    · intro j hj
      rw [Function.update_of_ne hj.symm]
      exact h j
    · rw [Function.update_self]
      exact hstands
  have hidle : received ⟨(task :: rest) :: later, .idle, current, closed⟩ =
      ended ⟨(task :: rest) :: later, .idle, current, closed⟩ := List.append_nil _
  rw [hidle]
  unfold Worker.step
  simp only [Shard.workOn_eq, hanswer]
  cases report with
  | none => exact ⟨hall, trivial, received_finish _ _, pending_finish_ok _ _⟩
  | some r => exact ⟨hall, hcount r rfl, rfl, rfl⟩

/-- A step of a worker serves the access that it makes, if it makes one, and nothing else. -/
theorem Worker.step_served (h : ∀ i, (shards.get i).Stands (refs i)) {w : Worker n K V R}
    (hm : w.phase.Measured) (t : Nat) :
    let log := w.next?.toList.map fun task => (t, task)
    (∀ i, ((w.step shards).2.get i).Stands ((serve log refs).2 i)) ∧
      (w.step shards).1.phase.Measured ∧
      w.Went (w.step shards).1 (ofWorker t log) (ofWorker t (serve log refs).1) := by
  by_cases hphase : w.phase = .idle
  · rcases hpending : w.pending with _ | ⟨_ | ⟨task, rest⟩, later⟩
    · have hnext : w.next? = none := by simp [next?, hphase, hpending]
      have hstep : w.step shards = (w, shards) := by simp [step, hphase, hpending]
      rw [hnext, hstep]
      exact ⟨h, hm, .refl w⟩
    · have hnext : w.next? = none := by simp [next?, hphase, hpending]
      have hstep : w.step shards = (w.close later, shards) := by simp [step, hphase, hpending]
      rw [hnext, hstep]
      refine ⟨h, hm, (received_close w later).trans (List.append_nil _).symm, ?_⟩
      rw [hpending]
      rfl
    · have hnext : w.next? = some task := by simp [next?, hphase, hpending]
      obtain ⟨hstands, hmeasured, hreceived, hleft⟩ := step_access h hphase hpending
      rw [hnext]
      refine ⟨hstands, hmeasured, hreceived.trans ?_, ?_⟩
      · exact congrArg (fun l => w.received ++ l.map .ok) (ofWorker_self t [_]).symm
      · show _ = ofWorker t ([task].map fun task => (t, task)) ++ _
        rw [ofWorker_self, hpending, hleft]
        rfl
  · have hnext : w.next? = none := by
      unfold next?
      split
      · contradiction
      · rfl
    obtain ⟨hstands, hmeasured, hreceived, hleft⟩ := step_settling h hm hphase
    rw [hnext]
    refine ⟨hstands, hmeasured, hreceived.trans (List.append_nil _).symm, ?_⟩
    rw [hleft]
    rfl

end Steps

namespace Machine

theorem measured_start (shards : Vector (Shard S K V P) n)
    (programs : List (List (Batch n K V R))) :
    ∀ w ∈ (start shards programs).workers, w.phase.Measured := by
  intro w hw
  obtain ⟨batches, -, rfl⟩ := List.mem_map.1 hw
  trivial

variable [BEq K] [EquivBEq K] [ResizePolicy P]

/-- A step of one worker serves the access that it makes and leaves the other workers as they
are. -/
theorem step_served {m : Machine n S K V P R} {refs : Fin n → Reference K V}
    (h : ∀ i, (m.shards.get i).Stands (refs i)) (hm : ∀ w ∈ m.workers, w.phase.Measured)
    (t : Nat) :
    let log := (m.workers[t]?.bind Worker.next?).toList.map fun task => (t, task)
    (∀ i, ((m.step t).shards.get i).Stands ((serve log refs).2 i)) ∧
      (∀ w ∈ (m.step t).workers, w.phase.Measured) ∧
      ∀ (u : Nat) (w : Worker n K V R), m.workers[u]? = some w →
        ∃ w', (m.step t).workers[u]? = some w' ∧
          w.Went w' (ofWorker u log) (ofWorker u (serve log refs).1) := by
  cases ht : m.workers[t]? with
  | none =>
    have hstep : m.step t = m := by
      unfold step
      rw [ht]
    rw [hstep]
    exact ⟨h, hm, fun u w hw => ⟨w, hw, .refl w⟩⟩
  | some v =>
    have hstep : m.step t = ⟨(v.step m.shards).2, m.workers.set t (v.step m.shards).1⟩ := by
      unfold step
      rw [ht]
    obtain ⟨hstands, hmeasured, hwent⟩ :=
      Worker.step_served h (hm v (List.mem_of_getElem? ht)) t
    rw [hstep]
    refine ⟨hstands, ?_, ?_⟩
    · intro w hw
      rcases List.mem_or_eq_of_mem_set hw with hw | rfl
      · exact hm w hw
      · exact hmeasured
    intro u w hw
    by_cases htu : t = u
    · subst htu
      obtain rfl : v = w := Option.some.inj (ht.symm.trans hw)
      refine ⟨_, ?_, hwent⟩
      exact List.getElem?_set_self (List.getElem?_eq_some_iff.1 ht).1
    · refine ⟨w, (List.getElem?_set_ne htu).trans hw, ?_⟩
      show w.Went w (ofWorker u (v.next?.toList.map fun task => (t, task)))
        (ofWorker u (serve (v.next?.toList.map fun task => (t, task)) refs).1)
      rw [ofWorker_ne htu]
      cases v.next? with
      | none => exact .refl w
      | some task =>
        show w.Went w [] (ofWorker u ([_].map fun answer => (t, answer)))
        rw [ofWorker_ne htu]
        exact .refl w

theorem run_served {m : Machine n S K V P R} {refs : Fin n → Reference K V}
    (h : ∀ i, (m.shards.get i).Stands (refs i)) (hm : ∀ w ∈ m.workers, w.phase.Measured)
    (schedule : List Nat) :
    let log := m.accesses schedule
    (∀ i, ((m.run schedule).shards.get i).Stands ((serve log refs).2 i)) ∧
      (m.run schedule).workers.length = m.workers.length ∧
      ∀ (u : Nat) (w : Worker n K V R), m.workers[u]? = some w →
        ∃ w', (m.run schedule).workers[u]? = some w' ∧
          w.Went w' (ofWorker u log) (ofWorker u (serve log refs).1) := by
  induction schedule generalizing m refs with
  | nil => exact ⟨h, rfl, fun u w hw => ⟨w, hw, .refl w⟩⟩
  | cons t rest ih =>
    obtain ⟨hstands, hmeasured, hfirst⟩ := step_served h hm t
    obtain ⟨hlast, hlength, hrest⟩ := ih hstands hmeasured
    unfold accesses
    simp only [serve_append]
    refine ⟨hlast, hlength.trans (length_step m t), ?_⟩
    intro u w hw
    obtain ⟨v, hv, hwv⟩ := hfirst u w hw
    obtain ⟨w', hw', hvw'⟩ := hrest u v hv
    refine ⟨w', hw', ?_⟩
    rw [ofWorker_append, ofWorker_append]
    exact hwv.trans hvw'

end Machine

end ShardedMap
