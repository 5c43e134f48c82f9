import Mathlib.Data.List.Basic
import ShardedMap.Concurrent
import ShardedMap.Proofs.Interleaving
import ShardedMap.Proofs.Shard.Several
/-
  Workers that keep to shards of their own. A step of a worker sees and changes one shard at most,
  and only one that its operations are on (`Worker.step_of_site`). So if every shard has an owner
  and no worker goes to the shard of another (`Machine.Confined`), a worker and its shards go
  through the same states whatever the others do meanwhile, and all schedules by which the workers
  finish end in one and the same machine (`run_confined`).
-/
namespace ShardedMap

variable {S : Type → Type} {H : Type} [DecidableEq H] [Storage S H] [LawfulStorage S H]

variable {n : Nat} {K V P R : Type}

/-! ## The shards of a worker -/

/-- The shard that an operation under way is on. -/
def Phase.shard? : Phase n V R → Option (Fin n)
  | idle => none
  | accessed i _ _ | judged i _ _ _ | granted i _ _ => some i

/-- Whether no operation is under way. -/
instance (phase : Phase n V R) : Decidable (phase = .idle) :=
  match phase with
  | .idle => .isTrue rfl
  | .accessed .. | .judged .. | .granted .. => .isFalse nofun

instance (m : Machine n S K V P R) : Decidable m.finished :=
  inferInstanceAs (Decidable (∀ w ∈ m.workers, w.pending = [] ∧ w.phase = .idle))

namespace Worker

/-- The shards that a worker has still to work on. -/
def sites (w : Worker n K V R) : List (Fin n) :=
  w.phase.shard?.toList ++ w.pending.flatten.map Task.shard

theorem flatten_leftAfter_subset (answer : Except Panic (Answer V R))
    (batches : List (Batch n K V R)) :
    (Batch.leftAfter answer batches).flatten ⊆ batches.flatten := by
  cases batches with
  | nil => exact List.Subset.refl _
  | cons batch later =>
    cases answer with
    | ok a => exact List.Subset.refl _
    | error p => exact List.subset_append_right _ _

theorem sites_finish_subset (w : Worker n K V R) (answer : Except Panic (Answer V R)) :
    (w.finish answer).sites ⊆ w.pending.flatten.map Task.shard :=
  List.map_subset _ (flatten_leftAfter_subset answer w.pending)

/-- The shard that the next step is on, if it is on one. -/
def site? (w : Worker n K V R) : Option (Fin n) :=
  match w.phase, w.pending with
  | .idle, (task :: _) :: _ => some task.shard
  | phase, _ => phase.shard?

theorem mem_sites_of_site {w : Worker n K V R} {i : Fin n} (h : w.site? = some i) :
    i ∈ w.sites := by
  obtain ⟨pending, phase, current, closed⟩ := w
  cases phase with
  | idle =>
    rcases pending with _ | ⟨_ | ⟨task, rest⟩, later⟩ <;> cases h
    exact List.mem_cons_self
  | accessed | judged | granted =>
    cases h
    exact List.mem_cons_self

variable [BEq K] [ResizePolicy P]

/-- What a worker in its next step does with the shard that the step is on. -/
def actOn (w : Worker n K V R) (s : Shard S K V P) : Worker n K V R × Shard S K V P :=
  match w.phase with
  | .idle =>
    match w.pending with
    | [] => (w, s)
    | [] :: later => (w.close later, s)
    | (task :: rest) :: later =>
      let w := { w with pending := rest :: later }
      match s.access task.hash task.op with
      | (.error p, s) => (w.finish (.error p), s)
      | (.ok (answer, none), s) => (w.finish (.ok answer), s)
      | (.ok (answer, some r), s) => ({ w with phase := .accessed task.shard answer r }, s)
  | .accessed i answer r =>
    let (verdict, s) := s.inspect r
    if verdict = .normal then (w.finish (.ok answer), s)
    else ({ w with phase := .judged i answer verdict r.slotCount }, s)
  | .judged i answer verdict slotCount =>
    let (wanted, s) := s.wants verdict slotCount
    if wanted then ({ w with phase := .granted i answer verdict }, s)
    else (w.finish (.ok answer), s)
  | .granted _ answer verdict =>
    let (result, s, _) := s.resize verdict
    (w.finish (result.map fun () => answer), s)

theorem sites_actOn_subset (w : Worker n K V R) (s : Shard S K V P) :
    (w.actOn s).1.sites ⊆ w.sites := by
  obtain ⟨pending, phase, current, closed⟩ := w
  -- What an operation under way leaves is pending already, so ending it can only take shards away.
  have hfinish : ∀ (phase : Phase n V R) (answer : Except Panic (Answer V R)),
      (finish ⟨pending, phase, current, closed⟩ answer).sites ⊆
        sites ⟨pending, phase, current, closed⟩ := by
    intro phase answer
    exact List.Subset.trans (sites_finish_subset _ answer) (List.subset_append_right _ _)
  cases phase with
  | idle =>
    rcases pending with _ | ⟨_ | ⟨task, rest⟩, later⟩
    · exact List.Subset.refl _
    · exact List.Subset.refl _
    · let w : Worker n K V R := ⟨rest :: later, .idle, current, closed⟩
      have hrest : w.pending.flatten.map Task.shard ⊆
          sites ⟨(task :: rest) :: later, .idle, current, closed⟩ := List.subset_cons_self _ _
      simp only [actOn]
      split
      · exact List.Subset.trans (sites_finish_subset w _) hrest
      · exact List.Subset.trans (sites_finish_subset w _) hrest
      · exact List.Subset.refl _
  | accessed i answer r =>
    simp only [actOn]
    split
    · exact hfinish _ _
    · exact List.Subset.refl _
  | judged i answer verdict slotCount =>
    simp only [actOn]
    split
    · exact List.Subset.refl _
    · exact hfinish _ _
  | granted i answer verdict => exact hfinish _ _

/-- A step goes by one shard and changes no other one. -/
theorem step_of_site {w : Worker n K V R} {i : Fin n} (h : w.site? = some i)
    (shards : Vector (Shard S K V P) n) :
    w.step shards = ((w.actOn (shards.get i)).1, shards.set i (w.actOn (shards.get i)).2) := by
  obtain ⟨pending, phase, current, closed⟩ := w
  cases phase with
  | idle =>
    rcases pending with _ | ⟨_ | ⟨task, rest⟩, later⟩ <;> cases h
    simp only [step, actOn, Shard.workOn_eq]
    rcases (shards.get task.shard).access task.hash task.op with ⟨p | ⟨answer, _ | r⟩, s⟩ <;> rfl
  | accessed | judged =>
    cases h
    simp only [step, actOn, Shard.workOn_eq]
    split <;> rfl
  | granted =>
    cases h
    simp only [step, actOn, Shard.workOn_eq]

theorem step_of_no_site {w : Worker n K V R} (h : w.site? = none) :
    ∃ w' : Worker n K V R, w'.sites ⊆ w.sites ∧
      ∀ shards : Vector (Shard S K V P) n, w.step shards = (w', shards) := by
  obtain ⟨pending, phase, current, closed⟩ := w
  cases phase with
  | idle =>
    rcases pending with _ | ⟨_ | ⟨task, rest⟩, later⟩
    · exact ⟨⟨[], .idle, current, closed⟩, List.Subset.refl _, fun _ => rfl⟩
    · exact ⟨close ⟨[] :: later, .idle, current, closed⟩ later, List.Subset.refl _, fun _ => rfl⟩
    · cases h
  | accessed | judged | granted => cases h

end Worker

/-! ## Shards and their owners -/

namespace Machine

/-- Each worker has only shards left to work on that it owns. -/
def Confined (owner : Fin n → Nat) (m : Machine n S K V P R) : Prop :=
  ∀ (t : Nat) (w : Worker n K V R), m.workers[t]? = some w → ∀ i ∈ w.sites, owner i = t

/-- Worker `t` and the shards that it owns. -/
def share (owner : Fin n → Nat) (m : Machine n S K V P R) (t : Nat) :
    Option (Worker n K V R) × (Fin n → Option (Shard S K V P)) :=
  (m.workers[t]?, fun i => if owner i = t then some (m.shards.get i) else none)

theorem share_eq_iff {owner : Fin n → Nat} {m m' : Machine n S K V P R} {t : Nat} :
    m.share owner t = m'.share owner t ↔
      m.workers[t]? = m'.workers[t]? ∧
        ∀ i, owner i = t → m.shards.get i = m'.shards.get i := by
  unfold share
  rw [Prod.mk.injEq, funext_iff]
  refine and_congr_right fun _ => forall_congr' fun i => ?_
  by_cases hi : owner i = t
  · simp [hi]
  · simp [hi]

/-- A machine is the shares of its workers. -/
theorem eq_of_share {owner : Fin n → Nat} {m m' : Machine n S K V P R}
    (h : ∀ t, m.share owner t = m'.share owner t) : m = m' := by
  obtain ⟨shards, workers⟩ := m
  obtain ⟨shards', workers'⟩ := m'
  have hworkers : workers = workers' :=
    List.ext_getElem? fun t => (share_eq_iff.1 (h t)).1
  have hshards : shards = shards' := by
    apply Vector.ext
    intro i hi
    exact (share_eq_iff.1 (h (owner ⟨i, hi⟩))).2 ⟨i, hi⟩ rfl
  rw [hworkers, hshards]

variable [BEq K] [ResizePolicy P]

theorem step_eq {m : Machine n S K V P R} {t : Nat} {w : Worker n K V R}
    (h : m.workers[t]? = some w) :
    m.step t = ⟨(w.step m.shards).2, m.workers.set t (w.step m.shards).1⟩ := by
  unfold step
  rw [h]

theorem step_of_none {m : Machine n S K V P R} {t : Nat} (h : m.workers[t]? = none) :
    m.step t = m := by
  unfold step
  rw [h]

theorem step_finished {m : Machine n S K V P R} {t : Nat}
    (h : ∀ w, m.workers[t]? = some w → w.pending = [] ∧ w.phase = .idle) : m.step t = m := by
  cases hw : m.workers[t]? with
  | none => exact step_of_none hw
  | some w =>
    obtain ⟨hpending, hphase⟩ := h w hw
    have hstay : w.step m.shards = (w, m.shards) := by simp [Worker.step, hpending, hphase]
    rw [step_eq hw, hstay]
    obtain ⟨hlt, rfl⟩ := List.getElem?_eq_some_iff.1 hw
    rw [List.set_getElem_self]

/-- A step of a confined worker sees and changes its own share only. -/
theorem cellwise_step (owner : Fin n → Nat) :
    Cellwise (fun t (m : Machine n S K V P R) => ((), m.step t)) id (share owner)
      (Confined owner) where
  keeps t m hm := by
    show Confined owner (m.step t)
    cases ht : m.workers[t]? with
    | none =>
      rw [step_of_none ht]
      exact hm
    | some w =>
      rw [step_eq ht]
      have hsites : (w.step m.shards).1.sites ⊆ w.sites := by
        cases hsite : w.site? with
        | none =>
          obtain ⟨w', hsub, hstep⟩ := Worker.step_of_no_site (S := S) (P := P) hsite
          rw [hstep]
          exact hsub
        | some i =>
          rw [Worker.step_of_site hsite]
          exact w.sites_actOn_subset _
      intro u v hu i hi
      by_cases htu : t = u
      · subst htu
        rw [List.getElem?_set_self (List.getElem?_eq_some_iff.1 ht).1] at hu
        cases hu
        exact hm t w ht i (hsites hi)
      · rw [List.getElem?_set_ne htu] at hu
        exact hm u v hu i hi
  answer _ _ _ _ _ _ := rfl
  inside t m m' hm hm' hshare := by
    show (m.step t).share owner t = (m'.step t).share owner t
    obtain ⟨hworker, hshards⟩ := share_eq_iff.1 hshare
    simp only [id_eq] at hworker hshards
    cases ht : m.workers[t]? with
    | none =>
      rw [step_of_none ht, step_of_none (hworker ▸ ht)]
      exact hshare
    | some w =>
      have ht' : m'.workers[t]? = some w := hworker ▸ ht
      have hlt := (List.getElem?_eq_some_iff.1 ht).1
      have hlt' := (List.getElem?_eq_some_iff.1 ht').1
      rw [step_eq ht, step_eq ht', share_eq_iff, List.getElem?_set_self hlt,
        List.getElem?_set_self hlt']
      cases hsite : w.site? with
      | none =>
        obtain ⟨w', -, hstep⟩ := Worker.step_of_no_site (S := S) (P := P) hsite
        rw [hstep, hstep]
        exact ⟨rfl, hshards⟩
      | some i =>
        rw [Worker.step_of_site hsite, Worker.step_of_site hsite,
          hshards i (hm t w ht i (Worker.mem_sites_of_site hsite))]
        refine ⟨rfl, fun j hj => ?_⟩
        by_cases hij : i = j
        · subst hij
          rw [Shard.get_set_self, Shard.get_set_self]
        · rw [Shard.get_set_ne _ hij, Shard.get_set_ne _ hij]
          exact hshards j hj
  outside t m c hm hc := by
    show (m.step t).share owner c = m.share owner c
    have htc : t ≠ c := fun h => hc h.symm
    cases ht : m.workers[t]? with
    | none => rw [step_of_none ht]
    | some w =>
      rw [step_eq ht, share_eq_iff, List.getElem?_set_ne htc]
      refine ⟨rfl, fun j hj => ?_⟩
      cases hsite : w.site? with
      | none =>
        obtain ⟨w', -, hstep⟩ := Worker.step_of_no_site (S := S) (P := P) hsite
        rw [hstep]
      | some i =>
        have hij : i ≠ j := by
          rintro rfl
          exact htc ((hm t w ht i (Worker.mem_sites_of_site hsite)).symm.trans hj)
        rw [Worker.step_of_site hsite, Shard.get_set_ne _ hij]

theorem run_cons (m : Machine n S K V P R) (t : Nat) (schedule : List Nat) :
    m.run (t :: schedule) = (m.step t).run schedule := rfl

theorem run_append (m : Machine n S K V P R) (schedule schedule' : List Nat) :
    m.run (schedule ++ schedule') = (m.run schedule).run schedule' :=
  List.foldl_append

theorem runEach_step (m : Machine n S K V P R) (schedule : List Nat) :
    (runEach (fun t (m : Machine n S K V P R) => ((), m.step t))
      (schedule.map fun t => (t, t)) m).2 = m.run schedule := by
  induction schedule generalizing m with
  | nil => rfl
  | cons t rest ih => exact ih (m.step t)

/-- The share of a worker is what it would be if the worker had been alone. -/
theorem share_run {owner : Fin n → Nat} {m : Machine n S K V P R} (hm : m.Confined owner) (t : Nat)
    (schedule : List Nat) :
    (m.run schedule).share owner t =
      (m.run (List.replicate (schedule.count t) t)).share owner t := by
  have hown : ∀ x ∈ schedule.map fun t => (t, t), x.1 = t ↔ id x.2 = t := by simp
  have halone := (cellwise_step owner).alone (D := fun c => c = t) hown hm hm fun _ _ => rfl
  have hsolo : ofWorker t (schedule.map fun t => (t, t)) = List.replicate (schedule.count t) t := by
    unfold ofWorker
    rw [List.filter_map, List.map_map, ← List.filter_beq]
    exact List.map_id _
  have hshare := halone.2 t rfl
  rw [hsolo, runEach_step] at hshare
  rw [hshare, ← runEach_step m (List.replicate _ t), List.map_replicate, List.map_replicate]

theorem run_replicate_finished {m : Machine n S K V P R} {t : Nat}
    (h : ∀ w, m.workers[t]? = some w → w.pending = [] ∧ w.phase = .idle) (k : Nat) :
    m.run (List.replicate k t) = m := by
  induction k with
  | zero => rfl
  | succ k ih =>
    rw [List.replicate_succ, run_cons, step_finished h]
    exact ih

/-- All schedules by which confined workers finish end in the same machine. -/
theorem run_confined {owner : Fin n → Nat} {m : Machine n S K V P R} (hm : m.Confined owner)
    {schedule schedule' : List Nat} (h : (m.run schedule).finished)
    (h' : (m.run schedule').finished) : m.run schedule = m.run schedule' := by
  -- A worker that takes more turns in one schedule has finished when its turns in the other end.
  have hmore : ∀ {a b : List Nat}, (m.run a).finished → ∀ t, a.count t ≤ b.count t →
      (m.run a).share owner t = (m.run b).share owner t := by
    intro a b ha t hle
    have hdone : ∀ w, (m.run (List.replicate (a.count t) t)).workers[t]? = some w →
        w.pending = [] ∧ w.phase = .idle := by
      intro w hw
      rw [← (share_eq_iff.1 (share_run hm t a)).1] at hw
      exact ha w (List.mem_of_getElem? hw)
    obtain ⟨k, hk⟩ := Nat.exists_eq_add_of_le hle
    rw [share_run hm t a, share_run hm t b, hk, List.replicate_add, run_append,
      run_replicate_finished hdone]
  refine eq_of_share (fun t => ?_ : ∀ t, (m.run schedule).share owner t = _)
  rcases Nat.le_total (schedule.count t) (schedule'.count t) with hle | hle
  · exact hmore h t hle
  · exact (hmore h' t hle).symm

end Machine

end ShardedMap
