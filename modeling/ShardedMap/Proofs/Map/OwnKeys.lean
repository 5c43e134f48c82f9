import ShardedMap.Proofs.Map.Threads
/-
  Threads on keys of their own. What a thread's operations share with those of the others, slots,
  totals and policies, does not show in answers: each shard stands for a reference map, in which an
  operation sees and changes nothing but what is stored under its tag (`cellwise_serveTask`). So
  threads with no tag in common are answered as if they ran one after another, and leave the same
  entries, however their operations or the phases of these are mixed (`own_keys`).
-/
namespace ShardedMap

variable {S : Type → Type} {H : Type} [DecidableEq H] [Storage S H] [LawfulStorage S H]

variable {n : Nat} {K V P R σ : Type}

/-! ## What maps tell of what they hold -/

namespace Map

/-- Two maps tell the same of what they hold. -/
structure SameContents (m m' : Map S K V P) : Prop where
  /-- A visit hands over the same pairs, in one order or another. -/
  pairs : m.pairs.Perm m'.pairs
  size : m.size = m'.size
  pairTotal : m.pairTotal = m'.pairTotal

theorem pairTotal_eq_size (m : Map S K V P) : m.pairTotal = m.size := by
  rw [pairTotal, occupancies, sumOver_map]
  rfl

theorem pairs_eq (m : Map S K V P) : m.pairs = (Shard.allEntries m.shards).map Entry.pair := by
  unfold pairs Shard.allEntries
  rw [List.map_flatMap]

end Map

variable [BEq K] [EquivBEq K]

/-! ## Serving tasks -/

/-- Serves one task on one map for each shard. -/
def serveTask (task : Task n K V R) (refs : Fin n → Reference K V) :
    Answer V R × (Fin n → Reference K V) :=
  let served := (refs task.shard).step task.hash task.op
  (served.1, Function.update refs task.shard served.2)

theorem serve_eq_runEach (log : List (Nat × Task n K V R)) (refs : Fin n → Reference K V) :
    serve log refs = runEach serveTask log refs := by
  induction log generalizing refs with
  | nil => rfl
  | cons x rest ih =>
    obtain ⟨t, task⟩ := x
    rw [serve, runEach]
    simp only [ih]
    rfl

/-- The tag that a task is about, in the map of its shard. -/
def Task.place (task : Task n K V R) : Fin n × Tag K := (task.shard, Tag.of task.hash task.op.key)

/-- A task sees and changes no more than what is stored under its tag. -/
theorem cellwise_serveTask :
    Cellwise (serveTask (n := n) (K := K) (V := V) (R := R)) Task.place
      (fun refs place => (refs place.1).lookup place.2) fun _ => True where
  keeps _ _ _ := trivial
  answer _ _ _ _ _ h := (Reference.step_congr h).1
  inside task refs refs' _ _ h := by
    simp only [serveTask, Task.place, Function.update_self]
    exact (Reference.step_congr h).2
  outside task refs place _ h := by
    obtain ⟨i, tag⟩ := place
    unfold serveTask
    by_cases hi : i = task.shard
    · subst hi
      simp only [Function.update_self]
      refine Reference.lookup_step_ne _ ?_
      rintro rfl
      exact h rfl
    · simp only [Function.update_of_ne hi]

/-- Workers with no tag in common are answered, and leave the maps, in the same way in whatever
order they are served. -/
theorem serve_interleave {log log' : List (Nat × Task n K V R)}
    (hsame : ∀ t, ofWorker t log = ofWorker t log')
    (hapart : ∀ x ∈ log, ∀ y ∈ log, x.1 ≠ y.1 → x.2.place ≠ y.2.place)
    (refs : Fin n → Reference K V) :
    (∀ t, ofWorker t (serve log refs).1 = ofWorker t (serve log' refs).1) ∧
      (serve log refs).2 = (serve log' refs).2 := by
  obtain ⟨hanswers, hplaces⟩ := cellwise_serveTask.interleave hsame hapart (s := refs) trivial
  rw [serve_eq_runEach, serve_eq_runEach]
  refine ⟨hanswers, funext fun i => ?_⟩
  apply Finmap.ext_lookup
  exact fun tag => hplaces (i, tag)

namespace Map

/-- No two programs use keys that count as one. -/
def KeysApart (m : Map S K V P) (programs : List (List (Operation K V R))) : Prop :=
  ∀ t u, t ≠ u → ∀ a ∈ programs.getD t [], ∀ b ∈ programs.getD u [],
    ¬ (m.hash a.key = m.hash b.key ∧ (a.key == b.key) = true)

/-- Tasks that mix the programs are served as an operation-by-operation mix of the programs is. -/
theorem serve_alike {m : Map S K V P} {programs : List (List (Operation K V R))}
    (hkeys : m.KeysApart programs) {log : List (Nat × Operation K V R)}
    (hlog : Interleaves log programs) {tasks : List (Nat × Task m.count K V R)}
    (htasks : ∀ t, ofWorker t tasks = (programs.getD t []).map m.task)
    (refs : Fin m.count → Reference K V) :
    let served := serve (log.map fun x => (x.1, m.task x.2)) refs
    (∀ t, ofWorker t (serve tasks refs).1 = ofWorker t served.1) ∧
      (serve tasks refs).2 = served.2 := by
  apply serve_interleave
  · intro t
    rw [ofWorker_map, hlog t, htasks t]
  · intro x hx y hy hne hplace
    have hmem : ∀ z ∈ tasks, ∃ op ∈ programs.getD z.1 [], m.task op = z.2 := by
      intro z hz
      have hz' : z.2 ∈ ofWorker z.1 tasks := mem_ofWorker.2 hz
      rw [htasks] at hz'
      exact List.mem_map.1 hz'
    obtain ⟨a, ha, hax⟩ := hmem x hx
    obtain ⟨b, hb, hby⟩ := hmem y hy
    rw [← hax, ← hby] at hplace
    exact hkeys x.1 y.1 hne a ha b hb (Tag.of_eq_iff.1 (congrArg Prod.snd hplace))

end Map

/-! ## Shards that stand for the same maps -/

section Stands

variable [ResizePolicy P]

namespace Shard

theorem Stands.perform {r : Reference K V} {s : Shard S K V P} (h : s.Stands r) (hash : UInt64)
    (op : Operation K V R) :
    (s.perform hash op).1 = .ok (r.step hash op).1 ∧
      (s.perform hash op).2.1.Stands (r.step hash op).2 := by
  obtain ⟨found, rest, hbefore, hhit, hmiss, hafter, hsound, hpolicy, hanswer⟩ :=
    h.sound.perform hash op
  obtain ⟨hstep, hrep⟩ := (h.entries.perm hbefore).step hhit hmiss
  refine ⟨?_, hsound, h.cautious.becomes hpolicy, hrep.perm hafter.symm⟩
  rw [hstep]
  exact hanswer h.cautious

theorem Sound.stands {s : Shard S K V P} (hs : s.Sound)
    (hp : ResizePolicy.Cautious S K V s.policy) :
    ∃ r, s.Stands r := by
  obtain ⟨r, hr⟩ := Reference.exists_represents hs.distinct
  exact ⟨r, hs, hp, hr⟩

end Shard

namespace Map

/-- Operations that are done at once, one after another, are served by the maps of their shards. -/
theorem runEach_served (m : Map S K V P) (log : List (Nat × Operation K V R))
    {shards : Vector (Shard S K V P) m.count} {refs : Fin m.count → Reference K V}
    (h : ∀ i, (shards.get i).Stands (refs i)) :
    let tasks := log.map fun x => (x.1, m.task x.2)
    (runEach m.performOn log shards).1 = (serve tasks refs).1.map (fun x => (x.1, .ok x.2)) ∧
      ∀ i, ((runEach m.performOn log shards).2.get i).Stands ((serve tasks refs).2 i) := by
  induction log generalizing shards refs with
  | nil => exact ⟨rfl, h⟩
  | cons x rest ih =>
    obtain ⟨t, op⟩ := x
    let served := (refs (m.shardOf op)).step (m.hash op.key) op
    obtain ⟨hanswer, hstands⟩ := (h (m.shardOf op)).perform (m.hash op.key) op
    have hnext : ∀ i, ((m.performOn op shards).2.get i).Stands
        (Function.update refs (m.shardOf op) served.2 i) := by
      apply Shard.forall_set
      · intro i hi
        rw [Function.update_of_ne hi.symm]
        exact h i
      · rw [Function.update_self]
        exact hstands
    obtain ⟨hanswers, hlast⟩ := ih hnext
    refine ⟨?_, hlast⟩
    have hfirst : (m.performOn op shards).1 = .ok served.1 := hanswer
    simp only [runEach, hfirst, hanswers]
    rfl

theorem sameContents_of_stands (m : Map S K V P) {shards shards' : Vector (Shard S K V P) m.count}
    {refs : Fin m.count → Reference K V} (h : ∀ i, (shards.get i).Stands (refs i))
    (h' : ∀ i, (shards'.get i).Stands (refs i)) :
    SameContents { m with shards } { m with shards := shards' } := by
  have hpairs : Map.pairs { m with shards } |>.Perm (Map.pairs { m with shards := shards' }) := by
    rw [pairs_eq, pairs_eq, Shard.allEntries_eq, Shard.allEntries_eq, List.map_flatMap,
      List.map_flatMap]
    apply List.Perm.flatMap_left
    intro i _
    exact Multiset.coe_eq_coe.1 ((h i).entries.pairs.symm.trans (h' i).entries.pairs)
  have hsize : Map.size { m with shards } = Map.size { m with shards := shards' } := by
    have hlength := hpairs.length_eq
    rw [pairs_eq, pairs_eq, List.length_map, List.length_map] at hlength
    unfold Map.size
    rw [Shard.sum_totals fun i => (h i).sound, Shard.sum_totals fun i => (h' i).sound]
    exact hlength
  exact ⟨hpairs, hsize, by rw [pairTotal_eq_size, pairTotal_eq_size, hsize]⟩

/-! ## Threads -/

/-- Operations of threads on keys of their own, done at once, come to the same in any order. -/
theorem performEach_alike {m : Map S K V P} {programs : List (List (Operation K V R))}
    (hkeys : m.KeysApart programs) {refs : Fin m.count → Reference K V}
    (hstands : ∀ i, (m.shards.get i).Stands (refs i)) {log log' : List (Nat × Operation K V R)}
    (hlog : Interleaves log programs) (hlog' : Interleaves log' programs) :
    (∀ t, ofWorker t (m.performEach log).1 = ofWorker t (m.performEach log').1) ∧
      (m.performEach log).2.SameContents (m.performEach log').2 := by
  have htasks : ∀ t, ofWorker t (log.map fun x => (x.1, m.task x.2)) =
      (programs.getD t []).map m.task := by
    intro t
    rw [ofWorker_map, hlog t]
  obtain ⟨hanswers, hrefs⟩ := serve_alike hkeys hlog' htasks refs
  obtain ⟨hserved, hlast⟩ := m.runEach_served log hstands
  obtain ⟨hserved', hlast'⟩ := m.runEach_served log' hstands
  rw [performEach_eq, performEach_eq]
  constructor
  · intro t
    simp only [hserved, hserved', ofWorker_map, hanswers t]
  · rw [hrefs] at hlast
    exact m.sameContents_of_stands hlast hlast'

/-- The phases of operations of threads on keys of their own, however mixed, come to the same as the
operations done at once. -/
theorem run_alike {m : Map S K V P} {programs : List (List (Operation K V R))}
    (hkeys : m.KeysApart programs) {refs : Fin m.count → Reference K V}
    (hstands : ∀ i, (m.shards.get i).Stands (refs i)) {log : List (Nat × Operation K V R)}
    (hlog : Interleaves log programs) {schedule : List Nat}
    (hfinished : ((m.machine programs).run schedule).finished) :
    (∀ t w, ((m.machine programs).run schedule).workers[t]? = some w →
      w.received = ofWorker t (m.performEach log).1) ∧
    SameContents { m with shards := ((m.machine programs).run schedule).shards }
      (m.performEach log).2 := by
  let start := m.machine programs
  have hstart : ∀ i, (start.shards.get i).Stands (refs i) := hstands
  obtain ⟨hlast, hlength, hworkers⟩ :=
    Machine.run_served hstart (Machine.measured_start _ _) schedule
  -- The accesses mix the tasks of the programs, as all workers have finished.
  have htasks : ∀ t, ofWorker t (start.accesses schedule) = (programs.getD t []).map m.task := by
    intro t
    cases hw : start.workers[t]? with
    | none =>
      have hle : start.workers.length ≤ t := List.getElem?_eq_none_iff.1 hw
      have hnone : ofWorker t (start.accesses schedule) = [] := by
        rw [List.eq_nil_iff_forall_not_mem]
        intro task htask
        exact Nat.not_lt.2 hle (Machine.lt_of_mem_accesses (mem_ofWorker.1 htask))
      rw [hnone, getD_of_length_le (m.length_machine programs ▸ hle)]
      rfl
    | some w =>
      obtain ⟨w', hw', hwent⟩ := hworkers t w hw
      have hdone := (hfinished w' (List.mem_of_getElem? hw')).1
      have hleft := hwent.left
      rw [hdone, machine_worker hw] at hleft
      rw [← flatten_batches]
      exact (hleft.trans (List.append_nil _)).symm
  obtain ⟨hanswers, hrefs⟩ := serve_alike hkeys hlog htasks refs
  obtain ⟨hserved, hlast'⟩ := m.runEach_served log hstands
  rw [performEach_eq]
  constructor
  · intro t w' hw'
    have hlt : t < start.workers.length := hlength ▸ (List.getElem?_eq_some_iff.1 hw').1
    obtain ⟨w'', hw'', hwent⟩ := hworkers t _ (List.getElem?_eq_getElem hlt)
    obtain rfl := Option.some.inj (hw'.symm.trans hw'')
    rw [hwent.received, machine_worker (List.getElem?_eq_getElem hlt), hserved, ofWorker_map,
      ← hanswers t]
    rfl
  · rw [hrefs] at hlast
    exact m.sameContents_of_stands hlast hlast'

/-- Threads run on a built map whose policies never plan a resize to no slot, after whatever
operations, and no two of their programs use keys with one hash that are equal. Then each thread is
answered as if the threads ran one after another, in any order, and the map ends with the same
pairs, size and totals as if they did, however their operations are mixed, and also if the phases of
operations are. -/
theorem own_keys {settings : Settings} {hash : K → UInt64} {make : PolicySettings → σ → P × σ}
    {state state' : σ} {built : Map S K V P}
    (h : build settings hash make state = (.ok built, state'))
    (hmake : ∀ st, ResizePolicy.Cautious S K V (make settings.policySettings st).1)
    (prior : List (Operation K V R)) (programs : List (List (Operation K V R))) :
    let m := (built.performAll prior).2
    m.KeysApart programs → ∀ order, order.Perm (List.range programs.length) →
      let inTurn := m.performEach (inOrder programs order)
      (∀ log, Interleaves log programs →
        (∀ t, ofWorker t (m.performEach log).1 = ofWorker t inTurn.1) ∧
        (m.performEach log).2.SameContents inTurn.2) ∧
      ∀ schedule, ((m.machine programs).run schedule).finished →
        (∀ t w, ((m.machine programs).run schedule).workers[t]? = some w →
          w.received = ofWorker t inTurn.1) ∧
        SameContents { m with shards := ((m.machine programs).run schedule).shards }
          inTurn.2 := by
  intro m hkeys order horder inTurn
  have hrefines := ((refines_build h hmake).performAll prior).2
  have hstand : ∀ i, ∃ r, (m.shards.get i).Stands r :=
    fun i => (hrefines.fits i).sound.stands (hrefines.cautious i)
  choose refs hstands using hstand
  have hinTurn := interleaves_inOrder horder
  constructor
  · intro log hlog
    exact performEach_alike hkeys hstands hlog hinTurn
  · intro schedule hfinished
    exact run_alike hkeys hstands hinTurn hfinished

/-- Two threads on one shard of a map with the stock policy that holds an entry already. Their steps
alternate, and the second thread is the first in turn. -/
theorem own_keys_alternating :
    let built : Map Arena Nat Nat LoadPolicy := made Settings.fault?_standard
      (fun k : Nat => k.toUInt64) (fun s () => (LoadPolicy.ofSettings s, ())) ()
    let prior : List (Operation Nat Nat Unit) := [.put 1 4]
    let programs : List (List (Operation Nat Nat Unit)) :=
      [[.put 1 5, .get 1], [.insertNew 2 6, .remove 2]]
    let schedule := [0, 1, 0, 1, 0, 1, 0, 1, 0, 1, 0, 1, 0, 1, 0, 1]
    let m := (built.performAll prior).2
    let final := (m.machine programs).run schedule
    let inTurn := m.performEach (inOrder programs [1, 0])
    m.KeysApart programs ∧ final.finished ∧
    (∀ (t : Nat) (w : Worker m.count Nat Nat Unit), final.workers[t]? = some w →
      w.received = ofWorker t inTurn.1) ∧
    SameContents { m with shards := final.shards } inTurn.2 := by
  intro built prior programs schedule m final inTurn
  have hbuild : build Settings.standard (fun k : Nat => k.toUInt64)
      (fun s () => (LoadPolicy.ofSettings s, ())) () = (.ok built, ()) :=
    build_of_no_fault Settings.fault?_standard _ _ _
  have hkey : ∀ t, ∀ op ∈ programs.getD t [], op.key = t + 1 := by
    rintro (_ | _ | t)
    · decide
    · decide
    · exact fun _ h => nomatch h
  have hkeys : m.KeysApart programs := by
    rintro t u htu a ha b hb ⟨-, hab⟩
    have heq : a.key = b.key := eq_of_beq hab
    rw [hkey t a ha, hkey u b hb] at heq
    exact htu (Nat.succ.inj heq)
  have hfinished : final.finished := by decide +kernel
  have hown := own_keys hbuild (fun _ => LoadPolicy.cautious _ _ _) prior programs hkeys [1, 0]
    (by decide)
  exact ⟨hkeys, hfinished, hown.2 schedule hfinished⟩

end Map

end Stands

end ShardedMap
