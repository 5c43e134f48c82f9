import ShardedMap.Proofs.Map.Threads
/-
  Shards of a map do not touch each other. A keyed operation changes the shard of its key only, and
  what it answers and does there hangs on that shard only (`cellwise_performOn`). So operations on
  different shards can change places, and threads that keep to shards of their own end in one and
  the same map, with the same answers, however their operations or the phases of these are mixed
  (`perform_independent`).
-/
namespace ShardedMap

variable {S : Type → Type} {H : Type} [DecidableEq H] [Storage S H] [LawfulStorage S H]

namespace Map

variable {K V P R T : Type} [BEq K] [ResizePolicy P]

theorem performOn_get_ne (m : Map S K V P) {op : Operation K V R} {i : Fin m.count}
    (h : i ≠ m.shardOf op) (shards : Vector (Shard S K V P) m.count) :
    (m.performOn op shards).2.get i = shards.get i :=
  Shard.get_set_ne shards h.symm _

/-- A keyed operation sees and changes one shard only. -/
theorem cellwise_performOn (m : Map S K V P) :
    Cellwise (m.performOn (R := R)) m.shardOf Vector.get fun _ => True where
  keeps _ _ _ := trivial
  answer op shards shards' _ _ h := by
    unfold performOn
    rw [h]
  inside op shards shards' _ _ h := by
    simp only [performOn, Shard.get_set_self, h]
  outside op shards i _ h := m.performOn_get_ne h shards

theorem performOn_comm (m : Map S K V P) {a : Operation K V R} {b : Operation K V T}
    (h : m.shardOf a ≠ m.shardOf b) (shards : Vector (Shard S K V P) m.count) :
    (m.performOn a (m.performOn b shards).2).1 = (m.performOn a shards).1 ∧
      (m.performOn a (m.performOn b shards).2).2 = (m.performOn b (m.performOn a shards).2).2 := by
  have ha : (m.performOn b shards).2.get (m.shardOf a) = shards.get (m.shardOf a) :=
    m.performOn_get_ne h shards
  have hb : (m.performOn a shards).2.get (m.shardOf b) = shards.get (m.shardOf b) :=
    m.performOn_get_ne h.symm shards
  constructor
  · exact m.cellwise_performOn.answer a trivial trivial ha
  · have hne : (m.shardOf a).val ≠ (m.shardOf b).val := fun he => h (Fin.ext he)
    unfold performOn at ha hb ⊢
    simp only at ha hb ⊢
    rw [ha, hb]
    exact Vector.set_comm _ _ hne.symm

/-- Threads that keep to shards of their own go through the same, in whatever order their operations
are done. -/
theorem performEach_independent (m : Map S K V P) {programs : List (List (Operation K V R))}
    {owner : Fin m.count → Nat} (hown : ∀ t, ∀ op ∈ programs.getD t [], owner (m.shardOf op) = t)
    {log log' : List (Nat × Operation K V R)} (hlog : Interleaves log programs)
    (hlog' : Interleaves log' programs) :
    (m.performEach log).2 = (m.performEach log').2 ∧
      ∀ t, ofWorker t (m.performEach log).1 = ofWorker t (m.performEach log').1 := by
  have hapart : ∀ x ∈ log, ∀ y ∈ log, x.1 ≠ y.1 → m.shardOf x.2 ≠ m.shardOf y.2 := by
    intro x hx y hy hne hshard
    have howner := congrArg owner hshard
    rw [hown x.1 x.2 (hlog.mem hx), hown y.1 y.2 (hlog.mem hy)] at howner
    exact hne howner
  obtain ⟨hanswers, hshards⟩ := m.cellwise_performOn.interleave
    (fun t => (hlog t).trans (hlog' t).symm) hapart (s := m.shards) trivial
  rw [performEach_eq, performEach_eq]
  have hall : (runEach m.performOn log m.shards).2 = (runEach m.performOn log' m.shards).2 :=
    Vector.ext fun i hi => hshards ⟨i, hi⟩
  exact ⟨by rw [hall], hanswers⟩

/-- The shards of a map are independent, whatever they hold and whatever their policies do. An
operation leaves every shard but that of its key as it is. Two operations on different shards can be
done in either order, with the same answers and the same map afterwards. Threads that keep to shards
of their own end in the same map with the same answers, however their operations are mixed, and also
if the phases of operations are. -/
theorem perform_independent (m : Map S K V P) :
    (∀ op : Operation K V R, ∃ shards, (m.perform op).2 = { m with shards } ∧
      ∀ i, i ≠ m.shardOf op → shards.get i = m.shards.get i) ∧
    (∀ (a : Operation K V R) (b : Operation K V T), m.shardOf a ≠ m.shardOf b →
      ((m.perform b).2.perform a).1 = (m.perform a).1 ∧
      ((m.perform a).2.perform b).1 = (m.perform b).1 ∧
      ((m.perform b).2.perform a).2 = ((m.perform a).2.perform b).2) ∧
    ∀ (programs : List (List (Operation K V R))) (owner : Fin m.count → Nat),
      (∀ t, ∀ op ∈ programs.getD t [], owner (m.shardOf op) = t) →
      ∀ log, Interleaves log programs →
        (∀ log', Interleaves log' programs →
          (m.performEach log').2 = (m.performEach log).2 ∧
          ∀ t, ofWorker t (m.performEach log').1 = ofWorker t (m.performEach log).1) ∧
        ∀ schedule, ((m.machine programs).run schedule).finished →
          { m with shards := ((m.machine programs).run schedule).shards } =
            (m.performEach log).2 ∧
          ∀ t w, ((m.machine programs).run schedule).workers[t]? = some w →
            w.received = ofWorker t (m.performEach log).1 := by
  refine ⟨?_, ?_, ?_⟩
  · intro op
    exact ⟨_, congrArg Prod.snd (m.perform_withShards op m.shards),
      fun i hi => m.performOn_get_ne hi m.shards⟩
  · intro a b hab
    obtain ⟨ha, hshards⟩ := m.performOn_comm hab m.shards
    obtain ⟨hb, -⟩ := m.performOn_comm hab.symm m.shards
    have hperform : ∀ {R : Type} (op : Operation K V R), m.perform op = _ :=
      fun op => m.perform_withShards op m.shards
    simp only [hperform, perform_withShards]
    exact ⟨ha, hb, by rw [hshards]⟩
  · intro programs owner hown log hlog
    refine ⟨fun log' hlog' => m.performEach_independent hown hlog' hlog, ?_⟩
    intro schedule hfinished
    obtain ⟨schedule', hfinished', hmap, hreceived⟩ := m.exists_schedule_machine hlog
    rw [Machine.run_confined (confined_machine hown) hfinished hfinished']
    exact ⟨hmap, hreceived⟩

/-- Two threads on a map with the stock policy, one on shard 1 and the other on shard 2, whose steps
alternate. -/
theorem perform_independent_alternating :
    let m : Map Arena Nat Nat LoadPolicy := made Settings.fault?_standard
      (fun k : Nat => k.toUInt64 <<< 32) (fun s () => (LoadPolicy.ofSettings s, ())) ()
    let programs : List (List (Operation Nat Nat Unit)) := [[.put 1 5, .remove 17], [.put 2 6]]
    let log := [(0, .put 1 5), (1, .put 2 6), (0, .remove 17)]
    let schedule := [0, 1, 0, 1, 0, 1, 0, 1, 0, 0, 0, 0]
    let final := (m.machine programs).run schedule
    m.shardOf (.put 1 5 : Operation Nat Nat Unit) ≠ m.shardOf (.put 2 6 : Operation Nat Nat Unit) ∧
    Interleaves log programs ∧ final.finished ∧
    ((m.perform (.put 2 6 : Operation Nat Nat Unit)).2.perform
        (.put 1 5 : Operation Nat Nat Unit)).2 =
      ((m.perform (.put 1 5 : Operation Nat Nat Unit)).2.perform
        (.put 2 6 : Operation Nat Nat Unit)).2 ∧
    { m with shards := final.shards } = (m.performEach log).2 ∧
    ∀ t w, final.workers[t]? = some w → w.received = ofWorker t (m.performEach log).1 := by
  intro m programs log schedule final
  have hapart : m.shardOf (.put 1 5 : Operation Nat Nat Unit) ≠
      m.shardOf (.put 2 6 : Operation Nat Nat Unit) := by decide
  have hlog : Interleaves log programs := by
    rintro (_ | _ | t) <;> rfl
  have hfinished : final.finished := by decide +kernel
  let owner : Fin m.count → Nat := fun i => i.val - 1
  have hown : ∀ t, ∀ op ∈ programs.getD t [], owner (m.shardOf op) = t := by
    rintro (_ | _ | t)
    · decide
    · decide
    · exact fun _ h => nomatch h
  obtain ⟨-, hcomm, hthreads⟩ := m.perform_independent (R := Unit) (T := Unit)
  obtain ⟨hmap, hreceived⟩ := (hthreads programs owner hown log hlog).2 schedule hfinished
  exact ⟨hapart, hlog, hfinished, (hcomm _ _ hapart).2.2, hmap, hreceived⟩

end Map

end ShardedMap
