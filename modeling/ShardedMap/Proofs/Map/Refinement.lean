import ShardedMap.Proofs.Map.Consistent
import ShardedMap.Proofs.Program.Frame
import ShardedMap.Proofs.Reference
/-
  A map is one finite map. It stands for a reference map if its shards fit and the entries of all of
  them are the associations of the reference map (`Refines`). Each keyed operation answers as the
  reference map does and keeps the two together (`Refines.perform`), whatever resizes it sets off,
  as long as no policy plans a resize to no slot. The size and a visit of all shards then tell the
  reference map's (`performAll_refines`).
-/
namespace ShardedMap

variable {S : Type → Type} {H : Type} [DecidableEq H] [Storage S H] [LawfulStorage S H]

namespace Map

variable {K V P M R σ : Type}

/-! ## Visits of a whole map -/

section Visit

variable {n : Nat}

/-- What `visited` does with an entry. -/
def noteDown (key : K) (value : V) (s : Session n S K V P (List (K × V))) :
    Except Panic Unit × Session n S K V P (List (K × V)) :=
  (.ok (), { s with memory := (key, value) :: s.memory })

theorem handEach_noteDown (es : List (Entry K V)) (s : Session n S K V P (List (K × V))) :
    Session.handEach noteDown es s =
      (.ok (), { s with memory := (es.map Entry.pair).reverse ++ s.memory }) := by
  induction es generalizing s with
  | nil => rfl
  | cons e rest ih =>
    show Session.handEach noteDown rest { s with memory := e.pair :: s.memory } = _
    rw [ih, List.map_cons, List.reverse_cons, List.append_assoc]
    rfl

theorem handAll_noteDown (shards : List (Fin n)) {s : Session n S K V P (List (K × V))}
    (hs : s.holds = []) :
    Program.handAll noteDown shards s =
      (.ok (), { s with memory :=
        (shards.flatMap fun i => (s.shards.get i).slots.entries.map Entry.pair).reverse ++
          s.memory }) := by
  induction shards generalizing s with
  | nil => rfl
  | cons i rest ih =>
    have hfree : s.holding i = false := by
      unfold Session.holding
      rw [hs]
      rfl
    have hone : s.guarded i none (Session.handEach noteDown (s.shards.get i).slots.entries) =
        (.ok (), { s with memory :=
          ((s.shards.get i).slots.entries.map Entry.pair).reverse ++ s.memory }) := by
      rw [Session.guarded_of_free hfree, handEach_noteDown]
      refine Prod.ext rfl ?_
      show { s with memory := _, holds := ((s.enter i none).leave i).holds } = _
      rw [Session.holds_leave_enter hfree none]
      rfl
    unfold Program.handAll
    rw [hone]
    have hrest := ih (s := { s with memory :=
      ((s.shards.get i).slots.entries.map Entry.pair).reverse ++ s.memory }) hs
    rw [List.flatMap_cons, List.reverse_append, List.append_assoc]
    exact hrest

end Visit

theorem visited_eq [BEq K] [ResizePolicy P] (m : Map S K V P) : m.visited = .ok m.pairs := by
  have hall := handAll_noteDown (List.finRange m.count)
    (s := m.session ([] : List (K × V))) rfl
  have hcall : (fun key value (s : Session m.count S K V P (List (K × V))) =>
      Program.run (fun (_ : Unit) key => m.locate key)
        (.load fun seen => .store ((key, value) :: seen) (.done ())) s) = noteDown := rfl
  unfold visited Map.run
  simp only [Program.run_visitAll]
  rw [hcall, hall]
  show Except.ok (_ ++ []).reverse = _
  rw [List.append_nil, List.reverse_reverse]
  unfold pairs
  rw [Shard.toList_eq_finRange, List.flatMap_map]
  rfl

theorem isEmpty_iff_size (m : Map S K V P) : m.isEmpty = true ↔ m.size = 0 := by
  unfold isEmpty size
  induction m.shards.toList with
  | nil => simp
  | cons s rest ih =>
    rw [List.all_cons, Bool.and_eq_true, ih, sumOver_cons, beq_iff_eq]
    omega

theorem perform_eq [BEq K] [ResizePolicy P] (m : Map S K V P) (op : Operation K V R) :
    let i := route m.count_pos (m.hash op.key)
    let done := (m.shards.get i).perform (m.hash op.key) op
    m.perform op = (done.1, { m with shards := m.shards.set i done.2.1 i.isLt }) := by
  intro i done
  have hfree : (m.session ()).holding i = false := rfl
  have hone := Session.perform_eq hfree (m.hash op.key) op
  unfold perform
  show (((m.session ()).perform i (m.hash op.key) op).1,
    { m with shards := ((m.session ()).perform i (m.hash op.key) op).2.shards }) = _
  rw [hone]
  rfl

/-! ## Standing for a reference map -/

variable [BEq K] [EquivBEq K] [ResizePolicy P]

/-- `m` stands for the reference map `r`, and no resize of `m` panics. -/
structure Refines (m : Map S K V P) (r : Reference K V) : Prop where
  fits : ∀ i, (m.shards.get i).Fits m.hash m.count_pos i
  cautious : ∀ i, ResizePolicy.Cautious S K V (m.shards.get i).policy
  entries : r.Represents (Shard.allEntries m.shards)

theorem refines_build {settings : Settings} {hash : K → UInt64}
    {make : PolicySettings → σ → P × σ} {state state' : σ} {m : Map S K V P}
    (h : build settings hash make state = (.ok m, state'))
    (hmake : ∀ st, ResizePolicy.Cautious S K V (make settings.policySettings st).1) :
    m.Refines ∅ := by
  obtain ⟨-, hpos, hfresh⟩ := build_ok h
  refine ⟨fits_build h, ?_, ?_⟩
  · intro i
    obtain ⟨st, hi⟩ := hfresh i
    rw [hi]
    exact Shard.cautious_fresh (hmake st) hpos
  · have hnone : Shard.allEntries m.shards = [] := by
      rw [List.eq_nil_iff_forall_not_mem]
      intro e he
      obtain ⟨i, hei⟩ := Shard.mem_allEntries.1 he
      obtain ⟨st, hi⟩ := hfresh i
      rw [hi, Shard.entries_fresh] at hei
      cases hei
    rw [hnone]
    exact Reference.represents_nil

theorem Refines.miss {m : Map S K V P} {r : Reference K V} (h : m.Refines r) {hash : UInt64}
    {key : K} {e : Entry K V}
    (he : e ∈ Shard.entriesBut m.shards (route m.count_pos hash)) :
    e.isFor hash key = false := by
  obtain ⟨j, hj, hej⟩ := Shard.mem_entriesBut he
  apply Entry.isFor_eq_false_of_hash_ne
  rintro rfl
  exact hj ((h.fits j).routed e hej).2.symm

/-- A keyed operation answers as the reference map does, and the two go on standing for each
other. -/
theorem Refines.perform {m : Map S K V P} {r : Reference K V} (h : m.Refines r)
    (op : Operation K V R) :
    (m.perform op).1 = .ok (r.step (m.hash op.key) op).1 ∧
      (m.perform op).2.Refines (r.step (m.hash op.key) op).2 := by
  let i := route m.count_pos (m.hash op.key)
  obtain ⟨found, rest, hbefore, hhit, hmiss, hafter, -, hpolicy, hanswer⟩ :=
    (h.fits i).sound.perform (m.hash op.key) op
  -- Of all entries of the map, those not for the key are `rest` and what the other shards hold.
  let others := rest ++ Shard.entriesBut m.shards i
  have hall : (Shard.allEntries m.shards).Perm (found.toList ++ others) := by
    rw [← List.append_assoc]
    exact (Shard.allEntries_perm m.shards i).trans (hbefore.append_right _)
  have hothers : ∀ e ∈ others, e.isFor (m.hash op.key) op.key = false := by
    intro e he
    rcases List.mem_append.1 he with he | he
    · exact hmiss e he
    · exact h.miss he
  obtain ⟨hstep, hrep⟩ := (h.entries.perm hall).step hhit hothers
  rw [perform_eq]
  refine ⟨?_, ?_, ?_, ?_⟩
  · rw [hstep]
    exact hanswer (h.cautious i)
  · exact Shard.forall_set (fun j _ => h.fits j) ((h.fits i).perform rfl)
  · exact Shard.forall_set (C := fun _ s => ResizePolicy.Cautious S K V s.policy)
      (fun j _ => h.cautious j) ((h.cautious i).becomes hpolicy)
  · refine hrep.perm ?_
    rw [← List.append_assoc]
    exact ((Shard.allEntries_set_perm m.shards i _).trans (hafter.append_right _)).symm

theorem Refines.performAll {m : Map S K V P} {r : Reference K V} (h : m.Refines r)
    (ops : List (Operation K V R)) :
    (m.performAll ops).1 = (Reference.stepAll m.hash ops r).1.map .ok ∧
      (m.performAll ops).2.Refines (Reference.stepAll m.hash ops r).2 := by
  induction ops generalizing m r with
  | nil => exact ⟨rfl, h⟩
  | cons op rest ih =>
    obtain ⟨hanswer, hnext⟩ := h.perform op
    obtain ⟨hanswers, hlast⟩ := ih hnext
    refine ⟨?_, hlast⟩
    show (m.perform op).1 :: ((m.perform op).2.performAll rest).1 = _
    rw [hanswer, hanswers]
    rfl

/-! ## What a map tells of itself -/

theorem Refines.size {m : Map S K V P} {r : Reference K V} (h : m.Refines r) :
    m.size = r.entries.card := by
  unfold Map.size
  rw [Shard.sum_totals fun i => (h.fits i).sound, h.entries.card]

theorem Refines.isEmpty {m : Map S K V P} {r : Reference K V} (h : m.Refines r) :
    m.isEmpty = true ↔ r = ∅ := by
  rw [isEmpty_iff_size, h.size, Multiset.card_eq_zero]
  exact Finmap.ext_iff' (t := ∅)

theorem Refines.visited {m : Map S K V P} {r : Reference K V} (h : m.Refines r) :
    ∃ pairs, m.visited = .ok pairs ∧
      (pairs : Multiset (K × V)) = r.entries.map fun stored => stored.2 := by
  refine ⟨m.pairs, visited_eq m, ?_⟩
  rw [h.entries.pairs]
  unfold pairs Shard.allEntries
  rw [List.map_flatMap]

/-- A built map whose policies never plan a resize to no slot is one finite map from pairs of a hash
and a key up to equality: whatever operations are done on it, each answers as that map does, and
afterwards the size is that of the map and a visit meets its pairs, each once and with the key
object stored. -/
theorem performAll_refines {settings : Settings} {hash : K → UInt64}
    {make : PolicySettings → σ → P × σ} {state state' : σ} {m : Map S K V P}
    (h : build settings hash make state = (.ok m, state'))
    (hmake : ∀ st, ResizePolicy.Cautious S K V (make settings.policySettings st).1)
    (ops : List (Operation K V R)) :
    let done := m.performAll ops
    let expected := Reference.stepAll hash ops (∅ : Reference K V)
    done.1 = expected.1.map .ok ∧
      done.2.size = expected.2.entries.card ∧
      (done.2.isEmpty = true ↔ expected.2 = ∅) ∧
      ∃ pairs, done.2.visited = .ok pairs ∧
        (pairs : Multiset (K × V)) = expected.2.entries.map fun stored => stored.2 := by
  obtain ⟨hhash, -⟩ := build_ok h
  obtain ⟨hanswers, hlast⟩ := (refines_build h hmake).performAll ops
  rw [hhash] at hanswers hlast
  exact ⟨hanswers, hlast.size, hlast.isEmpty, hlast.visited⟩

/-- A map with the stock policy, on which a key is replaced and another one removed. -/
theorem performAll_refines_stock :
    let m : Map Arena Nat Nat LoadPolicy := made Settings.fault?_standard
      (fun k : Nat => k.toUInt64) (fun s () => (LoadPolicy.ofSettings s, ())) ()
    let ops : List (Operation Nat Nat Unit) := [.put 1 5, .put 17 6, .put 1 7, .remove 17]
    let done := m.performAll ops
    let expected := Reference.stepAll (fun k : Nat => k.toUInt64) ops (∅ : Reference Nat Nat)
    done.1 = expected.1.map .ok ∧
      done.2.size = expected.2.entries.card ∧
      (done.2.isEmpty = true ↔ expected.2 = ∅) ∧
      ∃ pairs, done.2.visited = .ok pairs ∧
        (pairs : Multiset (Nat × Nat)) = expected.2.entries.map fun stored => stored.2 := by
  intro m ops
  have hbuild : build Settings.standard (fun k : Nat => k.toUInt64)
      (fun s () => (LoadPolicy.ofSettings s, ())) () = (.ok m, ()) :=
    build_of_no_fault Settings.fault?_standard _ _ _
  exact performAll_refines hbuild (fun _ => LoadPolicy.cautious _ _ _) ops

end Map

end ShardedMap
