import ShardedMap.Program
import ShardedMap.Proofs.Session.Perform
import ShardedMap.Proofs.Session.Visit
/-
  The sessions that a program passes through: before and after each of its operations, inside its
  closures and out of them, and at its end (`passed`). A program leaves every shard that it enters
  (`holds_run`). What no operation breaks (`Kept`) holds of all sessions that a program passes, to
  any depth of closures and whatever panics (`Kept.passed`), so invariants are shown one operation
  at a time.
-/
namespace ShardedMap

variable {S : Type → Type} {H : Type} [DecidableEq H] [Storage S H] [LawfulStorage S H]

variable {A : Type} {n : Nat} {K V P M R α : Type}

/-! ## Leaving what was entered -/

namespace Session

theorem holds_guarded {act : Session n S K V P M → Except Panic α × Session n S K V P M}
    (hact : ∀ s, (act s).2.holds = s.holds) (i : Fin n) (lent : Option (UInt64 × K))
    (s : Session n S K V P M) : (s.guarded i lent act).2.holds = s.holds := by
  cases h : s.holding i with
  | true => rw [guarded_of_holding h]
  | false =>
    rw [guarded_of_free h]
    show (act (s.enter i lent)).2.holds.filter _ = s.holds
    rw [hact]
    exact holds_leave_enter h lent

theorem holds_assign [BEq K] (s : Session n S K V P M) (i : Fin n) (value : V) :
    (s.assign i value).holds = s.holds := by
  unfold assign
  split <;> rfl

theorem holds_perform [BEq K] [ResizePolicy P] (s : Session n S K V P M) (i : Fin n)
    (hash : UInt64) (op : Operation K V R) : (s.perform i hash op).2.holds = s.holds := by
  cases h : s.holding i with
  | true => rw [perform_of_holding h]
  | false =>
    rw [perform_eq h]
    rfl

end Session

namespace Program

open Session

theorem onValue_keeps [BEq K] {I : Session n S K V P M → Prop} {i : Fin n} {hash : UInt64} {key : K}
    {body : V → Session n S K V P M → Except Panic R × Session n S K V P M}
    (hbody : ∀ value s, I s → I (body value s).2) {s : Session n S K V P M} (hs : I s) :
    I (onValue i hash key body s).2 := by
  unfold onValue
  split
  · exact hs
  · exact hs
  · rename_i value _
    have hone := hbody value s hs
    split <;> rename_i h <;> rw [h] at hone <;> exact hone

/-- The sessions that closures pass to which entries are handed one after another. -/
def passedEach (visit : K → V → Session n S K V P M → Except Panic R × Session n S K V P M)
    (trace : K → V → Session n S K V P M → List (Session n S K V P M)) :
    List (Entry K V) → Session n S K V P M → List (Session n S K V P M)
  | [], _ => []
  | e :: rest, s =>
    trace e.key e.value s ++
      match visit e.key e.value s with
      | (.error _, _) => []
      | (.ok _, s) => passedEach visit trace rest s

theorem holds_onValue [BEq K] {i : Fin n} {hash : UInt64} {key : K}
    {body : V → Session n S K V P M → Except Panic R × Session n S K V P M}
    (hbody : ∀ value s, (body value s).2.holds = s.holds) (s : Session n S K V P M) :
    (onValue i hash key body s).2.holds = s.holds := by
  apply onValue_keeps (I := fun t => t.holds = s.holds)
  · intro value t ht
    exact (hbody value t).trans ht
  · rfl

/-- What each call keeps holds of all sessions that the calls pass. -/
theorem passedEach_keeps {I : Session n S K V P M → Prop}
    {visit : K → V → Session n S K V P M → Except Panic R × Session n S K V P M}
    {trace : K → V → Session n S K V P M → List (Session n S K V P M)}
    (hone : ∀ key value t, I t → (∀ u ∈ trace key value t, I u) ∧ I (visit key value t).2)
    (es : List (Entry K V)) {s : Session n S K V P M} (hs : I s) :
    ∀ u ∈ passedEach visit trace es s, I u := by
  induction es generalizing s with
  | nil => exact fun u hu => by cases hu
  | cons e rest ih =>
    obtain ⟨htrace, hvisit⟩ := hone e.key e.value s hs
    intro u hu
    unfold passedEach at hu
    rcases List.mem_append.1 hu with hu | hu
    · exact htrace u hu
    · rcases h : visit e.key e.value s with ⟨result, t⟩
      rw [h] at hu hvisit
      cases result with
      | error p => cases hu
      | ok r => exact ih hvisit u hu

variable [BEq K] [ResizePolicy P]

theorem holds_run (locate : A → K → Fin n × UInt64) (program : Program A n K V P M R)
    (s : Session n S K V P M) : (program.run locate s).2.holds = s.holds := by
  induction program generalizing s with
  | done | panic => rfl
  | load next ih => exact ih s.memory s
  | store memory next ih => exact ih { s with memory }
  | assign i value next ih =>
    show (next.run locate (s.assign i value)).2.holds = s.holds
    rw [ih, holds_assign]
  | perform address op next ih =>
    unfold run
    simp only
    rw [ih, holds_perform]
  | read address key body next ihb ihn =>
    unfold run
    simp only
    rw [ihn, holds_guarded]
    exact holds_onValue ihb
  | update address key body next ihb ihn =>
    unfold run
    simp only
    rw [ihn, holds_guarded]
    exact holds_onValue (ihb _)
  | visit i body next ihb ihn =>
    unfold run visitShard
    simp only
    rw [ihn, holds_guarded]
    intro s
    exact holds_visitSlots ihb i _ 0 s
  | occupancy i next ih =>
    unfold run
    simp only
    rw [ih, holds_guarded fun _ => rfl]
  | slotCount i next ih =>
    unfold run
    simp only
    rw [ih, holds_guarded fun _ => rfl]
  | total i next ih => exact ih _ s
  | policy i next ih => exact ih _ s

/-! ## The sessions passed -/

/-- The sessions that a closure passes on the value for `key` under `hash`, inside shard `i`. -/
def passedOnValue (i : Fin n) (hash : UInt64) (key : K) (lent : Option (UInt64 × K))
    (trace : V → Session n S K V P M → List (Session n S K V P M)) (s : Session n S K V P M) :
    List (Session n S K V P M) :=
  if s.holding i then []
  else
    match (s.shards.get i).value? hash key with
    | .ok (some value) => trace value (s.enter i lent)
    | _ => []

/-- The sessions that closures pass to which the entries of shard `i` are handed, inside it. -/
def passedOnEntries (i : Fin n)
    (visit : K → V → Session n S K V P M → Except Panic R × Session n S K V P M)
    (trace : K → V → Session n S K V P M → List (Session n S K V P M)) (s : Session n S K V P M) :
    List (Session n S K V P M) :=
  if s.holding i then []
  else passedEach visit trace (s.shards.get i).slots.entries (s.enter i none)

/-- The sessions that a program passes, from the one it begins in to the one it ends in. -/
def passed (locate : A → K → Fin n × UInt64) :
    Program A n K V P M R → Session n S K V P M → List (Session n S K V P M)
  | done _, s => [s]
  | panic _, s => [s]
  | load next, s => (next s.memory).passed locate s
  | store memory next, s => s :: next.passed locate { s with memory }
  | assign i value next, s => s :: next.passed locate (s.assign i value)
  | perform address op next, s =>
    let (i, hash) := locate address op.key
    let (answer, after) := s.perform i hash op
    s :: (next answer).passed locate after
  | read address key body next, s =>
    let (i, hash) := locate address key
    let (answer, after) := s.guarded i none
      (onValue i hash key fun value s => (body value).run locate s)
    s :: passedOnValue i hash key none (fun value s => (body value).passed locate s) s ++
      (next answer).passed locate after
  | update address key body next, s =>
    let (i, hash) := locate address key
    let (answer, after) := s.guarded i (some (hash, key))
      (onValue i hash key fun value s => (body i value).run locate s)
    s :: passedOnValue i hash key (some (hash, key))
        (fun value s => (body i value).passed locate s) s ++
      (next answer).passed locate after
  | visit i body next, s =>
    let (answer, after) := s.visitShard i fun key value s => (body key value).run locate s
    s :: passedOnEntries i (fun key value s => (body key value).run locate s)
        (fun key value s => (body key value).passed locate s) s ++
      (next answer).passed locate after
  | occupancy i next, s =>
    let (answer, after) := s.guarded i none fun s => (.ok (s.shards.get i).occupancy, s)
    s :: (next answer).passed locate after
  | slotCount i next, s =>
    let (answer, after) := s.guarded i none fun s => (.ok (s.shards.get i).slots.size, s)
    s :: (next answer).passed locate after
  | total i next, s => (next (s.shards.get i).total).passed locate s
  | policy i next, s => (next (s.shards.get i).policy).passed locate s

theorem run_mem_passed (locate : A → K → Fin n × UInt64) (program : Program A n K V P M R)
    (s : Session n S K V P M) : (program.run locate s).2 ∈ program.passed locate s := by
  induction program generalizing s with
  | done | panic => exact List.mem_singleton_self s
  | load next ih => exact ih s.memory s
  | store memory next ih => exact List.mem_cons_of_mem _ (ih { s with memory })
  | assign i value next ih => exact List.mem_cons_of_mem _ (ih (s.assign i value))
  | perform address op next ih => exact List.mem_cons_of_mem _ (ih _ _)
  | read address key body next _ ihn => exact List.mem_append_right _ (ihn _ _)
  | update address key body next _ ihn => exact List.mem_append_right _ (ihn _ _)
  | visit i body next _ ihn => exact List.mem_append_right _ (ihn _ _)
  | occupancy i next ih => exact List.mem_cons_of_mem _ (ih _ _)
  | slotCount i next ih => exact List.mem_cons_of_mem _ (ih _ _)
  | total i next ih => exact ih _ s
  | policy i next ih => exact ih _ s

/-! ## What operations keep -/

/-- No operation of a thread breaks `I`. -/
structure Kept (locate : A → K → Fin n × UInt64) (R : Type) (I : Session n S K V P M → Prop) :
    Prop where
  store : ∀ {s} (memory : M), I s → I { s with memory }
  assign : ∀ {s} (i : Fin n) (value : V), I s → I (s.assign i value)
  enter : ∀ {s} {i : Fin n} (lent : Option (UInt64 × K)), I s → s.holding i = false →
    I (s.enter i lent)
  /-- Leaving may use what held when the shard was entered. -/
  leave : ∀ {s t} {i : Fin n} {lent : Option (UInt64 × K)}, I s → s.holding i = false → I t →
    t.holds = (s.enter i lent).holds → I (t.leave i)
  perform : ∀ {s} (address : A) (op : Operation K V R), I s →
    s.holding (locate address op.key).1 = false →
    I (s.perform (locate address op.key).1 (locate address op.key).2 op).2

namespace Kept

variable {locate : A → K → Fin n × UInt64} {I : Session n S K V P M → Prop}

theorem guarded (hI : Kept locate R I) {i : Fin n} {lent : Option (UInt64 × K)}
    {act : Session n S K V P M → Except Panic α × Session n S K V P M}
    (hact : ∀ t, I t → I (act t).2) (hholds : ∀ t, (act t).2.holds = t.holds)
    {s : Session n S K V P M} (hs : I s) : I (s.guarded i lent act).2 := by
  cases h : s.holding i with
  | true =>
    rw [guarded_of_holding h]
    exact hs
  | false =>
    rw [guarded_of_free h]
    exact hI.leave hs h (hact _ (hI.enter lent hs h)) (hholds _)

/-- A keyed operation keeps `I` also where it panics because its shard is entered already. -/
theorem performed (hI : Kept locate R I) (address : A) (op : Operation K V R)
    {s : Session n S K V P M} (hs : I s) :
    I (s.perform (locate address op.key).1 (locate address op.key).2 op).2 := by
  cases h : s.holding (locate address op.key).1 with
  | true =>
    rw [perform_of_holding h]
    exact hs
  | false => exact hI.perform address op hs h

theorem passedOnValue (hI : Kept locate R I) {i : Fin n} {hash : UInt64} {key : K}
    {lent : Option (UInt64 × K)} {trace : V → Session n S K V P M → List (Session n S K V P M)}
    (htrace : ∀ value t, I t → ∀ u ∈ trace value t, I u) {s : Session n S K V P M} (hs : I s) :
    ∀ u ∈ passedOnValue i hash key lent trace s, I u := by
  intro u hu
  unfold Program.passedOnValue at hu
  cases h : s.holding i with
  | true =>
    rw [h] at hu
    cases hu
  | false =>
    rw [h] at hu
    simp only [Bool.false_eq_true, if_false] at hu
    split at hu
    · exact htrace _ _ (hI.enter lent hs h) u hu
    · cases hu

theorem passedOnEntries (hI : Kept locate R I) {i : Fin n}
    {visit : K → V → Session n S K V P M → Except Panic R × Session n S K V P M}
    {trace : K → V → Session n S K V P M → List (Session n S K V P M)}
    (hone : ∀ key value t, I t → (∀ u ∈ trace key value t, I u) ∧ I (visit key value t).2)
    {s : Session n S K V P M} (hs : I s) : ∀ u ∈ passedOnEntries i visit trace s, I u := by
  intro u hu
  unfold Program.passedOnEntries at hu
  cases h : s.holding i with
  | true =>
    rw [h] at hu
    cases hu
  | false =>
    rw [h] at hu
    exact passedEach_keeps hone _ (hI.enter none hs h) u hu

/-- A closure that passes sessions with `I` only, called on a value inside a shard. -/
theorem onValue (hI : Kept locate R I) {body : V → Program A n K V P M R}
    (hbody : ∀ value t, I t → ∀ u ∈ (body value).passed locate t, I u) (i : Fin n)
    (hash : UInt64) (key : K) (lent : Option (UInt64 × K)) {s : Session n S K V P M} (hs : I s) :
    (∀ u ∈ Program.passedOnValue i hash key lent
        (fun value t => (body value).passed locate t) s, I u) ∧
      I (s.guarded i lent
        (Program.onValue i hash key fun value t => (body value).run locate t)).2 := by
  have hrun : ∀ value t, I t → I ((body value).run locate t).2 := by
    intro value t ht
    exact hbody value t ht _ (run_mem_passed locate (body value) t)
  have hholds := fun value (t : Session n S K V P M) => holds_run locate (body value) t
  refine ⟨hI.passedOnValue hbody hs, ?_⟩
  exact hI.guarded (fun t ht => onValue_keeps hrun ht) (holds_onValue hholds) hs

theorem onEntries (hI : Kept locate R I) {body : K → V → Program A n K V P M R}
    (hbody : ∀ key value t, I t → ∀ u ∈ (body key value).passed locate t, I u) (i : Fin n)
    {s : Session n S K V P M} (hs : I s) :
    (∀ u ∈ Program.passedOnEntries i (fun key value t => (body key value).run locate t)
        (fun key value t => (body key value).passed locate t) s, I u) ∧
      I (s.visitShard i fun key value t => (body key value).run locate t).2 := by
  have hrun : ∀ key value t, I t → I ((body key value).run locate t).2 := by
    intro key value t ht
    exact hbody key value t ht _ (run_mem_passed locate (body key value) t)
  have hholds := fun key value (t : Session n S K V P M) =>
    holds_run locate (body key value) t
  constructor
  · apply hI.passedOnEntries
    · intro key value t ht
      exact ⟨hbody key value t ht, hrun key value t ht⟩
    · exact hs
  · apply hI.guarded
    · intro t ht
      exact visitSlots_keeps hrun i _ 0 ht
    · intro t
      exact holds_visitSlots hholds i _ 0 t
    · exact hs

/-- What no operation breaks holds of every session that a program passes, and where it ends. -/
theorem passed (hI : Kept locate R I) (program : Program A n K V P M R)
    {s : Session n S K V P M} (hs : I s) :
    (∀ t ∈ program.passed locate s, I t) ∧ I (program.run locate s).2 := by
  -- It is enough to look at the sessions passed: the program ends in one of them.
  suffices h : ∀ t ∈ program.passed locate s, I t from
    ⟨h, h _ (run_mem_passed locate program s)⟩
  induction program generalizing s with
  | done | panic => exact fun t ht => List.mem_singleton.1 ht ▸ hs
  | load next ih => exact ih s.memory hs
  | store memory next ih => exact List.forall_mem_cons.2 ⟨hs, ih (hI.store memory hs)⟩
  | assign i value next ih => exact List.forall_mem_cons.2 ⟨hs, ih (hI.assign i value hs)⟩
  | perform address op next ih =>
    exact List.forall_mem_cons.2 ⟨hs, ih _ (hI.performed address op hs)⟩
  | read address key body next ihb ihn =>
    obtain ⟨hinside, hafter⟩ := hI.onValue (fun value _ ht => ihb value ht) _ _ key none hs
    exact List.forall_mem_cons.2 ⟨hs, List.forall_mem_append.2 ⟨hinside, ihn _ hafter⟩⟩
  | update address key body next ihb ihn =>
    obtain ⟨hinside, hafter⟩ :=
      hI.onValue (fun value _ ht => ihb _ value ht) _ _ key (some (_, key)) hs
    exact List.forall_mem_cons.2 ⟨hs, List.forall_mem_append.2 ⟨hinside, ihn _ hafter⟩⟩
  | visit i body next ihb ihn =>
    obtain ⟨hinside, hafter⟩ := hI.onEntries (fun key value _ ht => ihb key value ht) i hs
    exact List.forall_mem_cons.2 ⟨hs, List.forall_mem_append.2 ⟨hinside, ihn _ hafter⟩⟩
  | occupancy i next ih =>
    have hafter : I (s.guarded i none fun s => (.ok (s.shards.get i).occupancy, s)).2 :=
      hI.guarded (fun _ ht => ht) (fun _ => rfl) hs
    exact List.forall_mem_cons.2 ⟨hs, ih _ hafter⟩
  | slotCount i next ih =>
    have hafter : I (s.guarded i none fun s => (.ok (s.shards.get i).slots.size, s)).2 :=
      hI.guarded (fun _ ht => ht) (fun _ => rfl) hs
    exact List.forall_mem_cons.2 ⟨hs, ih _ hafter⟩
  | total i next ih => exact ih _ hs
  | policy i next ih => exact ih _ hs

/-- What values assigned and keyed operations keep of a single shard, no operation breaks. -/
theorem of_shards {C : Fin n → Shard S K V P → Prop}
    (hassign : ∀ i shard hash key value, C i shard → C i (shard.assign hash key value))
    (hperform : ∀ address (op : Operation K V R) shard,
      let (i, hash) := locate address op.key
      C i shard → C i (shard.perform hash op).2.1) :
    Kept locate R fun s : Session n S K V P M => ∀ i, C i (s.shards.get i) where
  store _ hs := hs
  enter _ hs _ := hs
  leave _ _ ht _ := ht
  assign {s} i value hs := by
    unfold Session.assign
    split
    · exact hs
    · rw [onShard_replace]
      exact Shard.forall_set (fun j _ => hs j) (hassign i _ _ _ value (hs i))
  perform {s} address op hs hfree := by
    rw [perform_eq hfree]
    exact Shard.forall_set (fun j _ => hs j) (hperform address op _ (hs _))

end Kept

theorem kept_sound [EquivBEq K] (locate : A → K → Fin n × UInt64) :
    Kept locate R fun s : Session n S K V P M => ∀ i, (s.shards.get i).Sound := by
  apply Kept.of_shards
  · intro i shard hash key value hs
    exact hs.assign hash key value
  · intro address op shard hs
    obtain ⟨_, _, -, -, -, -, hsound, -⟩ := hs.perform (locate address op.key).2 op
    exact hsound

/-- Shards that were fresh in the beginning are sound in every session that a program passes. -/
theorem sound_passed [EquivBEq K] {shards : Vector (Shard S K V P) n}
    (hfresh : ∀ i, ∃ slotCount policy, 0 < slotCount ∧
      shards.get i = Shard.fresh slotCount policy)
    (memory : M) (locate : A → K → Fin n × UInt64) (program : Program A n K V P M R) :
    ∀ s ∈ program.passed locate (.start shards memory), ∀ i, (s.shards.get i).Sound := by
  apply ((kept_sound locate).passed program ?_).1
  intro i
  obtain ⟨slotCount, policy, hpos, hi⟩ := hfresh i
  show (shards.get i).Sound
  rw [hi]
  exact Shard.Sound.fresh hpos policy

omit [BEq K] in
theorem fresh_single {slotCount : Nat} (hpos : 0 < slotCount) (policy : P) :
    ∀ i, ∃ count policy', 0 < count ∧
      (#v[Shard.fresh slotCount policy] : Vector (Shard S K V P) 1).get i =
        Shard.fresh count policy' := by
  intro i
  obtain rfl : i = 0 := Subsingleton.elim i 0
  exact ⟨slotCount, policy, hpos, rfl⟩

end Program

end ShardedMap
