import ShardedMap.Proofs.Program.Moments
import ShardedMap.Proofs.Shard.Access
/-
  Entering a shard again. An operation panics for it if and only if its shard is one of those that
  the thread has entered and not yet left (`Session.Admits`), no other panic looks the same, and a
  visit or a count of many shards stops at the first of them that is entered. However an operation
  ends, what is entered is what was entered when it began; so all this holds at every moment of a
  program, whatever its closures do (`Moment.entered_exactly`).
-/
namespace ShardedMap

variable {S : Type → Type} {H : Type} [DecidableEq H] [Storage S H] [LawfulStorage S H]

variable {A : Type} {n : Nat} {K V P M R α : Type}

/-! ## Other panics -/

theorem Slots.carryOut_ne_reentry (slots : Slots S K V) (targets : List Nat) :
    (slots.carryOut targets).1 ≠ .error .reentry := by
  induction targets generalizing slots with
  | nil => nofun
  | cons target rest ih =>
    unfold carryOut
    rcases Nat.eq_zero_or_pos target with hzero | hpos
    · rw [hzero, resize_zero]
      exact fun h => Panic.noConfusion (Except.error.inj h)
    · rw [resize_of_pos slots hpos]
      exact ih _

namespace Shard

theorem access_ne_reentry [BEq K] (s : Shard S K V P) (hash : UInt64) (op : Operation K V R) :
    (s.access hash op).1 ≠ .error .reentry := by
  rcases Nat.eq_zero_or_pos s.slots.size with hzero | hpos
  · rw [access_of_no_slots hzero]
    nofun
  · rw [access_of_pos hpos]
    split
    · rename_i p htotal
      rw [(totalAfter_error htotal).2]
      nofun
    · nofun

variable [ResizePolicy P]

theorem settle_ne_reentry (s : Shard S K V P) (r : Report) :
    (s.settle r).1 ≠ .error .reentry := by
  unfold settle
  simp only
  split
  · nofun
  · split
    · rw [resize_fst]
      exact Slots.carryOut_ne_reentry _ _
    · nofun

theorem perform_ne_reentry [BEq K] (s : Shard S K V P) (hash : UInt64) (op : Operation K V R) :
    (s.perform hash op).1 ≠ .error .reentry := by
  have haccess := s.access_ne_reentry hash op
  unfold perform
  rcases hx : s.access hash op with ⟨p | ⟨answer, _ | r⟩, s₁⟩
  · rw [hx] at haccess
    intro h
    obtain rfl : p = .reentry := Except.error.inj h
    exact haccess rfl
  · nofun
  · have hsettle := s₁.settle_ne_reentry r
    show (s₁.settle r).1.map _ ≠ _
    generalize (s₁.settle r).1 = settled at hsettle ⊢
    rcases settled with p | _
    · intro h
      obtain rfl : p = .reentry := Except.error.inj h
      exact hsettle rfl
    · nofun

end Shard

/-! ## What is entered -/

namespace Session

/-- How `act`, to be run inside shard `i`, fares. If the thread has entered the shard, there is
nothing but a panic. If not, `act` is run with the shard entered first, which its end, answer or
panic, leaves again, and only this one. -/
structure Admits (s : Session n S K V P M) (i : Fin n) (lent : Option (UInt64 × K))
    (act : Session n S K V P M → Except Panic α × Session n S K V P M) : Prop where
  refused : i ∈ s.entered → s.guarded i lent act = (.error .reentry, s)
  admitted : i ∉ s.entered →
    s.guarded i lent act = ((act (s.enter i lent)).1, (act (s.enter i lent)).2.leave i) ∧
      (s.enter i lent).entered = i :: s.entered ∧
      (act (s.enter i lent)).2.entered = i :: s.entered ∧
      ((act (s.enter i lent)).2.leave i).entered = s.entered
  restored : (s.guarded i lent act).2.entered = s.entered

theorem entered_of_holds {s t : Session n S K V P M} (h : t.holds = s.holds) :
    t.entered = s.entered :=
  congrArg (List.map Hold.shard) h

theorem admits {act : Session n S K V P M → Except Panic α × Session n S K V P M}
    (hact : ∀ t, (act t).2.holds = t.holds) (s : Session n S K V P M) (i : Fin n)
    (lent : Option (UInt64 × K)) : s.Admits i lent act := by
  have hrestored := entered_of_holds (holds_guarded hact i lent s)
  refine ⟨fun h => guarded_of_holding (mem_entered.1 h) lent act, ?_, hrestored⟩
  intro h
  have hguarded := guarded_of_free (not_mem_entered.1 h) lent act
  refine ⟨hguarded, rfl, entered_of_holds (hact _), ?_⟩
  rw [hguarded] at hrestored
  exact hrestored

variable [ResizePolicy P]

theorem consult_ne_reentry {s : Session n S K V P M} {i : Fin n} (h : i ∉ s.entered) (r : Report) :
    (s.consult i r).1 ≠ .error .reentry := by
  rw [consult_eq (not_mem_entered.1 h)]
  exact Shard.settle_ne_reentry _ r

variable [BEq K]

theorem perform_reentry_iff (s : Session n S K V P M) (i : Fin n) (hash : UInt64)
    (op : Operation K V R) : (s.perform i hash op).1 = .error .reentry ↔ i ∈ s.entered := by
  constructor
  · intro h
    by_contra hfree
    rw [perform_eq (not_mem_entered.1 hfree)] at h
    exact Shard.perform_ne_reentry _ hash op h
  · intro h
    rw [perform_of_holding (mem_entered.1 h)]

end Session

namespace Program

open Session

/-! ## Many shards -/

/-- Visits shards one after another as if all of them were free. -/
def handFree (visit : K → V → Session n S K V P M → Except Panic R × Session n S K V P M) :
    List (Fin n) → Session n S K V P M → Except Panic Unit × Session n S K V P M
  | [], s => (.ok (), s)
  | i :: rest, s =>
    match handEach visit (s.shards.get i).slots.entries (s.enter i none) with
    | (.error p, t) => (.error p, t.leave i)
    | (.ok (), t) => handFree visit rest (t.leave i)

variable {visit : K → V → Session n S K V P M → Except Panic R × Session n S K V P M}

theorem holds_handFree (hvisit : ∀ key value t, (visit key value t).2.holds = t.holds)
    {shards : List (Fin n)} {s : Session n S K V P M} (h : ∀ i ∈ shards, i ∉ s.entered) :
    handAll visit shards s = handFree visit shards s ∧
      (handFree visit shards s).2.holds = s.holds := by
  induction shards generalizing s with
  | nil => exact ⟨rfl, rfl⟩
  | cons i rest ih =>
    obtain ⟨hi, hrest⟩ := List.forall_mem_cons.1 h
    have hguarded := guarded_of_free (not_mem_entered.1 hi) none
      (handEach visit (s.shards.get i).slots.entries)
    have hholds := holds_guarded (holds_handEach hvisit (s.shards.get i).slots.entries) i none s
    rw [hguarded] at hholds
    rw [handAll, handFree, hguarded]
    rcases hh : handEach visit (s.shards.get i).slots.entries (s.enter i none) with ⟨p | _, t⟩
    · rw [hh] at hholds
      exact ⟨rfl, hholds⟩
    · rw [hh] at hholds
      have hentered := entered_of_holds hholds
      obtain ⟨hsame, hlast⟩ := ih (s := t.leave i) (hentered ▸ hrest)
      exact ⟨hsame, hlast.trans hholds⟩

theorem handAll_append (l r : List (Fin n)) (s : Session n S K V P M) :
    handAll visit (l ++ r) s =
      match handAll visit l s with
      | (.error p, t) => (.error p, t)
      | (.ok (), t) => handAll visit r t := by
  induction l generalizing s with
  | nil => rfl
  | cons i rest ih =>
    rw [List.cons_append, handAll, handAll]
    rcases s.guarded i none _ with ⟨p | _, t⟩
    · rfl
    · exact ih t

/-- A visit of many shards goes on as if all were free up to the first that is entered, and panics
there. -/
theorem handAll_entered (hvisit : ∀ key value t, (visit key value t).2.holds = t.holds)
    {l : List (Fin n)} {i : Fin n} {s : Session n S K V P M} (hl : ∀ j ∈ l, j ∉ s.entered)
    (hi : i ∈ s.entered) (r : List (Fin n)) :
    handAll visit (l ++ i :: r) s =
      match handFree visit l s with
      | (.error p, t) => (.error p, t)
      | (.ok (), t) => (.error .reentry, t) := by
  obtain ⟨hfree, hholds⟩ := holds_handFree hvisit hl
  rw [handAll_append, hfree]
  rcases hh : handFree visit l s with ⟨p | _, t⟩
  · rfl
  · rw [hh] at hholds
    have hentered : i ∈ t.entered := entered_of_holds hholds ▸ hi
    simp only
    rw [handAll, guarded_of_holding (mem_entered.1 hentered)]

variable [BEq K] [ResizePolicy P] (locate : A → K → Fin n × UInt64)

section VisitAll

variable (body : K → V → Program A n K V P M R) (next : Except Panic Unit → Program A n K V P M R)

theorem run_visitAll_free {shards : List (Fin n)} {s : Session n S K V P M}
    (h : ∀ i ∈ shards, i ∉ s.entered) :
    let handed := handFree (fun key value t => (body key value).run locate t) shards s
    (visitAll body next shards).run locate s = (next handed.1).run locate handed.2 := by
  have hfree := (holds_handFree (fun key value => holds_run locate (body key value)) h).1
  intro handed
  rw [run_visitAll, hfree]

theorem run_visitAll_entered {l : List (Fin n)} {i : Fin n} {s : Session n S K V P M}
    (hl : ∀ j ∈ l, j ∉ s.entered) (hi : i ∈ s.entered) (r : List (Fin n)) :
    (visitAll body next (l ++ i :: r)).run locate s =
      match handFree (fun key value t => (body key value).run locate t) l s with
      | (.error p, t) => (next (.error p)).run locate t
      | (.ok (), t) => (next (.error .reentry)).run locate t := by
  rw [run_visitAll, handAll_entered (fun key value => holds_run locate (body key value)) hl hi r]
  rcases handFree _ l s with ⟨p | _, t⟩ <;> rfl

end VisitAll

section OccupancyAll

variable (next : Except Panic (List Occupancy) → Program A n K V P M R)
variable {shards : List (Fin n)} {s : Session n S K V P M}

theorem run_occupancy (i : Fin n) (next : Except Panic Occupancy → Program A n K V P M R)
    (s : Session n S K V P M) :
    let done := s.guarded i none fun s => (.ok (s.shards.get i).occupancy, s)
    (occupancy i next).run locate s = (next done.1).run locate done.2 := rfl

theorem run_occupancy_free {i : Fin n} (h : i ∉ s.entered)
    (next : Except Panic Occupancy → Program A n K V P M R) :
    (occupancy i next).run locate s = (next (.ok (s.shards.get i).occupancy)).run locate s := by
  rw [run_occupancy, guarded_ask (not_mem_entered.1 h)]

theorem run_occupancyAll_free (h : ∀ i ∈ shards, i ∉ s.entered) :
    (occupancyAll next shards).run locate s =
      (next (.ok (shards.map fun i => (s.shards.get i).occupancy))).run locate s := by
  induction shards generalizing next with
  | nil => rfl
  | cons i rest ih =>
    obtain ⟨hi, hrest⟩ := List.forall_mem_cons.1 h
    rw [occupancyAll, run_occupancy_free locate hi]
    exact ih _ hrest

theorem run_occupancyAll_entered (h : ∃ i ∈ shards, i ∈ s.entered) :
    (occupancyAll next shards).run locate s = (next (.error .reentry)).run locate s := by
  induction shards generalizing next with
  | nil =>
    obtain ⟨i, hi, -⟩ := h
    cases hi
  | cons i rest ih =>
    rw [occupancyAll]
    by_cases hi : i ∈ s.entered
    · rw [run_occupancy, guarded_of_holding (mem_entered.1 hi)]
    · have hrest : ∃ j ∈ rest, j ∈ s.entered := by
        obtain ⟨j, hj, hentered⟩ := h
        rcases List.mem_cons.1 hj with rfl | hj
        · exact absurd hentered hi
        · exact ⟨j, hj, hentered⟩
      rw [run_occupancy_free locate hi]
      exact ih _ hrest

end OccupancyAll

theorem run_slotCount (i : Fin n) (next : Except Panic Nat → Program A n K V P M R)
    (s : Session n S K V P M) :
    let done := s.guarded i none fun s => (.ok (s.shards.get i).slots.size, s)
    (slotCount i next).run locate s = (next done.1).run locate done.2 := rfl

theorem run_slotCount_free {i : Fin n} {s : Session n S K V P M} (h : i ∉ s.entered)
    (next : Except Panic Nat → Program A n K V P M R) :
    (slotCount i next).run locate s = (next (.ok (s.shards.get i).slots.size)).run locate s := by
  rw [run_slotCount, guarded_ask (not_mem_entered.1 h) fun shard => shard.slots.size]

theorem run_slotCountAll_free (next : Except Panic (List Nat) → Program A n K V P M R)
    {shards : List (Fin n)} {s : Session n S K V P M} (h : ∀ i ∈ shards, i ∉ s.entered) :
    (slotCountAll next shards).run locate s =
      (next (.ok (shards.map fun i => (s.shards.get i).slots.size))).run locate s := by
  induction shards generalizing next with
  | nil => rfl
  | cons i rest ih =>
    obtain ⟨hi, hrest⟩ := List.forall_mem_cons.1 h
    rw [slotCountAll, run_slotCount_free locate hi]
    exact ih _ hrest

theorem run_totalAll_eq (next : List Nat → Program A n K V P M R) (shards : List (Fin n))
    (s : Session n S K V P M) :
    (totalAll next shards).run locate s =
      (next (shards.map fun i => (s.shards.get i).total)).run locate s := by
  induction shards generalizing next with
  | nil => rfl
  | cons i rest ih => exact ih fun ts => next ((s.shards.get i).total :: ts)

end Program

/-! ## Every operation at every moment -/

/-- In the session `s`, every operation goes by what is entered: it panics for its shard if and only
if that is entered, and leaves what it enters. -/
structure Session.Watchful [BEq K] [ResizePolicy P] (locate : A → K → Fin n × UInt64) (R : Type)
    (s : Session n S K V P M) : Prop where
  /-- Whatever is run inside a shard and leaves what it enters. -/
  guarded : ∀ {α : Type} i lent (act : Session n S K V P M → Except Panic α × Session n S K V P M),
    (∀ t, (act t).2.holds = t.holds) → s.Admits i lent act
  access : ∀ i hash (op : Operation K V R), s.Admits i none (·.onShard i (·.access hash op))
  /-- A keyed operation, which enters its shard again if it resizes it. -/
  keyed : ∀ i hash (op : Operation K V R),
    ((s.perform i hash op).1 = .error .reentry ↔ i ∈ s.entered) ∧
      (s.perform i hash op).2.entered = s.entered
  /-- When a keyed operation takes what it left to the policy, its shard is free again. -/
  escalation : ∀ i hash (op : Operation K V R), i ∉ s.entered →
    let t := (s.guarded i none (·.onShard i (·.access hash op))).2
    i ∉ t.entered ∧ ∀ r, (t.consult i r).1 ≠ .error .reentry ∧ (t.consult i r).2.entered = s.entered
  closure : ∀ i hash key lent (body : V → Program A n K V P M R),
    s.Admits i lent (Program.onValue i hash key fun value t => (body value).run locate t)
  visit : ∀ i (body : K → V → Program A n K V P M R),
    let call := fun key value t => (body key value).run locate t
    s.Admits i none fun t => visitSlots i call (t.shards.get i).slots.size 0 t
  occupancy : ∀ i, s.Admits i none fun t => (.ok (t.shards.get i).occupancy, t)
  slotCount : ∀ i, s.Admits i none fun t => (.ok (t.shards.get i).slots.size, t)
  visitAll : ∀ (body : K → V → Program A n K V P M R) next (shards : List (Fin n)),
    let call := fun key value t => (body key value).run locate t
    (∀ i ∈ shards, i ∉ s.entered) →
      let handed := Program.handFree call shards s
      (Program.visitAll body next shards).run locate s = (next handed.1).run locate handed.2
  /-- A visit of shards of which `i` is the first that is entered panics there, unless it did so
  before. -/
  visitUpTo : ∀ (body : K → V → Program A n K V P M R) next (l : List (Fin n)) i r,
    let call := fun key value t => (body key value).run locate t
    (∀ j ∈ l, j ∉ s.entered) → i ∈ s.entered →
      (Program.visitAll body next (l ++ i :: r)).run locate s =
        match Program.handFree call l s with
        | (.error p, t) => (next (.error p)).run locate t
        | (.ok (), t) => (next (.error .reentry)).run locate t
  occupancyAll : ∀ (next : _ → Program A n K V P M R) (shards : List (Fin n)),
    ((∀ i ∈ shards, i ∉ s.entered) → (Program.occupancyAll next shards).run locate s =
      (next (.ok (shards.map fun i => (s.shards.get i).occupancy))).run locate s) ∧
    ((∃ i ∈ shards, i ∈ s.entered) → (Program.occupancyAll next shards).run locate s =
      (next (.error .reentry)).run locate s)
  /-- The text of a map takes the totals of its shards, for which it enters none, and then their
  occupancy. -/
  display : ∀ (next : _ → _ → Program A n K V P M R) (shards : List (Fin n)),
    let shown := Program.totalAll (fun totals => Program.occupancyAll (next totals) shards) shards
    let totals := shards.map fun i => (s.shards.get i).total
    ((∀ i ∈ shards, i ∉ s.entered) → shown.run locate s =
      (next totals (.ok (shards.map fun i => (s.shards.get i).occupancy))).run locate s) ∧
    ((∃ i ∈ shards, i ∈ s.entered) →
      shown.run locate s = (next totals (.error .reentry)).run locate s)
  program : ∀ program : Program A n K V P M R, (program.run locate s).2.entered = s.entered

namespace Session

variable [BEq K] [ResizePolicy P] (locate : A → K → Fin n × UInt64)

theorem watchful (s : Session n S K V P M) : s.Watchful locate R where
  guarded i lent act hact := admits hact s i lent
  access i hash op := admits (fun _ => rfl) s i none
  keyed i hash op := ⟨s.perform_reentry_iff i hash op, entered_of_holds (s.holds_perform i hash op)⟩
  escalation i hash op h := by
    intro t
    have hentered : t.entered = s.entered := (admits (fun _ => rfl) s i none).restored
    have hfree : i ∉ t.entered := hentered ▸ h
    refine ⟨hfree, fun r => ⟨consult_ne_reentry hfree r, ?_⟩⟩
    rw [consult_eq (not_mem_entered.1 hfree)]
    exact hentered
  closure i hash key lent body :=
    admits (Program.holds_onValue fun value => Program.holds_run locate (body value)) s i lent
  visit i body :=
    admits (fun t => holds_visitSlots (fun key value => Program.holds_run locate (body key value))
      i _ 0 t) s i none
  occupancy i := admits (fun _ => rfl) s i none
  slotCount i := admits (fun _ => rfl) s i none
  visitAll body next shards := Program.run_visitAll_free locate body next
  visitUpTo body next l i r hl hi := Program.run_visitAll_entered locate body next hl hi r
  occupancyAll next shards :=
    ⟨Program.run_occupancyAll_free locate next, Program.run_occupancyAll_entered locate next⟩
  display next shards := by
    intro shown totals
    have hshown : shown.run locate s =
        (Program.occupancyAll (next totals) shards).run locate s :=
      Program.run_totalAll_eq locate _ shards s
    rw [hshown]
    exact ⟨Program.run_occupancyAll_free locate _, Program.run_occupancyAll_entered locate _⟩
  program program := entered_of_holds (Program.holds_run locate program s)

end Session

/-- A thread that has entered nothing runs a program. At every moment of it, inside closures of any
depth and after any panic, what the thread has entered and not left are the shards of the operations
around, none of them twice; and every operation panics for its shard if and only if it is one of
these, and leaves what it enters, however it ends. Every session that the program passes is that of
such a moment. -/
theorem Moment.entered_exactly [BEq K] [ResizePolicy P] (locate : A → K → Fin n × UInt64)
    (program : Program A n K V P M R) (shards : Vector (Shard S K V P) n) (memory : M) :
    let first : Moment A n S K V P M R := ⟨[], program, .start shards memory⟩
    (∀ m, Reaches locate first m →
      m.session.entered = m.around ∧ m.around.Nodup ∧ m.session.Watchful locate R) ∧
    ∀ t ∈ program.passed locate (.start shards memory), Meets locate first t := by
  intro first
  constructor
  · intro m hm
    have hbalanced := entered_of_reached hm
    exact ⟨hbalanced.entered, hbalanced.nodup, m.session.watchful locate⟩
  · exact reached_of_passed program [] (.start shards memory)

/-- A closure of a visit inside a closure of a `read` asks for both shards around it. -/
theorem Moment.entered_exactly_nested :
    let shard : Nat → Nat → Shard Arena Nat Nat LoadPolicy := fun key value =>
      ⟨#[(∅ : Chain Arena Nat Nat).push ⟨key, .ofNat key, value⟩], 1,
        LoadPolicy.ofSettings LoadPolicy.defaultSettings⟩
    let locate : Unit → Nat → Fin 2 × UInt64 := fun _ key => (Fin.ofNat 2 key, .ofNat key)
    let inner : Program Unit 2 Nat Nat LoadPolicy Unit Unit :=
      .perform () (.put 0 7) fun _ => .panic (.raised "enough")
    let program : Program Unit 2 Nat Nat LoadPolicy Unit Unit :=
      .read () 0 (fun _ => .visit 1 (fun _ _ => inner) fun _ => .done ()) fun _ => .done ()
    let first : Moment Unit 2 Arena Nat Nat LoadPolicy Unit Unit :=
      ⟨[], program, .start #v[shard 0 5, shard 1 6] ()⟩
    ∃ m, Reaches locate first m ∧ m.around = [1, 0] ∧ m.session.entered = [1, 0] ∧
      (m.session.perform 0 0 (.put 0 7 : Operation Nat Nat Unit)).1 = .error .reentry ∧
      (m.program.run locate m.session).2.entered = [1, 0] := by
  intro shard locate inner program first
  let s : Session 2 Arena Nat Nat LoadPolicy Unit := .start #v[shard 0 5, shard 1 6] ()
  let m : Moment Unit 2 Arena Nat Nat LoadPolicy Unit Unit :=
    ⟨[1, 0], inner, (s.enter 0 none).enter 1 none⟩
  have hread : Leads locate first
      ⟨[0], .visit 1 (fun _ _ => inner) fun _ => .done (), s.enter 0 none⟩ :=
    .intoRead rfl rfl rfl
  have hvisit :
      Leads locate ⟨[0], .visit 1 (fun _ _ => inner) fun _ => .done (), s.enter 0 none⟩ m :=
    .intoVisit (l := []) (e := ⟨1, .ofNat 1, 6⟩) (r := []) rfl rfl rfl
  have hreaches : Reaches locate first m := .tail (.single hread) hvisit
  obtain ⟨hentered, -, hwatchful⟩ :=
    (entered_exactly locate program #v[shard 0 5, shard 1 6] ()).1 m hreaches
  refine ⟨m, hreaches, rfl, hentered, ?_, (hwatchful.program inner).trans hentered⟩
  exact (hwatchful.keyed 0 0 _).1.2 (hentered ▸ by decide)

end ShardedMap
