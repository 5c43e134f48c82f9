import Mathlib.Logic.Relation
import ShardedMap.Proofs.Program.Frame
/-
  The moments of a program, at any depth of closures. At a moment, a program is left to do, inside
  the shards of the operations around it. One moment leads to another past an operation or into a
  closure of it (`Leads`), and every session that a program passes is that of some moment
  (`reached_of_passed`). What a thread has entered at a moment is what the operations around it have
  entered, and nothing twice (`entered_of_reached`).
-/
namespace ShardedMap

variable {S : Type → Type} {H : Type} [DecidableEq H] [Storage S H] [LawfulStorage S H]

variable {A : Type} {n : Nat} {K V P M R : Type}

namespace Session

/-- The shards that the thread has entered and not yet left, the last one first. -/
def entered (s : Session n S K V P M) : List (Fin n) := s.holds.map Hold.shard

theorem mem_entered {s : Session n S K V P M} {i : Fin n} :
    i ∈ s.entered ↔ s.holding i = true := by
  simp [entered, holding]

theorem not_mem_entered {s : Session n S K V P M} {i : Fin n} :
    i ∉ s.entered ↔ s.holding i = false := by
  rw [mem_entered, Bool.not_eq_true]

end Session

/-- A program left to do, in a session, inside the shards of the operations around it, the innermost
first. -/
structure Moment (A : Type) (n : Nat) (S : Type → Type) {H : Type} [DecidableEq H] [Storage S H]
    [LawfulStorage S H] (K V P M R : Type) where
  around : List (Fin n)
  program : Program A n K V P M R
  session : Session n S K V P M

namespace Moment

open Session Program

section Leads

variable [BEq K] [ResizePolicy P]

/-- One moment comes right after another: past the first operation of what is left to do, or where a
closure of that operation begins. -/
inductive Leads (locate : A → K → Fin n × UInt64) :
    Moment A n S K V P M R → Moment A n S K V P M R → Prop where
  | pastLoad {around next s} : Leads locate ⟨around, .load next, s⟩ ⟨around, next s.memory, s⟩
  | pastStore {around memory next s} :
    Leads locate ⟨around, .store memory next, s⟩ ⟨around, next, { s with memory }⟩
  | pastAssign {around i value next s} :
    Leads locate ⟨around, .assign i value next, s⟩ ⟨around, next, s.assign i value⟩
  | pastPerform {around address op next s answer t}
      (ended : s.perform (locate address op.key).1 (locate address op.key).2 op = (answer, t)) :
    Leads locate ⟨around, .perform address op next, s⟩ ⟨around, next answer, t⟩
  | intoRead {around address key body next s i hash value}
      (located : locate address key = (i, hash)) (free : s.holding i = false)
      (found : (s.shards.get i).value? hash key = .ok (some value)) :
    Leads locate ⟨around, .read address key body next, s⟩
      ⟨i :: around, body value, s.enter i none⟩
  | pastRead {around address key body next s i hash answer t}
      (located : locate address key = (i, hash))
      (ended : s.guarded i none
        (onValue i hash key fun value s => (body value).run locate s) = (answer, t)) :
    Leads locate ⟨around, .read address key body next, s⟩ ⟨around, next answer, t⟩
  | intoUpdate {around address key body next s i hash value}
      (located : locate address key = (i, hash)) (free : s.holding i = false)
      (found : (s.shards.get i).value? hash key = .ok (some value)) :
    Leads locate ⟨around, .update address key body next, s⟩
      ⟨i :: around, body i value, s.enter i (some (hash, key))⟩
  | pastUpdate {around address key body next s i hash answer t}
      (located : locate address key = (i, hash))
      (ended : s.guarded i (some (hash, key))
        (onValue i hash key fun value s => (body i value).run locate s) = (answer, t)) :
    Leads locate ⟨around, .update address key body next, s⟩ ⟨around, next answer, t⟩
  /-- The closure of a visit begins anew on each entry, after those before it were handed over. -/
  | intoVisit {around i body next s l e r t} (free : s.holding i = false)
      (entries : (s.shards.get i).slots.entries = l ++ e :: r)
      (handed : handEach (fun key value s => (body key value).run locate s) l (s.enter i none) =
        (.ok (), t)) :
    Leads locate ⟨around, .visit i body next, s⟩ ⟨i :: around, body e.key e.value, t⟩
  | pastVisit {around i body next s answer t}
      (ended : s.visitShard i (fun key value s => (body key value).run locate s) = (answer, t)) :
    Leads locate ⟨around, .visit i body next, s⟩ ⟨around, next answer, t⟩
  | pastOccupancy {around i next s answer t}
      (ended : s.guarded i none (fun s => (.ok (s.shards.get i).occupancy, s)) = (answer, t)) :
    Leads locate ⟨around, .occupancy i next, s⟩ ⟨around, next answer, t⟩
  | pastSlotCount {around i next s answer t}
      (ended : s.guarded i none (fun s => (.ok (s.shards.get i).slots.size, s)) = (answer, t)) :
    Leads locate ⟨around, .slotCount i next, s⟩ ⟨around, next answer, t⟩
  | pastTotal {around i next s} :
    Leads locate ⟨around, .total i next, s⟩ ⟨around, next (s.shards.get i).total, s⟩
  | pastPolicy {around i next s} :
    Leads locate ⟨around, .policy i next, s⟩ ⟨around, next (s.shards.get i).policy, s⟩

/-- Some way leads from one moment to another. -/
abbrev Reaches (locate : A → K → Fin n × UInt64) :
    Moment A n S K V P M R → Moment A n S K V P M R → Prop :=
  Relation.ReflTransGen (Leads locate)

end Leads

/-! ## Nothing is left out -/

section Passed

variable [BEq K] [ResizePolicy P] {locate : A → K → Fin n × UInt64}

/-- Some moment from `m` on has the session `t`. -/
def Meets (locate : A → K → Fin n × UInt64) (m : Moment A n S K V P M R)
    (t : Session n S K V P M) : Prop :=
  ∃ m', Reaches locate m m' ∧ m'.session = t

theorem Meets.self (m : Moment A n S K V P M R) : Meets locate m m.session := ⟨m, .refl, rfl⟩

theorem Meets.head {m m' : Moment A n S K V P M R} {t : Session n S K V P M}
    (h : Leads locate m m') (h' : Meets locate m' t) : Meets locate m t := by
  obtain ⟨last, hreaches, hlast⟩ := h'
  exact ⟨last, hreaches.head h, hlast⟩

/-- A session that a closure passes on a value is met on the way into the closure. -/
theorem meets_onValue {m : Moment A n S K V P M R} {around : List (Fin n)} {i : Fin n}
    {hash : UInt64} {key : K} {lent : Option (UInt64 × K)} {body : V → Program A n K V P M R}
    {s t : Session n S K V P M}
    (hinto : ∀ value, s.holding i = false → (s.shards.get i).value? hash key = .ok (some value) →
      Leads locate m ⟨i :: around, body value, s.enter i lent⟩)
    (hbody : ∀ value around (u : Session n S K V P M), ∀ t ∈ (body value).passed locate u,
      Meets locate ⟨around, body value, u⟩ t)
    (ht : t ∈ passedOnValue i hash key lent (fun value s => (body value).passed locate s) s) :
    Meets locate m t := by
  unfold passedOnValue at ht
  cases hfree : s.holding i with
  | true =>
    rw [hfree] at ht
    cases ht
  | false =>
    rw [hfree] at ht
    simp only [Bool.false_eq_true, if_false] at ht
    split at ht
    · rename_i value hvalue
      exact (hbody value _ _ t ht).head (hinto value hfree hvalue)
    · cases ht

/-- A session that closures pass which are handed entries is met on the way into one of them. -/
theorem meets_each {m : Moment A n S K V P M R} {around : List (Fin n)}
    {body : K → V → Program A n K V P M R} {first t : Session n S K V P M}
    {es : List (Entry K V)}
    (hinto : ∀ l e r u, es = l ++ e :: r →
      handEach (fun key value s => (body key value).run locate s) l first = (.ok (), u) →
        Leads locate m ⟨around, body e.key e.value, u⟩)
    (hbody : ∀ key value around (u : Session n S K V P M),
      ∀ t ∈ (body key value).passed locate u, Meets locate ⟨around, body key value, u⟩ t)
    (ht : t ∈ passedEach (fun key value s => (body key value).run locate s)
      (fun key value s => (body key value).passed locate s) es first) :
    Meets locate m t := by
  induction es generalizing first with
  | nil => cases ht
  | cons e rest ih =>
    unfold passedEach at ht
    rcases List.mem_append.1 ht with ht | ht
    · exact (hbody e.key e.value _ _ t ht).head (hinto [] e rest first rfl rfl)
    · rcases hv : (body e.key e.value).run locate first with ⟨result, u⟩
      rw [hv] at ht
      cases result with
      | error p => cases ht
      | ok value =>
        refine ih ?_ ht
        intro l e' r v hes hhanded
        refine hinto (e :: l) e' r v (congrArg (e :: ·) hes) ?_
        rw [handEach, hv]
        exact hhanded

theorem reached_of_passed (program : Program A n K V P M R) (around : List (Fin n))
    (s : Session n S K V P M) :
    ∀ t ∈ program.passed locate s, Meets locate ⟨around, program, s⟩ t := by
  induction program generalizing around s with
  | done | panic =>
    intro t ht
    rw [List.mem_singleton.1 ht]
    exact .self _
  | load next ih => exact fun t ht => (ih _ _ _ t ht).head .pastLoad
  | store memory next ih =>
    exact List.forall_mem_cons.2 ⟨.self _, fun t ht => (ih _ _ t ht).head .pastStore⟩
  | assign i value next ih =>
    exact List.forall_mem_cons.2 ⟨.self _, fun t ht => (ih _ _ t ht).head .pastAssign⟩
  | perform address op next ih =>
    exact List.forall_mem_cons.2 ⟨.self _, fun t ht => (ih _ _ _ t ht).head (.pastPerform rfl)⟩
  | read address key body next ihb ihn =>
    refine List.forall_mem_cons.2 ⟨.self _, List.forall_mem_append.2 ⟨?_, ?_⟩⟩
    · intro t ht
      exact meets_onValue (fun _ hfree hvalue => .intoRead rfl hfree hvalue) ihb ht
    · exact fun t ht => (ihn _ _ _ t ht).head (.pastRead rfl rfl)
  | update address key body next ihb ihn =>
    refine List.forall_mem_cons.2 ⟨.self _, List.forall_mem_append.2 ⟨?_, ?_⟩⟩
    · intro t ht
      exact meets_onValue (fun _ hfree hvalue => .intoUpdate rfl hfree hvalue) (ihb _) ht
    · exact fun t ht => (ihn _ _ _ t ht).head (.pastUpdate rfl rfl)
  | visit i body next ihb ihn =>
    refine List.forall_mem_cons.2 ⟨.self _, List.forall_mem_append.2 ⟨?_, ?_⟩⟩
    · intro t ht
      unfold passedOnEntries at ht
      cases hfree : s.holding i with
      | true =>
        rw [hfree] at ht
        cases ht
      | false =>
        rw [hfree] at ht
        exact meets_each (fun _ _ _ _ hes hhanded => .intoVisit hfree hes hhanded) ihb ht
    · exact fun t ht => (ihn _ _ _ t ht).head (.pastVisit rfl)
  | occupancy i next ih =>
    exact List.forall_mem_cons.2 ⟨.self _, fun t ht => (ih _ _ _ t ht).head (.pastOccupancy rfl)⟩
  | slotCount i next ih =>
    exact List.forall_mem_cons.2 ⟨.self _, fun t ht => (ih _ _ _ t ht).head (.pastSlotCount rfl)⟩
  | total i next ih => exact fun t ht => (ih _ _ _ t ht).head .pastTotal
  | policy i next ih => exact fun t ht => (ih _ _ _ t ht).head .pastPolicy

end Passed

/-! ## What is entered at a moment -/

section Entered

/-- What the thread has entered and not left are the shards of the operations around, none of them
twice. -/
structure Balanced (m : Moment A n S K V P M R) : Prop where
  entered : m.session.entered = m.around
  nodup : m.around.Nodup

variable {m m' : Moment A n S K V P M R}

/-- Past an operation, what it has entered is left again. -/
theorem Balanced.past {around : List (Fin n)} {program program' : Program A n K V P M R}
    {s t : Session n S K V P M} (h : Balanced ⟨around, program, s⟩) (hholds : t.holds = s.holds) :
    Balanced ⟨around, program', t⟩ :=
  ⟨(congrArg (List.map Hold.shard) hholds).trans h.entered, h.nodup⟩

theorem Balanced.ended {α : Type} {around : List (Fin n)} {program program' : Program A n K V P M R}
    {s t : Session n S K V P M} {done : α × Session n S K V P M} {answer : α}
    (h : Balanced ⟨around, program, s⟩) (ended : done = (answer, t))
    (hholds : done.2.holds = s.holds) : Balanced ⟨around, program', t⟩ := by
  rw [ended] at hholds
  exact h.past hholds

/-- Inside a shard that was free, one more is entered. -/
theorem Balanced.into {around : List (Fin n)} {program program' : Program A n K V P M R}
    {s t : Session n S K V P M} {i : Fin n} {lent : Option (UInt64 × K)}
    (h : Balanced ⟨around, program, s⟩) (free : s.holding i = false)
    (hholds : t.holds = (s.enter i lent).holds) : Balanced ⟨i :: around, program', t⟩ := by
  have hentered : s.entered = around := h.entered
  have hnew : i ∉ around := by
    rw [← hentered]
    exact not_mem_entered.2 free
  refine ⟨?_, List.nodup_cons.2 ⟨hnew, h.nodup⟩⟩
  exact (congrArg (List.map Hold.shard) hholds).trans (congrArg (i :: ·) hentered)

variable [BEq K] [ResizePolicy P] {locate : A → K → Fin n × UInt64}

theorem Balanced.leads (h : Balanced m) (hstep : Leads locate m m') : Balanced m' := by
  cases hstep with
  | pastLoad | pastStore | pastTotal | pastPolicy => exact h.past rfl
  | pastAssign => exact h.past (holds_assign ..)
  | pastPerform ended => exact h.ended ended (holds_perform ..)
  | intoRead _ free _ => exact h.into free rfl
  | intoUpdate _ free _ => exact h.into free rfl
  | pastRead _ ended =>
    exact h.ended ended (holds_guarded (holds_onValue fun _ => holds_run locate _) ..)
  | pastUpdate _ ended =>
    exact h.ended ended (holds_guarded (holds_onValue fun _ => holds_run locate _) ..)
  | @intoVisit _ i body _ s l _ _ _ free _ handed =>
    have hholds := holds_handEach (fun key value => holds_run locate (body key value)) l
      (s.enter i none)
    rw [handed] at hholds
    exact h.into free hholds
  | pastVisit ended =>
    refine h.ended ended (holds_guarded ?_ ..)
    exact fun u => holds_visitSlots (fun key value => holds_run locate _) _ _ 0 u
  | pastOccupancy ended => exact h.ended ended (holds_guarded (fun _ => rfl) ..)
  | pastSlotCount ended => exact h.ended ended (holds_guarded (fun _ => rfl) ..)

/-- At every moment of a program of a thread that has entered nothing, what the thread has entered
and not left are the shards of the operations around, none of them twice. -/
theorem entered_of_reached {program : Program A n K V P M R}
    {shards : Vector (Shard S K V P) n} {memory : M}
    (h : Reaches locate ⟨[], program, .start shards memory⟩ m) : Balanced m := by
  induction h with
  | refl => exact ⟨rfl, List.nodup_nil⟩
  | tail _ hstep ih => exact ih.leads hstep

end Entered

end Moment

end ShardedMap
