import Mathlib.Data.List.Chain
import ShardedMap.Proofs.Program.Frame
/-
  The sessions that a program passes, in order. Each comes from the one before it by one operation,
  by entering or leaving a shard, by an assignment, or by nothing at all (`Steps`, `goes_passed`).
  So what has to do with the past of a session is shown by induction along the list: of the first
  session, and from each to the next.
-/
namespace ShardedMap

variable {S : Type → Type} {H : Type} [DecidableEq H] [Storage S H] [LawfulStorage S H]

/-- The list `l` leads from `s` to `t` in steps of `T`. -/
structure Goes {σ : Type} (T : σ → σ → Prop) (s : σ) (l : List σ) (t : σ) : Prop where
  head : l.head? = some s
  last : l.getLast? = some t
  chain : l.IsChain T

namespace Goes

variable {σ : Type} {T : σ → σ → Prop} {s t u v : σ} {l l' : List σ}

theorem single (s : σ) : Goes T s [s] s := ⟨rfl, rfl, .singleton s⟩

theorem append (h : Goes T s l t) (hT : T t u) (h' : Goes T u l' v) : Goes T s (l ++ l') v := by
  refine ⟨?_, ?_, h.chain.append h'.chain ?_⟩
  · rw [List.head?_append, h.head]
    rfl
  · rw [List.getLast?_append, h'.last]
    rfl
  · intro x hx y hy
    obtain rfl : t = x := Option.some.inj (h.last.symm.trans hx)
    obtain rfl : u = y := Option.some.inj (h'.head.symm.trans hy)
    exact hT

theorem cons (hT : T s t) (h : Goes T t l u) : Goes T s (s :: l) u := (single s).append hT h

end Goes

namespace Program

open Session

variable {A : Type} {n : Nat} {K V P M R α : Type}

/-- `T` relates two sessions of which one comes from the other by what a program does at once. -/
structure Steps [BEq K] [ResizePolicy P] (locate : A → K → Fin n × UInt64) (R : Type)
    (T : Session n S K V P M → Session n S K V P M → Prop) : Prop where
  refl : ∀ s, T s s
  store : ∀ s memory, T s { s with memory }
  assign : ∀ s i value, T s (s.assign i value)
  enter : ∀ s i lent, T s (s.enter i lent)
  leave : ∀ s i, T s (s.leave i)
  perform : ∀ s address (op : Operation K V R), s.holding (locate address op.key).1 = false →
    T s (s.perform (locate address op.key).1 (locate address op.key).2 op).2

/-- From `s` on, an operation called closures that passed `l`, and ended in `t`. -/
inductive Calls {σ : Type} (T : σ → σ → Prop) (s : σ) (l : List σ) (t : σ) : Prop where
  | none (passed : l = []) (step : T s t)
  | some {a b : σ} (first : T s a) (goes : Goes T a l b) (last : T b t)

theorem Calls.goes {σ : Type} {T : σ → σ → Prop} {s t u : σ} {l l' : List σ}
    (h : Calls T s l t) (h' : Goes T t l' u) : Goes T s (s :: l ++ l') u := by
  cases h with
  | none passed step =>
    subst passed
    exact h'.cons step
  | some first goes last => exact (goes.cons first).append last h'

namespace Steps

variable [BEq K] [ResizePolicy P] {locate : A → K → Fin n × UInt64}
variable {T : Session n S K V P M → Session n S K V P M → Prop}

/-- An operation that does nothing inside its guard is a step. -/
theorem guarded (hT : Steps locate R T) {i : Fin n} {lent : Option (UInt64 × K)}
    {act : Session n S K V P M → Except Panic α × Session n S K V P M} {s : Session n S K V P M}
    (hact : (act (s.enter i lent)).2 = s.enter i lent) : T s (s.guarded i lent act).2 := by
  cases h : s.holding i with
  | true =>
    rw [guarded_of_holding h]
    exact hT.refl s
  | false =>
    rw [guarded_of_free h, hact]
    show T s ((s.enter i lent).leave i)
    rw [leave_enter h]
    exact hT.refl s

theorem performed (hT : Steps locate R T) (s : Session n S K V P M) (address : A)
    (op : Operation K V R) :
    T s (s.perform (locate address op.key).1 (locate address op.key).2 op).2 := by
  cases h : s.holding (locate address op.key).1 with
  | true =>
    rw [perform_of_holding h]
    exact hT.refl s
  | false => exact hT.perform s address op h

theorem onValue (hT : Steps locate R T) {body : V → Program A n K V P M R}
    (hbody : ∀ value t, Goes T t ((body value).passed locate t) ((body value).run locate t).2)
    (i : Fin n) (hash : UInt64) (key : K) (lent : Option (UInt64 × K))
    (s : Session n S K V P M) :
    Calls T s (passedOnValue i hash key lent (fun value t => (body value).passed locate t) s)
      (s.guarded i lent
        (Program.onValue i hash key fun value t => (body value).run locate t)).2 := by
  have hsame : (s.enter i lent).shards = s.shards := rfl
  cases h : s.holding i with
  | true =>
    refine .none ?_ ?_
    · unfold passedOnValue
      rw [if_pos h]
    · rw [guarded_of_holding h]
      exact hT.refl s
  | false =>
    rcases hv : (s.shards.get i).value? hash key with p | _ | value
    · refine .none ?_ (hT.guarded ?_)
      · simp only [passedOnValue, h, hv, Bool.false_eq_true, if_false]
      · simp only [Program.onValue, hsame, hv]
    · refine .none ?_ (hT.guarded ?_)
      · simp only [passedOnValue, h, hv, Bool.false_eq_true, if_false]
      · simp only [Program.onValue, hsame, hv]
    · have hgoes := hbody value (s.enter i lent)
      have hpassed : passedOnValue i hash key lent (fun value t => (body value).passed locate t) s =
          (body value).passed locate (s.enter i lent) := by
        simp only [passedOnValue, h, hv, Bool.false_eq_true, if_false]
      have hrun : (Program.onValue i hash key (fun value t => (body value).run locate t)
          (s.enter i lent)).2 = ((body value).run locate (s.enter i lent)).2 := by
        simp only [Program.onValue, hsame, hv]
        rcases (body value).run locate (s.enter i lent) with ⟨result, t⟩
        cases result <;> rfl
      rw [hpassed, guarded_of_free h, hrun]
      exact .some (hT.enter s i lent) hgoes (hT.leave _ i)

theorem each (hT : Steps locate R T)
    {visit : K → V → Session n S K V P M → Except Panic R × Session n S K V P M}
    {trace : K → V → Session n S K V P M → List (Session n S K V P M)}
    (hvisit : ∀ key value t, Goes T t (trace key value t) (visit key value t).2)
    (es : List (Entry K V)) (s : Session n S K V P M) :
    (passedEach visit trace es s = [] ∧ (handEach visit es s).2 = s) ∨
      Goes T s (passedEach visit trace es s) (handEach visit es s).2 := by
  induction es generalizing s with
  | nil => exact .inl ⟨rfl, rfl⟩
  | cons e rest ih =>
    right
    have hone := hvisit e.key e.value s
    unfold passedEach handEach
    rcases hv : visit e.key e.value s with ⟨result, t⟩
    rw [hv] at hone
    cases result with
    | error p =>
      rw [List.append_nil]
      exact hone
    | ok r =>
      rcases ih t with ⟨hpassed, hlast⟩ | hgoes
      · simp only [hpassed, hlast, List.append_nil]
        exact hone
      · exact hone.append (hT.refl t) hgoes

theorem onEntries (hT : Steps locate R T) {body : K → V → Program A n K V P M R}
    (hbody : ∀ key value t,
      Goes T t ((body key value).passed locate t) ((body key value).run locate t).2)
    (i : Fin n) (s : Session n S K V P M) :
    Calls T s (passedOnEntries i (fun key value t => (body key value).run locate t)
        (fun key value t => (body key value).passed locate t) s)
      (s.visitShard i fun key value t => (body key value).run locate t).2 := by
  rw [visitShard_eq]
  unfold passedOnEntries
  cases h : s.holding i with
  | true =>
    refine .none (if_pos rfl) ?_
    rw [guarded_of_holding h]
    exact hT.refl s
  | false =>
    simp only [Bool.false_eq_true, if_false]
    rcases hT.each hbody (s.shards.get i).slots.entries (s.enter i none) with
      ⟨hpassed, hlast⟩ | hgoes
    · exact .none hpassed (hT.guarded hlast)
    · rw [guarded_of_free h]
      exact .some (hT.enter s i none) hgoes (hT.leave _ i)

/-- The sessions that a program passes lead from where it begins to where it ends. -/
theorem goes_passed (hT : Steps locate R T) (program : Program A n K V P M R)
    (s : Session n S K V P M) :
    Goes T s (program.passed locate s) (program.run locate s).2 := by
  induction program generalizing s with
  | done | panic => exact .single s
  | load next ih => exact ih s.memory s
  | store memory next ih => exact (ih _).cons (hT.store s memory)
  | assign i value next ih => exact (ih _).cons (hT.assign s i value)
  | perform address op next ih => exact (ih _ _).cons (hT.performed s address op)
  | read address key body next ihb ihn => exact (hT.onValue ihb _ _ key none s).goes (ihn _ _)
  | update address key body next ihb ihn =>
    exact (hT.onValue (ihb _) _ _ key (some (_, key)) s).goes (ihn _ _)
  | visit i body next ihb ihn => exact (hT.onEntries ihb i s).goes (ihn _ _)
  | occupancy i next ih =>
    have hstep : T s (s.guarded i none fun s => (.ok (s.shards.get i).occupancy, s)).2 :=
      hT.guarded rfl
    exact (ih _ _).cons hstep
  | slotCount i next ih =>
    have hstep : T s (s.guarded i none fun s => (.ok (s.shards.get i).slots.size, s)).2 :=
      hT.guarded rfl
    exact (ih _ _).cons hstep
  | total i next ih => exact ih _ s
  | policy i next ih => exact ih _ s

theorem forall_passed (hT : Steps locate R T) {I : Session n S K V P M → Prop}
    (hI : ∀ ⦃s t⦄, T s t → I s → I t) (program : Program A n K V P M R)
    {s : Session n S K V P M} (hs : I s) : ∀ t ∈ program.passed locate s, I t := by
  have hgoes := hT.goes_passed program s
  refine List.IsChain.induction I _ hgoes.chain hI ?_
  intro hne
  have hhead := hgoes.head
  rw [List.head?_eq_some_head hne] at hhead
  rw [Option.some.inj hhead]
  exact hs

end Steps

end Program

end ShardedMap
