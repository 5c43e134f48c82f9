import ShardedMap.Policy.Scripted
import ShardedMap.Proofs.Program.Reentry
import ShardedMap.Proofs.Shard.Unwinding
/-
  Operations of a program that panic. A closure that panics leaves the shard around it as it found
  it, up to the value lent. A keyed operation panics at a target of zero of a plan: what it did to
  its chain stays done, the targets before zero stay carried out, and the policy learns of nothing
  (`perform_unwinds`). Neither leaves anything entered. What happened before makes no difference to
  a program (`unmindful_run`), so the rest of a program goes on after a panic as it would in any
  session with the same shards, entered alike, and the same memory (`unwinds_of_holds`).
  `Session.Recovers` collects what each operation leaves; that a put can panic on slots resized
  already, and an update after work on another shard, is `panic_after_work`.
-/
namespace ShardedMap

variable {S : Type → Type} {H : Type} [DecidableEq H] [Storage S H] [LawfulStorage S H]

variable {A : Type} {n : Nat} {K V P M R α : Type}

/-! ## What came before -/

namespace Session

/-- The session, with other things that happened before it. -/
def following (s : Session n S K V P M) (log : List (Fin n × PolicyEvent)) : Session n S K V P M :=
  { s with events := s.events ++ log }

/-- What happened before makes no difference to `act`, which leaves it behind what happens in it. -/
def Unmindful (act : Session n S K V P M → α × Session n S K V P M) : Prop :=
  ∀ s log, act (s.following log) = ((act s).1, (act s).2.following log)

theorem note_following (s : Session n S K V P M) (log : List (Fin n × PolicyEvent)) (i : Fin n)
    (events : List PolicyEvent) :
    (s.following log).note i events = (s.note i events).following log := by
  simp [note, following]

theorem unmindful_guarded {act : Session n S K V P M → Except Panic α × Session n S K V P M}
    (hact : Unmindful act) (i : Fin n) (lent : Option (UInt64 × K)) :
    Unmindful (guarded i lent act) := by
  intro s log
  cases h : s.holding i with
  | true =>
    have h' : (s.following log).holding i = true := h
    rw [guarded_of_holding h, guarded_of_holding h']
  | false =>
    have h' : (s.following log).holding i = false := h
    have henter : (s.following log).enter i lent = (s.enter i lent).following log := rfl
    rw [guarded_of_free h, guarded_of_free h', henter, hact]
    rfl

theorem unmindful_perform [BEq K] [ResizePolicy P] (i : Fin n) (hash : UInt64)
    (op : Operation K V R) : Unmindful (perform i hash op : Session n S K V P M → _) := by
  intro s log
  cases h : s.holding i with
  | true =>
    have h' : (s.following log).holding i = true := h
    rw [perform_of_holding h, perform_of_holding h']
  | false =>
    have h' : (s.following log).holding i = false := h
    rw [perform_eq h, perform_eq h', ← note_following]
    rfl

theorem assign_following [BEq K] (s : Session n S K V P M) (log : List (Fin n × PolicyEvent))
    (i : Fin n) (value : V) :
    (s.following log).assign i value = (s.assign i value).following log := by
  have hholds : (s.following log).holds = s.holds := rfl
  unfold assign
  rw [hholds]
  cases (s.holds.find? (·.shard == i)).bind Hold.lent <;> rfl

theorem unmindful_handEach
    {visit : K → V → Session n S K V P M → Except Panic R × Session n S K V P M}
    (hvisit : ∀ key value, Unmindful (visit key value)) (es : List (Entry K V)) :
    Unmindful (handEach visit es) := by
  induction es with
  | nil => exact fun _ _ => rfl
  | cons e rest ih =>
    intro s log
    unfold handEach
    rw [hvisit]
    rcases visit e.key e.value s with ⟨_ | _, t⟩
    · rfl
    · exact ih t log

end Session

namespace Program

open Session

variable [BEq K]

theorem unmindful_onValue {body : V → Session n S K V P M → Except Panic R × Session n S K V P M}
    (hbody : ∀ value, Unmindful (body value)) (i : Fin n) (hash : UInt64) (key : K) :
    Unmindful (onValue i hash key body) := by
  intro s log
  have hshards : (s.following log).shards = s.shards := rfl
  unfold onValue
  rw [hshards]
  rcases (s.shards.get i).value? hash key with _ | _ | value
  · rfl
  · rfl
  · simp only
    rw [hbody]
    rcases body value s with ⟨_ | _, t⟩ <;> rfl

variable [ResizePolicy P]

theorem unmindful_run (locate : A → K → Fin n × UInt64) (program : Program A n K V P M R) :
    Unmindful (program.run locate : Session n S K V P M → _) := by
  induction program with
  | done | panic => exact fun _ _ => rfl
  | load next ih => exact fun s log => ih s.memory s log
  | store memory next ih => exact fun s log => ih { s with memory } log
  | assign i value next ih =>
    intro s log
    show next.run locate ((s.following log).assign i value) = _
    rw [assign_following]
    exact ih _ log
  | perform address op next ih =>
    intro s log
    unfold run
    simp only
    rw [unmindful_perform]
    exact ih _ _ log
  | read address key body next ihb ihn =>
    intro s log
    unfold run
    simp only
    rw [unmindful_guarded (unmindful_onValue ihb _ _ key)]
    exact ihn _ _ log
  | update address key body next ihb ihn =>
    intro s log
    unfold run
    simp only
    rw [unmindful_guarded (unmindful_onValue (ihb _) _ _ key)]
    exact ihn _ _ log
  | visit i body next ihb ihn =>
    intro s log
    have hshards : (s.following log).shards = s.shards := rfl
    rw [run_visit, run_visit, hshards, unmindful_guarded (unmindful_handEach ihb _)]
    exact ihn _ _ log
  | occupancy i next ih =>
    intro s log
    unfold run
    simp only
    rw [unmindful_guarded (fun _ _ => rfl)]
    exact ih _ _ log
  | slotCount i next ih =>
    intro s log
    unfold run
    simp only
    rw [unmindful_guarded (fun _ _ => rfl)]
    exact ih _ _ log
  | total i next ih => exact fun s log => ih _ s log
  | policy i next ih => exact fun s log => ih _ s log

end Program

namespace Session

/-- The two have the same shards, of which the same are entered, and the same memory. -/
structure Alike (s t : Session n S K V P M) : Prop where
  shards : s.shards = t.shards
  holds : s.holds = t.holds
  memory : s.memory = t.memory

/-- An operation on shard `i`, begun in `s`, panics with `p` and leaves `t`. What is entered is what
was entered before. The rest of the program is given the panic and goes on from there as it would in
any session `u` with the same shards and memory, in particular in one that saw no panic. -/
structure Unwinds [BEq K] [ResizePolicy P] (locate : A → K → Fin n × UInt64) (i : Fin n)
    (op : (Except Panic α → Program A n K V P M R) → Program A n K V P M R)
    (s : Session n S K V P M) (p : Panic) (t : Session n S K V P M) : Prop where
  holds : t.holds = s.holds
  free : i ∉ t.entered
  later : ∀ next u, t.Alike u →
    ((op next).run locate s).1 = ((next (.error p)).run locate u).1 ∧
    ((op next).run locate s).2.Alike ((next (.error p)).run locate u).2 ∧
    ∃ events, ((op next).run locate s).2.events = events ++ t.events ∧
      ((next (.error p)).run locate u).2.events = events ++ u.events

end Session

namespace Program

open Session

section Unwound

variable [BEq K] [ResizePolicy P] (locate : A → K → Fin n × UInt64)

theorem run_alike (program : Program A n K V P M R) {s t : Session n S K V P M} (h : s.Alike t) :
    (program.run locate s).1 = (program.run locate t).1 ∧
    (program.run locate s).2.Alike (program.run locate t).2 ∧
    ∃ events, (program.run locate s).2.events = events ++ s.events ∧
      (program.run locate t).2.events = events ++ t.events := by
  have hs := unmindful_run locate program { s with events := [] } s.events
  have ht := unmindful_run locate program { s with events := [] } t.events
  have hs' : following { s with events := [] } s.events = s := rfl
  have ht' : following { s with events := [] } t.events = t := by
    obtain ⟨hshards, hholds, hmemory⟩ := h
    simp only [following, hshards, hholds, hmemory, List.nil_append]
  rw [hs'] at hs
  rw [ht'] at ht
  rw [hs, ht]
  exact ⟨rfl, ⟨rfl, rfl, rfl⟩, _, rfl, rfl⟩

/-- An operation unwinds if it gives its panic to the rest of the program and holds what was held
before. -/
theorem unwinds_of_holds {i : Fin n} {s t : Session n S K V P M} {p : Panic}
    {op : (Except Panic α → Program A n K V P M R) → Program A n K V P M R}
    {done : Except Panic α × Session n S K V P M} (hdone : done = (.error p, t))
    (hop : ∀ next, (op next).run locate s = (next done.1).run locate done.2)
    (hfree : i ∉ s.entered) (hholds : t.holds = s.holds) : Unwinds locate i op s p t := by
  refine ⟨hholds, ?_, ?_⟩
  · rw [entered_of_holds hholds]
    exact hfree
  · intro next u halike
    rw [hop, hdone]
    exact run_alike locate _ halike

end Unwound

/-! ## Closures that panic -/

theorem guarded_error_iff {i : Fin n} {lent : Option (UInt64 × K)} {s t : Session n S K V P M}
    {act : Session n S K V P M → Except Panic α × Session n S K V P M} (hfree : i ∉ s.entered)
    {p : Panic} : s.guarded i lent act = (.error p, t) ↔
      ∃ u, act (s.enter i lent) = (.error p, u) ∧ t = u.leave i := by
  rw [guarded_of_free (not_mem_entered.1 hfree)]
  rcases act (s.enter i lent) with ⟨result, u⟩
  constructor
  · rintro ⟨⟩
    exact ⟨u, rfl, rfl⟩
  · rintro ⟨_, ⟨⟩, rfl⟩
    rfl

theorem handEach_error_iff
    {visit : K → V → Session n S K V P M → Except Panic R × Session n S K V P M}
    {es : List (Entry K V)} {s u : Session n S K V P M} {p : Panic} :
    handEach visit es s = (.error p, u) ↔ ∃ l e r t, es = l ++ e :: r ∧
      handEach visit l s = (.ok (), t) ∧ visit e.key e.value t = (.error p, u) := by
  constructor
  · intro h
    induction es generalizing s with
    | nil => cases h
    | cons e rest ih =>
      unfold handEach at h
      rcases hone : visit e.key e.value s with ⟨p' | r, t⟩
      · rw [hone] at h
        cases h
        exact ⟨[], e, rest, s, rfl, rfl, hone⟩
      · rw [hone] at h
        obtain ⟨l, x, r, t', rfl, hl, hx⟩ := ih h
        refine ⟨e :: l, x, r, t', rfl, ?_, hx⟩
        simp only [handEach, hone, hl]
  · rintro ⟨l, e, r, t, rfl, hl, he⟩
    rw [handEach_append, hl]
    simp only [handEach, he]

variable [BEq K]

theorem onValue_error_iff {i : Fin n} {hash : UInt64} {key : K}
    {call : V → Session n S K V P M → Except Panic R × Session n S K V P M}
    {s u : Session n S K V P M} (hpos : 0 < (s.shards.get i).slots.size) {p : Panic} :
    onValue i hash key call s = (.error p, u) ↔ ∃ value,
      (s.shards.get i).value? hash key = .ok (some value) ∧ call value s = (.error p, u) := by
  unfold onValue
  rw [Shard.value?_of_pos hpos]
  rcases (Slots.chainAt _ _).get? hash key with _ | value
  · simp
  · rcases hcall : call value s with ⟨p' | r, t⟩ <;> simp [hcall]

/-- An update that replaces the value lent to it and then panics keeps the value. -/
theorem guarded_assign_panic {i : Fin n} {hash : UInt64} {key : K} {s : Session n S K V P M}
    (hfree : i ∉ s.entered) {value : V}
    (hvalue : (s.shards.get i).value? hash key = .ok (some value)) (f : V → V) (p : Panic) :
    s.guarded i (some (hash, key))
        (onValue i hash key fun value u => (.error p, u.assign i (f value))) =
      ((.error p : Except Panic (Option R)),
        s.replace i ((s.shards.get i).assign hash key (f value))) := by
  have hlent := lentOf_enter_self s i (some (hash, key))
  have hassign : (s.enter i (some (hash, key))).assign i (f value) =
      (s.replace i ((s.shards.get i).assign hash key (f value))).enter i (some (hash, key)) := by
    unfold lentOf at hlent
    unfold Session.assign
    rw [hlent]
    simp only [onShard_replace]
    rfl
  have hvalue' : ((s.enter i (some (hash, key))).shards.get i).value? hash key =
      .ok (some value) := hvalue
  have hfree' : (s.replace i ((s.shards.get i).assign hash key (f value))).holding i = false :=
    not_mem_entered.1 hfree
  rw [guarded_of_free (not_mem_entered.1 hfree)]
  simp only [onValue, hvalue', hassign]
  rw [leave_enter hfree']

variable [EquivBEq K] [ResizePolicy P]

/-- A keyed operation that panics has done its work on its chain and was stopped by a plan with a
target of zero. -/
theorem perform_unwinds {s : Session n S K V P M} {i : Fin n} (hsound : (s.shards.get i).Sound)
    (hfree : i ∉ s.entered) {hash : UInt64} {op : Operation K V R} {p : Panic}
    {t : Session n S K V P M} (h : s.perform i hash op = (.error p, t)) :
    let shard := s.shards.get i
    let accessed := (shard.access hash op).2
    p = .resizeToZero ∧ op.mutates (shard.has hash op.key) = true ∧
    Shard.Applied hash op shard accessed ∧
    ∃ r plan tried rest events, accessed.planned r = some plan ∧
      plan.targets = tried ++ 0 :: rest ∧ 0 ∉ tried ∧
      t = (s.replace i { accessed with
        slots := tried.foldl Slots.resized accessed.slots, policy := plan.next }).note i events ∧
      (plan.targets.head? = some 0 → (t.shards.get i).slots = accessed.slots) ∧
      ∀ total slotCount, .recomputed total slotCount ∉ events := by
  intro shard accessed
  rw [perform_eq (not_mem_entered.1 hfree)] at h
  obtain ⟨hresult, rfl⟩ := Prod.mk.inj h
  obtain ⟨hp, hmutates, r, plan, tried, rest, events, hplan, htargets, htried, hleft, hevents⟩ :=
    hsound.perform_error hresult
  rw [hleft]
  refine ⟨hp, hmutates, hsound.applied_access hash op, r, plan, tried, rest, events, hplan,
    htargets, htried, rfl, ?_, hevents⟩
  intro hfirst
  cases tried with
  | nil => rw [shards_note, get_replace_self, List.foldl_nil]
  | cons target tried =>
    rw [htargets] at hfirst
    obtain rfl : target = 0 := Option.some.inj hfirst
    exact absurd List.mem_cons_self htried

end Program

/-! ## Every session of a program -/

/-- In the session `s`, every operation that panics leaves its shard as it should and is over with
it. -/
structure Session.Recovers [BEq K] [ResizePolicy P] (locate : A → K → Fin n × UInt64) (R : Type)
    (s : Session n S K V P M) : Prop where
  /-- On a shard entered already there is nothing but the panic. -/
  reentry : ∀ i ∈ s.entered,
    (∀ {α : Type} lent (act : Session n S K V P M → Except Panic α × Session n S K V P M),
      s.guarded i lent act = (.error .reentry, s)) ∧
    ∀ hash (op : Operation K V R), s.perform i hash op = (.error .reentry, s)
  /-- A `read` panics where its closure does, and the shard is as it was. -/
  read : ∀ address key (body : V → Program A n K V P M R), let (i, hash) := locate address key
    let call := fun value u => (body value).run locate u
    i ∉ s.entered → ∀ p t, s.guarded i none (Program.onValue i hash key call) = (.error p, t) →
      (∃ value u, (s.shards.get i).value? hash key = .ok (some value) ∧
        call value (s.enter i none) = (.error p, u) ∧ t = u.leave i) ∧
      t.shards.get i = s.shards.get i ∧ Unwinds locate i (Program.read address key body) s p t
  /-- A visit panics where a call does, and the shard is as it was. -/
  visit : ∀ i (body : K → V → Program A n K V P M R),
    let call := fun key value u => (body key value).run locate u
    i ∉ s.entered → ∀ p t, s.visitShard i call = (.error p, t) →
      (∃ l e r u v, (s.shards.get i).slots.entries = l ++ e :: r ∧
        handEach call l (s.enter i none) = (.ok (), u) ∧
        call e.key e.value u = (.error p, v) ∧ t = v.leave i) ∧
      t.shards.get i = s.shards.get i ∧ Unwinds locate i (Program.visit i body) s p t
  /-- An `update` panics where its closure does; the shard is as it was but for the value lent. -/
  update : ∀ address key (body : Fin n → V → Program A n K V P M R),
    let (i, hash) := locate address key
    let call := fun value u => (body i value).run locate u
    let lent := some (hash, key)
    i ∉ s.entered → ∀ p t, s.guarded i lent (Program.onValue i hash key call) = (.error p, t) →
      (∃ value u, (s.shards.get i).value? hash key = .ok (some value) ∧
        call value (s.enter i lent) = (.error p, u) ∧ t = u.leave i) ∧
      (s.shards.get i).SameBut hash key (t.shards.get i) ∧
      Unwinds locate i (Program.update address key body) s p t
  /-- A closure that replaces the value lent to it and then panics leaves the new value. -/
  assigned : ∀ address key, let (i, hash) := locate address key
    i ∉ s.entered → ∀ value, (s.shards.get i).value? hash key = .ok (some value) →
      ∀ (f : V → V) p,
        let body : Fin n → V → Program A n K V P M R := fun j v => .assign j (f v) (.panic p)
        Unwinds locate i (Program.update address key body) s p
          (s.replace i ((s.shards.get i).assign hash key (f value)))
  /-- A keyed operation panics only for a plan with a target of zero. What it put in place or took
  out stays so and is counted; the slots are as it left them, resized to the targets that the plan
  has before zero; and the policy is as the plan leaves it, and learns nothing more. -/
  keyed : ∀ address (op : Operation K V R), let (i, hash) := locate address op.key
    i ∉ s.entered → ∀ p t, s.perform i hash op = (.error p, t) →
      let shard := s.shards.get i
      let accessed := (shard.access hash op).2
      p = .resizeToZero ∧ op.mutates (shard.has hash op.key) = true ∧
      Shard.Applied hash op shard accessed ∧
      (∃ r plan tried rest events, accessed.planned r = some plan ∧
        plan.targets = tried ++ 0 :: rest ∧ 0 ∉ tried ∧
        t = (s.replace i { accessed with
          slots := tried.foldl Slots.resized accessed.slots, policy := plan.next }).note i events ∧
        (plan.targets.head? = some 0 → (t.shards.get i).slots = accessed.slots) ∧
        ∀ total slotCount, .recomputed total slotCount ∉ events) ∧
      Unwinds locate i (Program.perform address op) s p t

namespace Program

open Session

variable [BEq K] [ResizePolicy P] (locate : A → K → Fin n × UInt64)

theorem guarded_onValue_error {i : Fin n} {hash : UInt64} {key : K} {lent : Option (UInt64 × K)}
    {body : V → Program A n K V P M R} {s t : Session n S K V P M}
    (hpos : 0 < (s.shards.get i).slots.size) (hfree : i ∉ s.entered) {p : Panic}
    (h : s.guarded i lent (onValue i hash key fun value u => (body value).run locate u) =
      (.error p, t)) :
    (∃ value u, (s.shards.get i).value? hash key = .ok (some value) ∧
      (body value).run locate (s.enter i lent) = (.error p, u) ∧ t = u.leave i) ∧
    (s.shards.get i).SameUpTo lent (t.shards.get i) ∧ t.holds = s.holds := by
  obtain ⟨u, honvalue, rfl⟩ := (guarded_error_iff hfree).1 h
  have hpos' : 0 < ((s.enter i lent).shards.get i).slots.size := hpos
  obtain ⟨value, hvalue, hcall⟩ := (onValue_error_iff hpos').1 honvalue
  have hsame := onValue_sameUpTo locate i hash key lent body s
  have hholds : (s.guarded i lent
      (onValue i hash key fun value u => (body value).run locate u)).2.holds = s.holds :=
    holds_guarded (holds_onValue fun value => holds_run locate (body value)) i lent s
  rw [h] at hsame hholds
  exact ⟨⟨value, u, hvalue, hcall, rfl⟩, hsame, hholds⟩

theorem visitShard_error {i : Fin n} {body : K → V → Program A n K V P M R}
    {s t : Session n S K V P M} (hfree : i ∉ s.entered) {p : Panic}
    (h : s.visitShard i (fun key value u => (body key value).run locate u) = (.error p, t)) :
    (∃ l e r u v, (s.shards.get i).slots.entries = l ++ e :: r ∧
      handEach (fun key value u => (body key value).run locate u) l (s.enter i none) = (.ok (), u) ∧
      (body e.key e.value).run locate u = (.error p, v) ∧ t = v.leave i) ∧
    t.shards.get i = s.shards.get i ∧ t.holds = s.holds := by
  have hsame := visitShard_same locate i body s
  rw [h] at hsame
  rw [visitShard_eq] at h
  have hholds := holds_guarded (holds_handEach (fun key value => holds_run locate (body key value))
    (s.shards.get i).slots.entries) i none s
  rw [h] at hholds
  obtain ⟨v, hhanded, rfl⟩ := (guarded_error_iff hfree).1 h
  obtain ⟨l, e, r, u, hentries, hbefore, hcall⟩ := handEach_error_iff.1 hhanded
  exact ⟨⟨l, e, r, u, v, hentries, hbefore, hcall, rfl⟩, hsame, hholds⟩

theorem recovers [EquivBEq K] {s : Session n S K V P M} (hs : ∀ i, (s.shards.get i).Sound) :
    s.Recovers locate R where
  reentry i hi := ⟨guarded_of_holding (mem_entered.1 hi), perform_of_holding (mem_entered.1 hi)⟩
  read address key body := by
    intro hfree p t h
    obtain ⟨hpanics, hsame, hholds⟩ := guarded_onValue_error locate (hs _).pos hfree h
    exact ⟨hpanics, hsame, unwinds_of_holds locate h (fun _ => rfl) hfree hholds⟩
  visit i body := by
    intro call hfree p t h
    obtain ⟨hpanics, hsame, hholds⟩ := visitShard_error locate hfree h
    exact ⟨hpanics, hsame, unwinds_of_holds locate h (fun _ => rfl) hfree hholds⟩
  update address key body := by
    intro hfree p t h
    obtain ⟨hpanics, hsame, hholds⟩ := guarded_onValue_error locate (hs _).pos hfree h
    exact ⟨hpanics, hsame, unwinds_of_holds locate h (fun _ => rfl) hfree hholds⟩
  assigned address key := by
    intro hfree value hvalue f p
    exact unwinds_of_holds locate (guarded_assign_panic hfree hvalue f p) (fun _ => rfl) hfree rfl
  keyed address op := by
    intro hfree p t h
    obtain ⟨hp, hmutates, happlied, hstopped⟩ := perform_unwinds (hs _) hfree h
    have hholds := holds_perform s (locate address op.key).1 (locate address op.key).2 op
    rw [h] at hholds
    exact ⟨hp, hmutates, happlied, hstopped, unwinds_of_holds locate h (fun _ => rfl) hfree hholds⟩

/-- Shards that were fresh in the beginning, with whatever policies: in every session that a program
passes, inside its closures too and whatever panicked before, every operation that panics leaves its
shard as it should. -/
theorem panics_unwind [EquivBEq K] {shards : Vector (Shard S K V P) n}
    (hfresh : ∀ i, ∃ slotCount policy, 0 < slotCount ∧ shards.get i = Shard.fresh slotCount policy)
    (memory : M) (program : Program A n K V P M R) :
    ∀ s ∈ program.passed locate (.start shards memory), s.Recovers locate R := by
  intro s hs
  exact recovers locate (sound_passed hfresh memory locate program s hs)

/-- A put that a resize to no slots stops, and then an update that panics on what was put. -/
theorem panics_unwind_twice :
    let policy : ScriptedPolicy := ⟨0, some 0, none, .always, 0, 1, 0, true, false⟩
    let locate : Unit → Nat → Fin 1 × UInt64 := fun _ _ => (0, 1)
    let s : Session 1 Arena Nat Nat ScriptedPolicy Unit := .start #v[Shard.fresh 2 policy] ()
    let put : Operation Nat Nat Unit := .put 1 5
    let t := (s.perform 0 1 put).2
    let bad : Fin 1 → Nat → Program Unit 1 Nat Nat ScriptedPolicy Unit Unit := fun i value =>
      .assign i (value + 1) (.panic (.raised "bad"))
    let u := t.replace 0 ((t.shards.get 0).assign 1 1 6)
    Unwinds locate 0 (Program.perform () put) s .resizeToZero t ∧
    (t.shards.get 0).total = 1 ∧ (t.shards.get 0).slots.size = 2 ∧
    Unwinds locate 0 (Program.update () 1 bad) t (.raised "bad") u ∧
    (u.shards.get 0).value? 1 1 = .ok (some 6) := by
  intro policy locate s put t bad u
  let program : Program Unit 1 Nat Nat ScriptedPolicy Unit Unit := .perform () put fun _ => .done ()
  have hpassed : s ∈ program.passed locate s ∧ t ∈ program.passed locate s := by
    simp [program, passed, locate, t, put]
  have hrecovers := panics_unwind (S := Arena) locate (fresh_single Nat.zero_lt_two policy) ()
    program
  have hanswer : (s.perform 0 1 put).1 = .error .resizeToZero := by
    subst policy s put
    rfl
  have hput : s.perform 0 1 put = (.error .resizeToZero, t) := Prod.ext hanswer rfl
  obtain ⟨-, -, -, -, hunwinds⟩ := (hrecovers s hpassed.1).keyed () put (by decide) _ _ hput
  have hvalue : (t.shards.get 0).value? 1 1 = .ok (some 5) := by
    rw [Shard.value?_of_pos (by decide +kernel)]
    exact congrArg Except.ok (by decide +kernel)
  have hafter : (u.shards.get 0).value? 1 1 = .ok (some 6) := by
    rw [Shard.value?_of_pos (by decide +kernel)]
    exact congrArg Except.ok (by decide +kernel)
  have hupdate := (hrecovers t hpassed.2).assigned () 1 (by decide +kernel) 5 hvalue (· + 1)
    (.raised "bad")
  exact ⟨hunwinds, by decide +kernel, by decide +kernel, hupdate, hafter⟩

/-- A plan that resizes to four slots and then to none stops a put after the first resize: the entry
put into slot 1 of 2 is left in slot 3 of 4. An update whose closure replaces its value, puts an
entry into another shard and then panics leaves both. -/
theorem panic_after_work :
    let locate : Fin 2 → Nat → Fin 2 × UInt64 := fun i key => (i, key.toUInt64)
    let fresh : List Nat → Session 2 Arena Nat Nat SeriesPolicy Unit := fun targets =>
      .start #v[Shard.fresh 2 ⟨targets⟩, Shard.fresh 2 ⟨targets⟩] ()
    let keysAt := fun (s : Session 2 Arena Nat Nat SeriesPolicy Unit) i j =>
      (s.chainAt i j).toList.map Entry.key
    let s := fresh [4, 0]
    let put : Operation Nat Nat Bool := .put 3 5
    let accessed := s.replace 0 ((s.shards.get 0).access 3 put).2
    let stopped := s.perform 0 3 put
    let t := stopped.2
    let lent := ((fresh []).perform 0 1 (.put 1 5 : Operation Nat Nat Bool)).2
    let update : Program (Fin 2) 2 Nat Nat SeriesPolicy Unit Bool :=
      .update 0 1 (fun i value => .assign i (value + 1) (.perform 1 (.put 2 7) fun _ =>
        .panic (.raised "bad"))) fun answer => .done answer.isOk
    let ended := update.run locate lent
    let u := ended.2
    (stopped.1 = .error .resizeToZero ∧
      (accessed.shards.get 0).slots.size = 2 ∧ keysAt accessed 0 1 = [3] ∧
      (t.shards.get 0).slots.size = 4 ∧ keysAt t 0 1 = [] ∧ keysAt t 0 3 = [3]) ∧
    (ended.1 = .ok false ∧ (u.shards.get 0).value? 1 1 = .ok (some 6) ∧
      keysAt lent 1 0 = [] ∧ keysAt u 1 0 = [2]) :=
  ⟨⟨rfl, by decide +kernel⟩, rfl, rfl, by decide +kernel⟩

end Program

end ShardedMap
