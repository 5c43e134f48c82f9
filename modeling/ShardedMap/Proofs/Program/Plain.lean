import ShardedMap.Proofs.Program.Gates
import ShardedMap.Proofs.Program.Reentry
import ShardedMap.Proofs.Shard.Checks
/-
  Programs that give no cause for a panic: they do not give up by themselves, and their closures
  only compute (`Plain`). On sound shards with the stock policy every operation of a thread that has
  entered nothing answers, so a plain program comes to its end (`Plain.run_ok`). In such a session,
  as long as all shards are below half of all words, no check on the way of an operation fails
  (`Session.Unfailing`).
-/
namespace ShardedMap

variable {S : Type → Type} {H : Type} [DecidableEq H] [Storage S H] [LawfulStorage S H]

variable {A : Type} {n : Nat} {K V P M R α : Type}

namespace Program

/-- Closures that only compute: with the memory and the value lent to them, to a result. -/
inductive Computes : Program A n K V P M R → Prop where
  | done {result} : Computes (.done result)
  | load {next} (hnext : ∀ memory, Computes (next memory)) : Computes (.load next)
  | store {memory next} (hnext : Computes next) : Computes (.store memory next)
  | assign {i value next} (hnext : Computes next) : Computes (.assign i value next)

/-- Programs that do not give up as long as their operations answer, with closures that only
compute. What they would do about a panic is left open. -/
inductive Plain : Program A n K V P M R → Prop where
  | done {result} : Plain (.done result)
  | load {next} (hnext : ∀ memory, Plain (next memory)) : Plain (.load next)
  | store {memory next} (hnext : Plain next) : Plain (.store memory next)
  | assign {i value next} (hnext : Plain next) : Plain (.assign i value next)
  | perform {address op next} (hnext : ∀ answer, Plain (next (.ok answer))) :
    Plain (.perform address op next)
  | read {address key body next} (hbody : ∀ value, (body value).Computes)
      (hnext : ∀ answer, Plain (next (.ok answer))) : Plain (.read address key body next)
  | update {address key body next} (hbody : ∀ i value, (body i value).Computes)
      (hnext : ∀ answer, Plain (next (.ok answer))) : Plain (.update address key body next)
  | visit {i body next} (hbody : ∀ key value, (body key value).Computes)
      (hnext : Plain (next (.ok ()))) : Plain (.visit i body next)
  | occupancy {i next} (hnext : ∀ o, Plain (next (.ok o))) : Plain (.occupancy i next)
  | slotCount {i next} (hnext : ∀ count, Plain (next (.ok count))) : Plain (.slotCount i next)
  | total {i next} (hnext : ∀ total, Plain (next total)) : Plain (.total i next)
  | policy {i next} (hnext : ∀ policy, Plain (next policy)) : Plain (.policy i next)

theorem Computes.run_ok [BEq K] [ResizePolicy P] {locate : A → K → Fin n × UInt64}
    {program : Program A n K V P M R} (h : program.Computes) (s : Session n S K V P M) :
    ∃ r, (program.run locate s).1 = .ok r := by
  induction h generalizing s with
  | done => exact ⟨_, rfl⟩
  | load _ ih => exact ih s.memory s
  | store _ ih => exact ih _
  | assign _ ih => exact ih _

end Program

namespace Session

open Program

/-! ## Operations that answer -/

/-- The thread has entered nothing, and all shards are sound. -/
structure Ready [BEq K] (s : Session n S K V P M) : Prop where
  free : s.entered = []
  sound : ∀ i, (s.shards.get i).Sound

theorem Ready.holding [BEq K] {s : Session n S K V P M} (h : s.Ready) (i : Fin n) :
    s.holding i = false := by
  rw [← not_mem_entered, h.free]
  exact List.not_mem_nil

theorem Ready.after [BEq K] {s t : Session n S K V P M} (h : s.Ready) (hholds : t.holds = s.holds)
    (hsound : ∀ i, (t.shards.get i).Sound) : t.Ready :=
  ⟨(entered_of_holds hholds).trans h.free, hsound⟩

theorem handEach_ok {visit : K → V → Session n S K V P M → Except Panic R × Session n S K V P M}
    (hvisit : ∀ key value t, ∃ r, (visit key value t).1 = .ok r) (es : List (Entry K V))
    (s : Session n S K V P M) : (handEach visit es s).1 = .ok () := by
  induction es generalizing s with
  | nil => rfl
  | cons e rest ih =>
    obtain ⟨r, hr⟩ := hvisit e.key e.value s
    unfold handEach
    rcases hv : visit e.key e.value s with ⟨result, t⟩
    rw [hv] at hr
    obtain rfl : result = .ok r := hr
    exact ih t

theorem onValue_ok [BEq K] {s : Session n S K V P M} {i : Fin n}
    (hpos : 0 < (s.shards.get i).slots.size) (hash : UInt64) (key : K)
    {body : V → Session n S K V P M → Except Panic R × Session n S K V P M}
    (hbody : ∀ value t, ∃ r, (body value t).1 = .ok r) :
    ∃ r, (onValue i hash key body s).1 = .ok r := by
  unfold onValue
  rw [Shard.value?_of_pos hpos]
  cases ((s.shards.get i).slots.chainAt _).get? hash key with
  | none => exact ⟨none, rfl⟩
  | some value =>
    obtain ⟨r, hr⟩ := hbody value s
    simp only
    rcases hv : body value s with ⟨result, t⟩
    rw [hv] at hr
    obtain rfl : result = .ok r := hr
    exact ⟨some r, rfl⟩

section Stock

variable [BEq K] [EquivBEq K] {s : Session n S K V LoadPolicy M}

theorem Ready.perform (h : s.Ready) (i : Fin n) (hash : UInt64) (op : Operation K V R) :
    ∃ answer t, s.perform i hash op = (.ok answer, t) ∧ t.Ready := by
  obtain ⟨_, _, -, -, -, -, -, -, hanswer⟩ := (h.sound i).perform hash op
  have hok : ∃ answer, (s.perform i hash op).1 = .ok answer := by
    rw [perform_eq (h.holding i)]
    exact ⟨_, hanswer (LoadPolicy.cautious K V _)⟩
  obtain ⟨answer, hok⟩ := hok
  have hsound := (kept_sound fun (_ : Unit) (_ : K) => (i, hash)).performed () op h.sound
  exact ⟨answer, _, Prod.ext hok rfl, h.after (holds_perform s i hash op) hsound⟩

theorem Ready.closure (h : s.Ready) (locate : A → K → Fin n × UInt64) (i : Fin n)
    (hash : UInt64) (key : K) (lent : Option (UInt64 × K))
    {body : V → Program A n K V LoadPolicy M R} (hbody : ∀ value, (body value).Computes) :
    ∃ r t, s.guarded i lent (onValue i hash key fun value t => (body value).run locate t) =
      (.ok r, t) ∧ t.Ready := by
  have hkept := kept_sound (S := S) (R := R) (P := LoadPolicy) (M := M) (V := V) locate
  have hpos : 0 < ((s.enter i lent).shards.get i).slots.size := (h.sound i).pos
  have hcall : ∀ value (t : Session n S K V LoadPolicy M),
      ∃ r, ((body value).run locate t).1 = .ok r := fun value => (hbody value).run_ok
  obtain ⟨r, hok⟩ := onValue_ok hpos hash key hcall
  have hrun := congrArg Prod.fst (guarded_of_free (h.holding i) lent
    (onValue i hash key fun value t => (body value).run locate t))
  have hsound := (hkept.onValue (fun value _ ht => (hkept.passed (body value) ht).1) i hash key lent
    h.sound).2
  refine ⟨r, _, Prod.ext (hrun.trans hok) rfl, h.after ?_ hsound⟩
  exact holds_guarded (holds_onValue fun value => holds_run locate (body value)) i lent s

theorem Ready.visit (h : s.Ready) (locate : A → K → Fin n × UInt64) (i : Fin n)
    {body : K → V → Program A n K V LoadPolicy M R}
    (hbody : ∀ key value, (body key value).Computes) :
    ∃ t, s.visitShard i (fun key value t => (body key value).run locate t) = (.ok (), t) ∧
      t.Ready := by
  have hkept := kept_sound (S := S) (R := R) (P := LoadPolicy) (M := M) (V := V) locate
  have hok : (s.visitShard i fun key value t => (body key value).run locate t).1 = .ok () := by
    rw [visitShard_eq, guarded_of_free (h.holding i)]
    exact handEach_ok (fun key value => (hbody key value).run_ok) _ _
  have hsound := (hkept.onEntries (fun key value _ ht => (hkept.passed (body key value) ht).1) i
    h.sound).2
  refine ⟨_, Prod.ext hok rfl, h.after (holds_guarded (fun t => ?_) i none s) hsound⟩
  exact holds_visitSlots (fun key value => holds_run locate (body key value)) i _ 0 t

end Stock

end Session

namespace Program

open Session

variable [BEq K] [EquivBEq K] {locate : A → K → Fin n × UInt64}

/-- A plain program comes to its end: each of its operations answers, and leaves a session in which
the next one does. -/
theorem Plain.run_ok {program : Program A n K V LoadPolicy M R} (h : program.Plain)
    {s : Session n S K V LoadPolicy M} (hs : s.Ready) : ∃ r, (program.run locate s).1 = .ok r := by
  induction h generalizing s with
  | done => exact ⟨_, rfl⟩
  | load _ ih => exact ih s.memory hs
  | store _ ih => exact ih ⟨hs.free, hs.sound⟩
  | @assign i value next _ ih =>
    have hsound := (kept_sound (R := R) locate).assign i value hs.sound
    exact ih (hs.after (holds_assign s i value) hsound)
  | @perform address op next _ ih =>
    obtain ⟨answer, t, hanswer, ht⟩ :=
      hs.perform (locate address op.key).1 (locate address op.key).2 op
    unfold run
    simp only [hanswer]
    exact ih answer ht
  | @read address key body next hbody _ ih =>
    obtain ⟨answer, t, hanswer, ht⟩ :=
      hs.closure locate (locate address key).1 (locate address key).2 key none hbody
    unfold run
    simp only [hanswer]
    exact ih answer ht
  | @update address key body next hbody _ ih =>
    obtain ⟨answer, t, hanswer, ht⟩ :=
      hs.closure locate (locate address key).1 (locate address key).2 key
        (some ((locate address key).2, key)) (hbody (locate address key).1)
    unfold run
    simp only [hanswer]
    exact ih answer ht
  | @visit i body next hbody _ ih =>
    obtain ⟨t, hanswer, ht⟩ := hs.visit locate i hbody
    unfold run
    simp only [hanswer]
    exact ih ht
  | occupancy _ ih =>
    rw [run_occupancy_free locate (not_mem_entered.2 (hs.holding _))]
    exact ih _ hs
  | slotCount _ ih =>
    rw [run_slotCount_free locate (not_mem_entered.2 (hs.holding _))]
    exact ih _ hs
  | total _ ih => exact ih _ hs
  | policy _ ih => exact ih _ hs

end Program

/-! ## No check fails -/

namespace Session

open Program

/-- Every shard holds fewer slots, and fewer entries, than half of all words. -/
def Moderate (s : Session n S K V P M) : Prop :=
  ∀ i, (s.shards.get i).slots.size < 2 ^ 63 ∧ (s.shards.get i).slots.entryCount < 2 ^ 63

/-- In the session `s`, every operation answers, and no check on its way fails. -/
structure Unfailing [BEq K] (locate : A → K → Fin n × UInt64) (R : Type)
    (s : Session n S K V LoadPolicy M) : Prop where
  /-- A guard finds its shard free, and one entered shard to take away when it is dropped. -/
  guard : ∀ {α : Type} i lent
    (act : Session n S K V LoadPolicy M → Except Panic α × Session n S K V LoadPolicy M),
    (∀ t, (act t).2.holds = t.holds) →
      let inside := (act (s.enter i lent)).2
      s.guarded i lent act = ((act (s.enter i lent)).1, inside.leave i) ∧
        inside.entered.length = (inside.leave i).entered.length + 1
  keyed : ∀ i hash (op : Operation K V R),
    (s.shards.get i).Checked hash op ∧ ∃ answer, (s.perform i hash op).1 = .ok answer
  /-- What `read` and `update` run in the shard of a key. -/
  closure : ∀ i hash key lent (body : V → Program A n K V LoadPolicy M R),
    (∀ value, (body value).Computes) →
      ∃ r, (s.guarded i lent
        (onValue i hash key fun value t => (body value).run locate t)).1 = .ok r
  visit : ∀ i (body : K → V → Program A n K V LoadPolicy M R),
    (∀ key value, (body key value).Computes) →
      (s.visitShard i fun key value t => (body key value).run locate t).1 = .ok ()
  /-- Empty slots are counted one by one. -/
  occupancy : ∀ i,
    (s.guarded i none fun t => (.ok (t.shards.get i).occupancy, t)).1 =
      .ok (s.shards.get i).occupancy ∧
    (s.shards.get i).occupancy.emptySlots < 2 ^ 64
  slotCount : ∀ i,
    (s.guarded i none fun t => (.ok (t.shards.get i).slots.size, t)).1 =
      .ok (s.shards.get i).slots.size
  /-- The totals of all shards add up to the number of entries, if a word can tell that many. -/
  totals : (Shard.allEntries s.shards).length < 2 ^ 64 →
    sumInWords (s.shards.toList.map Shard.total) = some (Shard.allEntries s.shards).length

/-- A thread that has entered nothing finds no check to fail on sound shards with calm policies. -/
theorem Ready.unfailing [BEq K] [EquivBEq K] {s : Session n S K V LoadPolicy M} (h : s.Ready)
    (hcalm : ∀ i, s.CalmAt i) (hmoderate : s.Moderate) (locate : A → K → Fin n × UInt64) :
    s.Unfailing locate R where
  guard i lent act hact := by
    have hfree : i ∉ s.entered := not_mem_entered.2 (h.holding i)
    obtain ⟨hguarded, -, hinside, hleft⟩ := (admits hact s i lent).admitted hfree
    refine ⟨hguarded, ?_⟩
    rw [hinside, hleft]
    rfl
  keyed i hash op := by
    obtain ⟨hslots, hentries⟩ := hmoderate i
    obtain ⟨answer, t, hanswer, -⟩ := h.perform i hash op
    exact ⟨(h.sound i).checked (hcalm i hslots) hslots hentries hash op, answer,
      congrArg Prod.fst hanswer⟩
  closure i hash key lent body hbody := by
    obtain ⟨r, t, hanswer, -⟩ := h.closure locate i hash key lent hbody
    exact ⟨r, congrArg Prod.fst hanswer⟩
  visit i body hbody := by
    obtain ⟨t, hanswer, -⟩ := h.visit locate i hbody
    exact congrArg Prod.fst hanswer
  occupancy i := by
    have hempty : (s.shards.get i).slots.emptyCount ≤ (s.shards.get i).slots.size :=
      Array.countP_le_size
    have hslots := (hmoderate i).1
    refine ⟨congrArg Prod.fst (guarded_of_free (h.holding i) none _), ?_⟩
    show (s.shards.get i).slots.emptyCount < 2 ^ 64
    omega
  slotCount i := congrArg Prod.fst (guarded_of_free (h.holding i) none _)
  totals hentries := by
    rw [sumInWords_eq, Shard.sum_totals h.sound]
    exact if_pos hentries

end Session

end ShardedMap
