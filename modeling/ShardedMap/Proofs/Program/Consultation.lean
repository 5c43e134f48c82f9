import ShardedMap.Proofs.Program.History
import ShardedMap.Proofs.Program.Reentry
import ShardedMap.Proofs.Shard.Consultation
/-
  Policies in programs. In every session that a program passes, an operation consults the policy of
  its shard as one on that shard alone does, and no other policy (`Session.Accountable`). A program
  that only reads makes no call on a policy, whatever closures it has (`Passive.quiet`), and from
  one session passed to the next, no call is made but by one keyed operation (`calls_accounted`).
-/
namespace ShardedMap

variable {S : Type → Type} {H : Type} [DecidableEq H] [Storage S H] [LawfulStorage S H]

variable {A : Type} {n : Nat} {K V P M R α : Type}

namespace Session

/-! ## Calls in a session -/

/-- The calls made so far on the policy of shard `i`, oldest first. -/
def calls (s : Session n S K V P M) (i : Fin n) : List PolicyCall :=
  callsOf ((s.events.reverse.filter (·.1 == i)).map Prod.snd)

theorem calls_note_self (s : Session n S K V P M) (i : Fin n) (events : List PolicyEvent) :
    (s.note i events).calls i = s.calls i ++ callsOf events := by
  have hself : ((events.map fun e => (i, e)).filter (·.1 == i)).map Prod.snd = events := by
    rw [List.filter_map, List.map_map]
    simp [Function.comp_def]
  unfold calls note
  rw [List.reverse_append, List.reverse_reverse, List.filter_append, List.map_append, hself]
  exact List.filterMap_append

theorem calls_note_ne (s : Session n S K V P M) {i j : Fin n} (h : j ≠ i)
    (events : List PolicyEvent) : (s.note i events).calls j = s.calls j := by
  have hnone : (events.map fun e => (i, e)).filter (·.1 == j) = [] := by
    rw [List.filter_map]
    simp [Function.comp_def, h.symm]
  unfold calls note
  rw [List.reverse_append, List.reverse_reverse, List.filter_append, hnone, List.append_nil]

/-- From `s` to `t`, no call was made on a policy, and no policy changed. -/
structure Quiet (s t : Session n S K V P M) : Prop where
  calls : ∀ i, t.calls i = s.calls i
  policies : ∀ i, (t.shards.get i).policy = (s.shards.get i).policy

theorem Quiet.refl (s : Session n S K V P M) : s.Quiet s := ⟨fun _ => rfl, fun _ => rfl⟩

theorem Quiet.trans {s t u : Session n S K V P M} (h : s.Quiet t) (h' : t.Quiet u) : s.Quiet u :=
  ⟨fun i => (h'.calls i).trans (h.calls i), fun i => (h'.policies i).trans (h.policies i)⟩

theorem quiet_assign [BEq K] (s : Session n S K V P M) (i : Fin n) (value : V) :
    s.Quiet (s.assign i value) := by
  unfold assign
  split
  · exact .refl s
  · rename_i hash key _
    rw [onShard_replace]
    refine ⟨fun _ => rfl, fun j => ?_⟩
    by_cases hij : i = j
    · subst hij
      rw [get_replace_self]
      exact ((s.shards.get i).sameBut_assign hash key value).policy
    · rw [get_replace_ne s hij]

theorem quiet_guarded {act : Session n S K V P M → Except Panic α × Session n S K V P M}
    (hact : ∀ t : Session n S K V P M, t.Quiet (act t).2) (s : Session n S K V P M) (i : Fin n)
    (lent : Option (UInt64 × K)) : s.Quiet (s.guarded i lent act).2 := by
  cases h : s.holding i with
  | true =>
    rw [guarded_of_holding h]
    exact .refl s
  | false =>
    rw [guarded_of_free h]
    exact ⟨(hact (s.enter i lent)).calls, (hact (s.enter i lent)).policies⟩

variable [BEq K] [ResizePolicy P]

/-- A keyed operation on a free shard, told by the shard. -/
theorem quiet_perform_of_silent {s : Session n S K V P M} {i : Fin n} {hash : UInt64}
    {op : Operation K V R}
    (h : i ∉ s.entered → callsOf ((s.shards.get i).perform hash op).2.2 = [] ∧
      ((s.shards.get i).perform hash op).2.1.policy = (s.shards.get i).policy) :
    s.Quiet (s.perform i hash op).2 := by
  by_cases hi : i ∈ s.entered
  · rw [perform_of_holding (mem_entered.1 hi)]
    exact .refl s
  · obtain ⟨hcalls, hpolicy⟩ := h hi
    rw [perform_eq (not_mem_entered.1 hi)]
    constructor
    · intro j
      by_cases hij : j = i
      · subst hij
        rw [calls_note_self, hcalls, List.append_nil]
        rfl
      · rw [calls_note_ne _ hij]
        rfl
    · intro j
      by_cases hij : i = j
      · subst hij
        rw [shards_note, get_replace_self]
        exact hpolicy
      · rw [shards_note, get_replace_ne s hij]

end Session

/-! ## Programs that only read -/

namespace Program

open Session

/-- Programs, and closures to any depth, whose keyed operations put no entry in place and take none
out. -/
inductive Passive : Program A n K V P M R → Prop where
  | done {result} : Passive (.done result)
  | panic {p} : Passive (.panic p)
  | load {next} (hnext : ∀ memory, Passive (next memory)) : Passive (.load next)
  | store {memory next} (hnext : Passive next) : Passive (.store memory next)
  | assign {i value next} (hnext : Passive next) : Passive (.assign i value next)
  | perform {address op next} (hop : ∀ present, op.mutates present = false)
      (hnext : ∀ answer, Passive (next answer)) : Passive (.perform address op next)
  | read {address key body next} (hbody : ∀ value, Passive (body value))
      (hnext : ∀ answer, Passive (next answer)) : Passive (.read address key body next)
  | update {address key body next} (hbody : ∀ i value, Passive (body i value))
      (hnext : ∀ answer, Passive (next answer)) : Passive (.update address key body next)
  | visit {i body next} (hbody : ∀ key value, Passive (body key value))
      (hnext : ∀ answer, Passive (next answer)) : Passive (.visit i body next)
  | occupancy {i next} (hnext : ∀ answer, Passive (next answer)) : Passive (.occupancy i next)
  | slotCount {i next} (hnext : ∀ answer, Passive (next answer)) : Passive (.slotCount i next)
  | total {i next} (hnext : ∀ total, Passive (next total)) : Passive (.total i next)
  | policy {i next} (hnext : ∀ policy, Passive (next policy)) : Passive (.policy i next)

section AllShards

theorem passive_visitAll {body : K → V → Program A n K V P M R}
    {next : Except Panic Unit → Program A n K V P M R}
    (hbody : ∀ key value, (body key value).Passive) (hnext : ∀ answer, (next answer).Passive)
    (shards : List (Fin n)) : (visitAll body next shards).Passive := by
  induction shards with
  | nil => exact hnext _
  | cons i rest ih =>
    refine .visit hbody ?_
    rintro (p | _)
    · exact hnext _
    · exact ih

theorem passive_occupancyAll {next : Except Panic (List Occupancy) → Program A n K V P M R}
    (hnext : ∀ answer, (next answer).Passive) (shards : List (Fin n)) :
    (occupancyAll next shards).Passive := by
  induction shards generalizing next with
  | nil => exact hnext _
  | cons i rest ih =>
    refine .occupancy ?_
    rintro (p | o)
    · exact hnext _
    · exact ih fun _ => hnext _

theorem passive_slotCountAll {next : Except Panic (List Nat) → Program A n K V P M R}
    (hnext : ∀ answer, (next answer).Passive) (shards : List (Fin n)) :
    (slotCountAll next shards).Passive := by
  induction shards generalizing next with
  | nil => exact hnext _
  | cons i rest ih =>
    refine .slotCount ?_
    rintro (p | c)
    · exact hnext _
    · exact ih fun _ => hnext _

theorem passive_totalAll {next : List Nat → Program A n K V P M R}
    (hnext : ∀ totals, (next totals).Passive) (shards : List (Fin n)) :
    (totalAll next shards).Passive := by
  induction shards generalizing next with
  | nil => exact hnext _
  | cons i rest ih => exact .total fun _ => ih fun _ => hnext _

end AllShards

/-! ### No calls -/

theorem quiet_onValue [BEq K]
    {body : V → Session n S K V P M → Except Panic R × Session n S K V P M}
    (hbody : ∀ value (t : Session n S K V P M), t.Quiet (body value t).2) (i : Fin n)
    (hash : UInt64) (key : K) (lent : Option (UInt64 × K)) (s : Session n S K V P M) :
    s.Quiet (s.guarded i lent (onValue i hash key body)).2 :=
  quiet_guarded (fun t => onValue_keeps (fun value _ hu => hu.trans (hbody value _)) (.refl t)) s i
    lent

theorem quiet_visitShard
    {visit : K → V → Session n S K V P M → Except Panic R × Session n S K V P M}
    (hvisit : ∀ key value (t : Session n S K V P M), t.Quiet (visit key value t).2) (i : Fin n)
    (s : Session n S K V P M) :
    s.Quiet (s.visitShard i visit).2 :=
  quiet_guarded (fun t => visitSlots_keeps (fun key value _ hu => hu.trans (hvisit key value _))
    i _ 0 (.refl t)) s i none

variable [BEq K] [ResizePolicy P] {locate : A → K → Fin n × UInt64}

/-- A program that only reads makes no call on a policy. -/
theorem Passive.quiet {program : Program A n K V P M R} (h : program.Passive)
    (s : Session n S K V P M) : s.Quiet (program.run locate s).2 := by
  induction h generalizing s with
  | done | panic => exact .refl s
  | load _ ih => exact ih s.memory s
  | @store memory next _ ih =>
    have hstore : s.Quiet { s with memory } := ⟨fun _ => rfl, fun _ => rfl⟩
    exact hstore.trans (ih _)
  | assign _ ih => exact (quiet_assign s _ _).trans (ih _)
  | perform hop _ ih =>
    exact (quiet_perform_of_silent fun _ => Shard.perform_silent _ hop).trans (ih _ _)
  | read _ _ ihb ihn => exact (quiet_onValue ihb _ _ _ none s).trans (ihn _ _)
  | update _ _ ihb ihn => exact (quiet_onValue (ihb _) _ _ _ (some _) s).trans (ihn _ _)
  | visit _ _ ihb ihn => exact (quiet_visitShard ihb _ s).trans (ihn _ _)
  | @occupancy i next _ ih =>
    have hstep : s.Quiet (s.guarded i none fun s => (.ok (s.shards.get i).occupancy, s)).2 :=
      quiet_guarded .refl s i none
    exact hstep.trans (ih _ _)
  | @slotCount i next _ ih =>
    have hstep : s.Quiet (s.guarded i none fun s => (.ok (s.shards.get i).slots.size, s)).2 :=
      quiet_guarded .refl s i none
    exact hstep.trans (ih _ _)
  | total _ ih => exact ih _ s
  | policy _ ih => exact ih _ s

end Program

/-! ## Every session of a program -/

namespace Session

variable [BEq K] [ResizePolicy P]

/-- In the session `s`, every operation accounts for the calls that it makes on policies. -/
structure Accountable (locate : A → K → Fin n × UInt64) (R : Type) (s : Session n S K V P M) :
    Prop where
  /-- A keyed operation that puts an entry in place or takes one out consults the policy of its
  shard, once and about the chain that it worked on. It does nothing else to this policy, and
  nothing at all to the other shards. -/
  mutation : ∀ i hash (op : Operation K V R), i ∉ s.entered →
    op.mutates ((s.shards.get i).has hash op.key) = true →
    let shard := s.shards.get i
    let accessed := (shard.access hash op).2
    let t := (s.perform i hash op).2
    let after := t.shards.get i
    (∃ record, t.calls i = s.calls i ++ record.map Prod.fst ∧
      Recorded ⟨accessed.slots, shard.policy⟩ after.bench record ∧
      Consultation after.slots.entryCount
        (accessed.slots.chainAt (Slots.home hash shard.slots.size)).size shard.slots.size
        after.slots.size op.removes record) ∧
    ∀ j, j ≠ i → t.calls j = s.calls j ∧ t.shards.get j = s.shards.get j
  /-- A keyed operation that does neither makes no call, and nor does one whose shard the thread has
  entered. -/
  silence : ∀ i hash (op : Operation K V R),
    i ∈ s.entered ∨ op.mutates ((s.shards.get i).has hash op.key) = false →
      s.Quiet (s.perform i hash op).2
  /-- An answer tells whether its operation put an entry in place or took one out. -/
  answer : ∀ i hash (op : Operation K V R) answer, (s.perform i hash op).1 = .ok answer →
    op.mutated answer = op.mutates ((s.shards.get i).has hash op.key)
  /-- Reading, inside closures too, makes no call. -/
  passive : ∀ program : Program A n K V P M R, program.Passive →
    s.Quiet (program.run locate s).2
  visitAll : ∀ (body : K → V → Program A n K V P M R) next (shards : List (Fin n)),
    (∀ key value, (body key value).Passive) → (∀ answer, (next answer).Passive) →
      s.Quiet ((Program.visitAll body next shards).run locate s).2
  occupancyAll : ∀ (next : _ → Program A n K V P M R) (shards : List (Fin n)),
    (∀ answer, (next answer).Passive) →
      s.Quiet ((Program.occupancyAll next shards).run locate s).2
  slotCountAll : ∀ (next : _ → Program A n K V P M R) (shards : List (Fin n)),
    (∀ answer, (next answer).Passive) →
      s.Quiet ((Program.slotCountAll next shards).run locate s).2
  totalAll : ∀ (next : _ → Program A n K V P M R) (shards : List (Fin n)),
    (∀ totals, (next totals).Passive) →
      s.Quiet ((Program.totalAll next shards).run locate s).2
  /-- The text of a map takes the totals of its shards and then their occupancy. -/
  display : ∀ (next : _ → _ → Program A n K V P M R) (shards : List (Fin n)),
    (∀ totals answer, (next totals answer).Passive) →
      let shown := Program.totalAll (fun totals => Program.occupancyAll (next totals) shards) shards
      s.Quiet (shown.run locate s).2

variable [EquivBEq K]

theorem accountable (locate : A → K → Fin n × UInt64) {s : Session n S K V P M}
    (hs : ∀ i, (s.shards.get i).Sound) : s.Accountable locate R where
  mutation i hash op hfree hmutates := by
    obtain ⟨record, hcalls, hrecorded, hrecord⟩ := ((hs i).perform_consults hash op).1 hmutates
    simp only [perform_eq (not_mem_entered.1 hfree), shards_note, get_replace_self,
      calls_note_self]
    refine ⟨⟨record, congrArg (s.calls i ++ ·) hcalls, hrecorded, hrecord⟩, ?_⟩
    intro j hj
    rw [calls_note_ne _ hj, get_replace_ne s hj.symm]
    exact ⟨rfl, rfl⟩
  silence i hash op h := by
    apply quiet_perform_of_silent
    intro hfree
    exact ((hs i).perform_consults hash op).2.1 (h.resolve_left hfree)
  answer i hash op answer h := by
    by_cases hi : i ∈ s.entered
    · rw [perform_of_holding (mem_entered.1 hi)] at h
      cases h
    · rw [perform_eq (not_mem_entered.1 hi)] at h
      exact ((hs i).perform_consults hash op).2.2 answer h
  passive program h := h.quiet s
  visitAll body next shards hbody hnext := (Program.passive_visitAll hbody hnext shards).quiet s
  occupancyAll next shards hnext := (Program.passive_occupancyAll hnext shards).quiet s
  slotCountAll next shards hnext := (Program.passive_slotCountAll hnext shards).quiet s
  totalAll next shards hnext := (Program.passive_totalAll hnext shards).quiet s
  display next shards hnext :=
    (Program.passive_totalAll
      (fun totals => Program.passive_occupancyAll (hnext totals) shards) shards).quiet s

omit [EquivBEq K] in
/-- All that a program does at once is a keyed operation on a free shard, or makes no call. -/
theorem steps_quiet (locate : A → K → Fin n × UInt64) :
    Program.Steps locate R fun s t : Session n S K V P M => s.Quiet t ∨
      ∃ i hash, ∃ op : Operation K V R, i ∉ s.entered ∧ t = (s.perform i hash op).2 where
  refl s := .inl (.refl s)
  store _ _ := .inl ⟨fun _ => rfl, fun _ => rfl⟩
  assign s i value := .inl (quiet_assign s i value)
  enter _ _ _ := .inl ⟨fun _ => rfl, fun _ => rfl⟩
  leave _ _ := .inl ⟨fun _ => rfl, fun _ => rfl⟩
  perform _ _ op h := .inr ⟨_, _, op, not_mem_entered.2 h, rfl⟩

end Session

namespace Program

open Session

variable [BEq K] [EquivBEq K] [ResizePolicy P]

/-- Shards that were fresh in the beginning, with policies that answer whatever they like. In every
session that a program passes, inside its closures too and whatever panics, each operation accounts
for the calls that it makes on policies: a keyed operation that puts an entry in place or takes one
out consults the policy of its shard, and no other operation makes a call. From one session passed
to the next there is no call but those of one keyed operation. A fresh shard has told its policy the
slot count. -/
theorem calls_accounted {shards : Vector (Shard S K V P) n}
    (hfresh : ∀ i, ∃ slotCount policy, 0 < slotCount ∧
      shards.get i = Shard.fresh slotCount policy)
    (memory : M) (locate : A → K → Fin n × UInt64) (program : Program A n K V P M R) :
    let passed := program.passed locate (.start shards memory)
    (∀ s ∈ passed, s.Accountable locate R) ∧
    passed.IsChain (fun s t => s.Quiet t ∨
      ∃ i hash, ∃ op : Operation K V R, i ∉ s.entered ∧ t = (s.perform i hash op).2) ∧
    ∀ slotCount (policy : P),
      callsOf (Shard.openingEvents slotCount) = [.recompute 0 slotCount] ∧
      Recorded ⟨Slots.vacant slotCount, policy⟩
        (Shard.fresh slotCount policy : Shard S K V P).bench
        [(.recompute 0 slotCount, .recomputed)] := by
  intro passed
  have hsound := sound_passed hfresh memory locate program
  refine ⟨fun s hs => accountable locate (hsound s hs), ?_, fun slotCount policy => ⟨rfl, rfl⟩⟩
  exact ((steps_quiet locate).goes_passed program _).chain

/-- A put that makes two slots four, as no slot may hold anything, and a refused insertion. -/
theorem calls_accounted_doubled :
    let shards : Vector (Shard Arena Nat Nat LoadPolicy) 1 :=
      #v[Shard.fresh 2 (LoadPolicy.ofSettings ⟨.standard, 2, 0⟩)]
    let start : Session 1 Arena Nat Nat LoadPolicy Unit := .start shards ()
    let s := (start.perform 0 1 (.put 1 5 : Operation Nat Nat Unit)).2
    s.calls 0 = [.inspect 1 1, .ask .overweight 2, .resize .overweight, .recompute 1 4] ∧
    (∃ record, s.calls 0 = start.calls 0 ++ record.map Prod.fst ∧
      Consultation 1 1 2 4 false record) ∧
    s.Quiet (s.perform 0 1 (.insertNew 1 7 : Operation Nat Nat Unit)).2 := by
  intro shards start s
  let put : Operation Nat Nat Unit := .put 1 5
  let insert : Operation Nat Nat Unit := .insertNew 1 7
  let program : Program Unit 1 Nat Nat LoadPolicy Unit Unit :=
    .perform () put fun _ => .perform () insert fun _ => .done ()
  have hfresh : ∀ i, ∃ slotCount policy, 0 < slotCount ∧
      shards.get i = Shard.fresh slotCount policy := by
    intro i
    obtain rfl : i = 0 := Subsingleton.elim i 0
    exact ⟨2, LoadPolicy.ofSettings ⟨.standard, 2, 0⟩, by decide, rfl⟩
  let locate : Unit → Nat → Fin 1 × UInt64 := fun _ _ => (0, 1)
  have hpassed : start ∈ program.passed locate start ∧ s ∈ program.passed locate start := by
    simp [program, passed, locate, s, put]
  obtain ⟨haccountable, -, -⟩ := calls_accounted hfresh () locate program
  have hstart := haccountable start hpassed.1
  have hnext := haccountable s hpassed.2
  obtain ⟨⟨record, hcalls, -, hrecord⟩, -⟩ := hstart.mutation 0 1 put nofun rfl
  have hcount : ((start.perform 0 1 put).2.shards.get 0).slots.entryCount = 1 := by decide +kernel
  have hsize : ((start.perform 0 1 put).2.shards.get 0).slots.size = 4 := by decide +kernel
  have hslots : (start.shards.get 0).slots.size = 2 := by decide +kernel
  have hhome : Slots.home 1 2 = 1 := by decide
  have hchain : (((start.shards.get 0).access 1 put).2.slots.chainAt 1).size = 1 := by
    decide +kernel
  have hremoves : put.removes = false := rfl
  rw [hcount, hsize, hslots, hhome, hchain, hremoves] at hrecord
  have hstored : insert.mutates ((s.shards.get 0).has 1 insert.key) = false := by decide +kernel
  exact ⟨by decide +kernel, ⟨record, hcalls, hrecord⟩, hnext.silence 0 1 insert (.inr hstored)⟩

end Program

end ShardedMap
