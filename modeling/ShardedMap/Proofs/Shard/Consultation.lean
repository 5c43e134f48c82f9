import ShardedMap.Policy.Bench
import ShardedMap.Proofs.Shard.Access
import ShardedMap.Proofs.Shard.Perform
/-
  What a shard asks of its policy. After an operation that put an entry in place or took one out,
  the shard consults the policy once, and each further question hangs on the answer to the one
  before it (`Consultation`); after any other operation it asks nothing (`Sound.perform_consults`).
  The record of questions and answers is that of a policy to which just these calls are made
  (`Recorded`), so the policy is changed by nothing else. None of this depends on what the policy
  answers.
-/
namespace ShardedMap

variable {S : Type → Type} {H : Type} [DecidableEq H] [Storage S H] [LawfulStorage S H]

variable {K V P R : Type}

/-! ## What operations change -/

namespace Operation

/-- Whether an operation puts an entry in place or takes one out, going by whether one for its key
is present. -/
def mutates : Operation K V R → Bool → Bool
  | put _ _, _ => true
  | insertNew _ _, present => !present
  | remove _, present | delete _, present => present
  | get _, _ | contains _, _ | read _ _, _ | update _ _, _ => false

/-- Whether an operation takes entries out. -/
def removes : Operation K V R → Bool
  | remove _ | delete _ => true
  | put _ _ | insertNew _ _ | get _ | contains _ | read _ _ | update _ _ => false

/-- An operation reports if and only if it puts an entry in place or takes one out. -/
theorem reportOf_onEntry (hash : UInt64) (op : Operation K V R) (found : Option (Entry K V))
    (size slotCount : Nat) :
    Shard.reportOf size slotCount (op.onEntry hash found).1.2 =
      if op.mutates found.isSome then some ⟨size, slotCount, op.removes⟩ else none := by
  cases found <;> cases op <;> rfl

/-- What reads, and computes a new value at most, mutates nothing, however it is answered. -/
theorem mutated_eq_false {op : Operation K V R} (h : ∀ present, op.mutates present = false)
    (answer : Answer V R) : op.mutated answer = false := by
  cases op with
  | put => exact absurd (h true) nofun
  | insertNew => exact absurd (h false) nofun
  | remove | delete => exact absurd (h true) nofun
  | get | contains | read | update => rfl

theorem mutated_eq_mutates (hash : UInt64) (op : Operation K V R) (found : Option (Entry K V)) :
    op.mutated (op.onEntry hash found).1.1 = op.mutates found.isSome := by
  cases found <;> cases op <;> rfl

end Operation

namespace Shard

variable [BEq K]

/-- Whether an entry for `key` under `hash` is stored, wherever. -/
def has (s : Shard S K V P) (hash : UInt64) (key : K) : Bool :=
  s.slots.entries.any (Entry.isFor hash key)

theorem has_eq_isSome {s : Shard S K V P} {hash : UInt64} {key : K} {found : Option (Entry K V)}
    {rest : List (Entry K V)} (hbefore : s.slots.entries.Perm (found.toList ++ rest))
    (hhit : ∀ e ∈ found, e.isFor hash key = true) (hmiss : ∀ e ∈ rest, e.isFor hash key = false) :
    s.has hash key = found.isSome := by
  have hrest : rest.any (Entry.isFor hash key) = false := by
    simpa using hmiss
  unfold has
  rw [hbefore.any_eq, List.any_append, hrest, Bool.or_false]
  cases found with
  | none => rfl
  | some e => simpa using hhit e rfl

end Shard

/-! ## Records of calls -/

/-- The call that an event tells of. What becomes of a target is the shard's doing and no call. -/
def PolicyEvent.call? : PolicyEvent → Option PolicyCall
  | recomputed total slotCount => some (.recompute total slotCount)
  | inspected total size => some (.inspect total size)
  | asked verdict slotCount => some (.ask verdict slotCount)
  | planned verdict _ => some (.resize verdict)
  | resized .. => none

/-- The calls on a policy among what happened. -/
def callsOf (events : List PolicyEvent) : List PolicyCall := events.filterMap PolicyEvent.call?

theorem Slots.callsOf_carryOut (slots : Slots S K V) (targets : List Nat) :
    callsOf (slots.carryOut targets).2.2 = [] := by
  induction targets generalizing slots with
  | nil => rfl
  | cons target rest ih =>
    unfold carryOut
    rcases slots.resize target with ⟨_ | moved, slots⟩
    · rfl
    · exact ih slots

/-- What a verdict counts as after an operation that left `size` entries in its slot: a removal that
emptied the slot makes it underweight if it was normal. -/
def Verdict.weighed (verdict : Verdict) (removed : Bool) (size : Nat) : Verdict :=
  if verdict = .normal ∧ removed ∧ size = 0 then .underweight else verdict

/-- A consultation of a policy in a shard of `total` entries and `slotCount` slots, one of which an
operation left with `size` entries, up to the slot count `after`. It is shown the size and judges
it. Unless the verdict counts as normal, it is asked whether it wants a resize; if it wants one, it
makes one; and if that changed the slots, it learns the total and the new slot count. -/
inductive Consultation (total size slotCount after : Nat) (removed : Bool) :
    List (PolicyCall × PolicyAnswer) → Prop where
  | normal {v : Verdict} (weighed : v.weighed removed size = .normal) :
    Consultation total size slotCount after removed [(.inspect total size, .judged v)]
  | refused {v w : Verdict} (weighed : v.weighed removed size = w) (abnormal : w ≠ .normal) :
    Consultation total size slotCount after removed
      [(.inspect total size, .judged v), (.ask w slotCount, .wanted false)]
  | panicked {v w : Verdict} {p : Panic} (weighed : v.weighed removed size = w)
      (abnormal : w ≠ .normal) :
    Consultation total size slotCount after removed
      [(.inspect total size, .judged v), (.ask w slotCount, .wanted true),
        (.resize w, .panicked p)]
  | unchanged {v w : Verdict} (weighed : v.weighed removed size = w) (abnormal : w ≠ .normal) :
    Consultation total size slotCount after removed
      [(.inspect total size, .judged v), (.ask w slotCount, .wanted true),
        (.resize w, .resized false)]
  | changed {v w : Verdict} (weighed : v.weighed removed size = w) (abnormal : w ≠ .normal) :
    Consultation total size slotCount after removed
      [(.inspect total size, .judged v), (.ask w slotCount, .wanted true),
        (.resize w, .resized true), (.recompute total after, .recomputed)]

section Policy

variable [ResizePolicy P]

/-- The calls of a record, made one after another, are answered as it says and lead from `b` to
`b'`. -/
def Recorded (b b' : Bench S K V P) (record : List (PolicyCall × PolicyAnswer)) : Prop :=
  PolicyCall.runAll b (record.map Prod.fst) = (record.map Prod.snd, b')

theorem Recorded.nil (b : Bench S K V P) : Recorded b b [] := rfl

theorem Recorded.cons {b b' b'' : Bench S K V P} {call : PolicyCall} {answer : PolicyAnswer}
    {record : List (PolicyCall × PolicyAnswer)} (h : call.run b = (answer, b'))
    (h' : Recorded b' b'' record) : Recorded b b'' ((call, answer) :: record) := by
  unfold Recorded at h' ⊢
  simp only [List.map_cons, PolicyCall.runAll, h, h']

namespace Shard

/-- The slots and the policy of a shard. -/
def bench (s : Shard S K V P) : Bench S K V P := ⟨s.slots, s.policy⟩

theorem resize_recorded (s : Shard S K V P) (v : Verdict) :
    ∃ record, callsOf (s.resize v).2.2 = record.map Prod.fst ∧
      Recorded s.bench (s.resize v).2.1.bench record ∧
      ((∃ p, record = [(.resize v, .panicked p)]) ∨ record = [(.resize v, .resized false)] ∨
        record = [(.resize v, .resized true),
          (.recompute s.total (s.resize v).2.1.slots.size, .recomputed)]) := by
  let plan := ResizePolicy.plan s.policy v s.slots
  have hcalls := s.slots.callsOf_carryOut plan.targets
  unfold resize
  rcases hc : s.slots.carryOut plan.targets with ⟨p | _, slots, events⟩
  · have hrun : (PolicyCall.resize v).run s.bench = (.panicked p, ⟨slots, plan.next⟩) := by
      simp only [PolicyCall.run, bench, plan, hc]
    simp only [plan, hc] at hcalls ⊢
    exact ⟨[(.resize v, .panicked p)], congrArg (PolicyCall.resize v :: ·) hcalls,
      .cons hrun (.nil _), .inl ⟨p, rfl⟩⟩
  · have hrun : (PolicyCall.resize v).run s.bench =
        (.resized plan.changed, ⟨slots, plan.next⟩) := by
      simp only [PolicyCall.run, bench, plan, hc]
    cases hchanged : plan.changed with
    | false =>
      rw [hchanged] at hrun
      simp only [plan, hc, hchanged, Bool.false_eq_true, if_false] at hcalls ⊢
      exact ⟨[(.resize v, .resized false)], congrArg (PolicyCall.resize v :: ·) hcalls,
        .cons hrun (.nil _), .inr (.inl rfl)⟩
    | true =>
      rw [hchanged] at hrun
      simp only [plan, hc, hchanged, if_true] at hcalls ⊢
      refine ⟨_, ?_, .cons hrun (.cons rfl (.nil _)), .inr (.inr rfl)⟩
      simp only [callsOf, List.cons_append, List.filterMap_cons, PolicyEvent.call?,
        List.filterMap_append]
      exact congrArg (PolicyCall.resize v :: · ++ [_]) hcalls

theorem settle_recorded (s : Shard S K V P) (r : Report) :
    ∃ record, callsOf (s.settle r).2.2 = record.map Prod.fst ∧
      Recorded s.bench (s.settle r).2.1.bench record ∧
      Consultation s.total r.size r.slotCount (s.settle r).2.1.slots.size r.removed record := by
  have hinspect : (PolicyCall.inspect s.total r.size).run s.bench =
      (.judged (ResizePolicy.inspect s.policy s.total r.size).1, (s.inspect r).2.bench) := rfl
  have hweighed : (ResizePolicy.inspect s.policy s.total r.size).1.weighed r.removed r.size =
      (s.inspect r).1 := rfl
  have htotal : (s.inspect r).2.total = s.total := rfl
  unfold settle
  rcases hx : s.inspect r with ⟨w, s₁⟩
  rw [hx] at hinspect hweighed htotal
  simp only at hinspect hweighed htotal ⊢
  by_cases hnormal : w = .normal
  · rw [if_pos hnormal]
    exact ⟨_, rfl, .cons hinspect (.nil _), .normal (hweighed.trans hnormal)⟩
  · have hask : (PolicyCall.ask w r.slotCount).run s₁.bench =
        (.wanted (s₁.wants w r.slotCount).1, (s₁.wants w r.slotCount).2.bench) := rfl
    have htotal' : (s₁.wants w r.slotCount).2.total = s.total := htotal
    rw [if_neg hnormal]
    rcases hy : s₁.wants w r.slotCount with ⟨wanted, s₂⟩
    rw [hy] at hask htotal'
    simp only at hask htotal' ⊢
    cases wanted with
    | false =>
      exact ⟨_, rfl, .cons hinspect (.cons hask (.nil _)), .refused hweighed hnormal⟩
    | true =>
      obtain ⟨record, hcalls, hrecorded, hrecord⟩ := s₂.resize_recorded w
      rw [htotal'] at hrecord
      refine ⟨(.inspect s.total r.size, .judged _) :: (.ask w r.slotCount, .wanted true) :: record,
        ?_, .cons hinspect (.cons hask hrecorded), ?_⟩
      · exact congrArg (fun calls => PolicyCall.inspect s.total r.size ::
          PolicyCall.ask w r.slotCount :: calls) hcalls
      · obtain ⟨p, rfl⟩ | rfl | rfl := hrecord
        · exact .panicked hweighed hnormal
        · exact .unchanged hweighed hnormal
        · exact .changed hweighed hnormal

/-! ## Operations -/

variable [BEq K]

/-- An operation that mutates nothing consults no policy, on a sound shard or not. -/
theorem perform_silent (s : Shard S K V P) {hash : UInt64} {op : Operation K V R}
    (h : ∀ present, op.mutates present = false) :
    callsOf (s.perform hash op).2.2 = [] ∧ (s.perform hash op).2.1.policy = s.policy := by
  have htouched := s.touched_access hash op
  have hpolicy := htouched.policy
  unfold Shard.perform
  rcases hx : s.access hash op with ⟨p | ⟨answer, _ | r⟩, s₁⟩
  · rw [hx] at hpolicy
    exact ⟨rfl, hpolicy⟩
  · rw [hx] at hpolicy
    exact ⟨rfl, hpolicy⟩
  · have hmutated := (htouched.reported answer r (congrArg Prod.fst hx)).2.1
    rw [Operation.mutated_eq_false h] at hmutated
    cases hmutated

/-- The size in which an access leaves the slot that `hash` belongs to. -/
def sizeLeft (s : Shard S K V P) (hash : UInt64) (op : Operation K V R) : Nat :=
  ((s.access hash op).2.slots.chainAt (Slots.home hash s.slots.size)).size

variable [EquivBEq K]

/-- An operation on a sound shard that puts an entry in place or takes one out is an access and a
report of the size that it leaves; any other is an access. -/
theorem Sound.perform_eq_settle {s : Shard S K V P} (hs : s.Sound) (hash : UInt64)
    (op : Operation K V R) :
    ∃ answer, op.mutated answer = op.mutates (s.has hash op.key) ∧
      ((op.mutated answer = false ∧ s.perform hash op = (.ok answer, (s.access hash op).2, [])) ∨
        (op.mutated answer = true ∧ ∃ r : Report,
          r.size = s.sizeLeft hash op ∧ r.slotCount = s.slots.size ∧ r.removed = op.removes ∧
          (r.removed = false → 0 < r.size) ∧
          s.perform hash op = (((s.access hash op).2.settle r).1.map fun () => answer,
            ((s.access hash op).2.settle r).2))) := by
  obtain ⟨found, rest, hacc, hanswer, -⟩ := hs.access hash op
  have hreported := (s.touched_access hash op).reported
  rw [has_eq_isSome hacc.before hacc.hit hacc.miss, ← op.mutated_eq_mutates hash found]
  rw [Operation.reportOf_onEntry, ← op.mutated_eq_mutates hash found] at hanswer
  refine ⟨(op.onEntry hash found).1.1, rfl, ?_⟩
  unfold sizeLeft Shard.perform
  rcases hx : s.access hash op with ⟨result, s₁⟩
  rw [hx] at hanswer hreported
  simp only at hanswer hreported
  cases hmutated : op.mutated (op.onEntry hash found).1.1 with
  | false =>
    rw [hmutated] at hanswer
    rw [hanswer]
    exact .inl ⟨rfl, rfl⟩
  | true =>
    rw [hmutated, if_pos rfl] at hanswer
    obtain ⟨-, -, hcount, hsize, -, hkept⟩ := hreported _ _ hanswer
    rw [hanswer]
    exact .inr ⟨rfl, _, hsize, hcount, rfl, hkept, rfl⟩

/-- An operation on a sound shard that puts an entry in place or takes one out is followed by one
consultation, about the chain that it worked on as it left it and with the number of entries in the
shard; any other operation by none. Nothing but these calls changes the policy. -/
theorem Sound.perform_consults {s : Shard S K V P} (hs : s.Sound) (hash : UInt64)
    (op : Operation K V R) :
    let accessed := (s.access hash op).2
    let done := s.perform hash op
    (op.mutates (s.has hash op.key) = true →
      ∃ record, callsOf done.2.2 = record.map Prod.fst ∧
        Recorded ⟨accessed.slots, s.policy⟩ done.2.1.bench record ∧
        Consultation done.2.1.slots.entryCount
          (accessed.slots.chainAt (Slots.home hash s.slots.size)).size s.slots.size
          done.2.1.slots.size op.removes record) ∧
    (op.mutates (s.has hash op.key) = false →
      callsOf done.2.2 = [] ∧ done.2.1.policy = s.policy) ∧
    ∀ answer, done.1 = .ok answer → op.mutated answer = op.mutates (s.has hash op.key) := by
  obtain ⟨_, _, hacc, -, hsound⟩ := hs.access hash op
  intro accessed done
  obtain ⟨answer, hanswer, ⟨hmutated, hperform⟩ |
    ⟨hmutated, r, hsize, hslots, hremoves, -, hperform⟩⟩ := hs.perform_eq_settle hash op
  · rw [← hanswer, hmutated]
    simp only [done, hperform]
    refine ⟨nofun, fun _ => ⟨rfl, hacc.policy⟩, ?_⟩
    rintro _ ⟨⟩
    exact hmutated
  · rw [← hanswer, hmutated]
    simp only [done, hperform]
    refine ⟨fun _ => ?_, nofun, ?_⟩
    · obtain ⟨record, hcalls, hrecorded, hrecord⟩ := accessed.settle_recorded r
      have hcount : accessed.total = (accessed.settle r).2.1.slots.entryCount := by
        rw [hsound.counted, Slots.entryCount_eq_length, Slots.entryCount_eq_length,
          (hsound.settle (hslots ▸ hs.pos)).entries.length_eq]
      rw [hcount, hsize, hslots, hremoves] at hrecord
      refine ⟨record, hcalls, ?_, hrecord⟩
      rw [← hacc.policy]
      exact hrecorded
    · intro answer' h
      cases hsettled : (accessed.settle r).1 with
      | error p =>
        rw [hsettled] at h
        cases h
      | ok u =>
        rw [hsettled] at h
        cases h
        exact hmutated

end Shard

end Policy

end ShardedMap
