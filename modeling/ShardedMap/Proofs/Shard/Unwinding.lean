import ShardedMap.Proofs.Shard.Consultation
/-
  How an operation on a shard stops short. What an operation makes of the entries of its chain is
  said by a function on lists (`Operation.leaves`), so an access is that function on one chain and
  the total with it (`Sound.applied_access`). After it only a plan can fail, and only at a target of
  zero (`settle_error`): the targets before it are carried out, the policy is as its plan leaves it,
  and nothing else has happened.
-/
namespace ShardedMap

variable {S : Type → Type} {H : Type} [DecidableEq H] [Storage S H] [LawfulStorage S H]

variable {K V P R : Type}

/-! ## What an operation leaves -/

namespace Operation

variable [BEq K]

/-- What an operation makes of the entries of a chain. -/
def leaves (hash : UInt64) : Operation K V R → List (Entry K V) → List (Entry K V)
  | put key value, es =>
    if es.any (Entry.isFor hash key) then
      Entry.rewriteFirst (Entry.isFor hash key) (fun e => { e with value }) es
    else ⟨key, hash, value⟩ :: es
  | insertNew key value, es =>
    if es.any (Entry.isFor hash key) then es else ⟨key, hash, value⟩ :: es
  | get _, es | contains _, es | read _ _, es => es
  | update key f, es =>
    Entry.rewriteFirst (Entry.isFor hash key) (fun e => { e with value := (f e.value).2 }) es
  | remove key, es | delete key, es => es.eraseP (Entry.isFor hash key)

theorem toList_onChain (hash : UInt64) (op : Operation K V R) (c : Chain S K V) :
    (op.onChain hash c).2.toList = op.leaves hash c.toList := by
  rw [onChain_snd]
  cases op with
  | put key value =>
    simp only [leaves, ← List.isSome_find?]
    rw [c.toList_insert]
    cases c.toList.find? (Entry.isFor hash key) <;> rfl
  | insertNew key value =>
    simp only [leaves, ← List.isSome_find?]
    rw [← c.contains_eq]
    split
    · rfl
    · exact c.toList_push _
  | get | contains | read => rfl
  | update key f => exact c.toList_modify hash key f
  | remove key => exact c.toList_remove hash key
  | delete key => exact c.toList_remove hash key

end Operation

namespace Shard

variable [BEq K]

/-- `s'` is `s` with what an operation makes of the one chain that its hash belongs to. The total
counts it; slots, chains and policy are otherwise those of `s`. -/
structure Applied (hash : UInt64) (op : Operation K V R) (s s' : Shard S K V P) : Prop where
  slotCount : s'.slots.size = s.slots.size
  counted : s'.total = s'.slots.entryCount
  chains : ∀ j, (s'.slots.chainAt j).toList =
    if j = Slots.home hash s.slots.size then op.leaves hash (s.slots.chainAt j).toList
    else (s.slots.chainAt j).toList
  policy : s'.policy = s.policy

theorem Sound.applied_access [EquivBEq K] {s : Shard S K V P} (hs : s.Sound) (hash : UInt64)
    (op : Operation K V R) : Applied hash op s (s.access hash op).2 := by
  obtain ⟨found, rest, hacc, hanswer, hsound⟩ := hs.access hash op
  refine ⟨hacc.slotCount, hsound.counted, ?_, hacc.policy⟩
  have hslots : (s.access hash op).2.slots =
      s.slots.setIfInBounds (Slots.home hash s.slots.size) (s.chainAfter hash op) := by
    rw [access_of_pos hs.pos] at hanswer ⊢
    split <;> rfl
  intro j
  rw [hslots]
  split
  · rename_i hj
    rw [hj, Slots.chainAt_set_self (Slots.home_lt hash hs.pos)]
    exact op.toList_onChain hash _
  · rename_i hj
    rw [Slots.chainAt_set_ne s.slots (Ne.symm hj)]

end Shard

/-! ## Plans that cannot be carried out -/

namespace Slots

/-- A plan with a target of zero is carried out up to it, and fails there. -/
theorem carryOut_stopped (slots : Slots S K V) {tried : List Nat} (h : 0 ∉ tried)
    (rest : List Nat) :
    (slots.carryOut (tried ++ 0 :: rest)).1 = .error .resizeToZero ∧
      (slots.carryOut (tried ++ 0 :: rest)).2.1 = tried.foldl resized slots := by
  induction tried generalizing slots with
  | nil => exact ⟨rfl, rfl⟩
  | cons target tried ih =>
    rw [List.mem_cons, not_or] at h
    have ht : 0 < target := by omega
    rw [List.cons_append, carryOut, resize_of_pos slots ht]
    exact ih (slots.resized target) h.2

theorem mem_carryOut {slots : Slots S K V} {targets : List Nat} {e : PolicyEvent}
    (h : e ∈ (slots.carryOut targets).2.2) : ∃ moved slotCount, e = .resized moved slotCount := by
  induction targets generalizing slots with
  | nil => cases h
  | cons target rest ih =>
    unfold carryOut at h
    rcases hone : slots.resize target with ⟨_ | moved, slots'⟩
    · rw [hone] at h
      cases h
    · rw [hone] at h
      rcases List.mem_cons.1 h with rfl | h
      · exact ⟨_, _, rfl⟩
      · exact ih h

end Slots

namespace Shard

variable [ResizePolicy P]

/-- The plan that a consultation about a report comes to, if it comes to one. -/
def planned (s : Shard S K V P) (r : Report) : Option (Plan P) :=
  let (verdict, s) := s.inspect r
  if verdict = .normal then none
  else
    let (wanted, s) := s.wants verdict r.slotCount
    if wanted then some (ResizePolicy.plan s.policy verdict s.slots) else none

theorem settle_of_unplanned {s : Shard S K V P} {r : Report} (h : s.planned r = none) :
    (s.settle r).1 = .ok () := by
  unfold settle
  by_cases hverdict : (s.inspect r).1 = .normal
  · simp only [hverdict, if_true]
  · cases hwanted : ((s.inspect r).2.wants (s.inspect r).1 r.slotCount).1 with
    | false => simp only [hverdict, hwanted, if_false, Bool.false_eq_true]
    | true => simp [planned, hverdict, hwanted] at h

/-- A consultation that comes to a plan ends as its resize does. -/
theorem settle_of_planned {s : Shard S K V P} {r : Report} {plan : Plan P}
    (h : s.planned r = some plan) :
    ∃ (s' : Shard S K V P) (v : Verdict) (before : List PolicyEvent),
      s'.slots = s.slots ∧ s'.total = s.total ∧ ResizePolicy.plan s'.policy v s'.slots = plan ∧
      (∀ total slotCount, .recomputed total slotCount ∉ before) ∧
      s.settle r = ((s'.resize v).1, (s'.resize v).2.1, before ++ (s'.resize v).2.2) := by
  by_cases hverdict : (s.inspect r).1 = .normal
  · simp [planned, hverdict] at h
  · cases hwanted : ((s.inspect r).2.wants (s.inspect r).1 r.slotCount).1 with
    | false => simp [planned, hverdict, hwanted] at h
    | true =>
      refine ⟨((s.inspect r).2.wants (s.inspect r).1 r.slotCount).2, (s.inspect r).1,
        [.inspected s.total r.size, .asked (s.inspect r).1 r.slotCount], rfl, rfl, ?_, ?_, ?_⟩
      · simpa [planned, hverdict, hwanted] using h
      · simp
      · simp only [settle, hverdict, hwanted, if_false, if_true]
        rfl

/-- A resize fails at a target of zero of its plan. The targets before it are carried out, the
policy is as the plan leaves it, and it learns nothing. -/
theorem resize_stopped {s : Shard S K V P} {v : Verdict} {tried rest : List Nat}
    (htargets : (ResizePolicy.plan s.policy v s.slots).targets = tried ++ 0 :: rest)
    (h : 0 ∉ tried) :
    ∃ events, s.resize v = (.error .resizeToZero,
        { s with
          slots := tried.foldl Slots.resized s.slots
          policy := (ResizePolicy.plan s.policy v s.slots).next }, events) ∧
      ∀ total slotCount, .recomputed total slotCount ∉ events := by
  obtain ⟨hresult, hleft⟩ := s.slots.carryOut_stopped h rest
  rw [← htargets] at hresult hleft
  have hevents : ∀ e ∈ (s.slots.carryOut (ResizePolicy.plan s.policy v s.slots).targets).2.2,
      ∃ moved slotCount, e = .resized moved slotCount := fun e he => Slots.mem_carryOut he
  unfold resize
  rcases hcarried : s.slots.carryOut (ResizePolicy.plan s.policy v s.slots).targets with
    ⟨result, slots, events⟩
  rw [hcarried] at hresult hleft hevents
  obtain rfl : result = .error .resizeToZero := hresult
  obtain rfl : slots = tried.foldl Slots.resized s.slots := hleft
  simp only [hcarried]
  refine ⟨_, rfl, ?_⟩
  intro total slotCount hmem
  rcases List.mem_cons.1 hmem with hmem | hmem
  · cases hmem
  · obtain ⟨_, _, he⟩ := hevents _ hmem
    cases he

theorem settle_stopped {s : Shard S K V P} {r : Report} {plan : Plan P} {tried rest : List Nat}
    (hplan : s.planned r = some plan) (htargets : plan.targets = tried ++ 0 :: rest)
    (h : 0 ∉ tried) :
    ∃ events, s.settle r = (.error .resizeToZero,
        { s with slots := tried.foldl Slots.resized s.slots, policy := plan.next }, events) ∧
      ∀ total slotCount, .recomputed total slotCount ∉ events := by
  obtain ⟨s', v, before, hslots, htotal, rfl, hbefore, hsettle⟩ := settle_of_planned hplan
  obtain ⟨events, hresize, hevents⟩ := resize_stopped htargets h
  rw [hsettle, hresize, ← hslots, ← htotal]
  refine ⟨before ++ events, rfl, ?_⟩
  intro total slotCount
  rw [List.mem_append, not_or]
  exact ⟨hbefore total slotCount, hevents total slotCount⟩

theorem settle_carried {s : Shard S K V P} {r : Report}
    (h : ∀ plan ∈ s.planned r, 0 ∉ plan.targets) : (s.settle r).1 = .ok () := by
  cases hplan : s.planned r with
  | none => exact settle_of_unplanned hplan
  | some plan =>
    obtain ⟨s', v, before, -, -, rfl, -, hsettle⟩ := settle_of_planned hplan
    rw [hsettle]
    exact (s'.resize_fst v).trans (s'.slots.carryOut_ok (h _ hplan))

/-- A consultation fails at a target of zero and nowhere else. -/
theorem settle_error {s : Shard S K V P} {r : Report} {p : Panic} (h : (s.settle r).1 = .error p) :
    ∃ plan tried rest, s.planned r = some plan ∧ plan.targets = tried ++ 0 :: rest ∧ 0 ∉ tried := by
  by_contra hnone
  have hok : (s.settle r).1 = .ok () := by
    apply settle_carried
    intro plan hplan hzero
    obtain ⟨tried, rest, htargets, htried⟩ := List.eq_append_cons_of_mem hzero
    exact hnone ⟨plan, tried, rest, hplan, htargets, htried⟩
  rw [hok] at h
  cases h

variable [BEq K] [EquivBEq K]

/-- An operation that panics on a sound shard had put its entry in place or taken it out, and was
stopped by a plan with a target of zero. -/
theorem Sound.perform_error {s : Shard S K V P} (hs : s.Sound) {hash : UInt64}
    {op : Operation K V R} {p : Panic} (h : (s.perform hash op).1 = .error p) :
    let accessed := (s.access hash op).2
    p = .resizeToZero ∧ op.mutates (s.has hash op.key) = true ∧
    ∃ r plan tried rest events,
      accessed.planned r = some plan ∧ plan.targets = tried ++ 0 :: rest ∧ 0 ∉ tried ∧
      (s.perform hash op).2 = ({ accessed with
        slots := tried.foldl Slots.resized accessed.slots, policy := plan.next }, events) ∧
      ∀ total slotCount, .recomputed total slotCount ∉ events := by
  intro accessed
  obtain ⟨answer, hanswer, ⟨-, hperform⟩ | ⟨hmutated, r, -, -, -, -, hperform⟩⟩ :=
    hs.perform_eq_settle hash op
  · rw [hperform] at h
    cases h
  · rw [hmutated] at hanswer
    rw [hperform] at h ⊢
    cases hsettled : (accessed.settle r).1 with
    | ok u =>
      rw [hsettled] at h
      cases h
    | error p' =>
      rw [hsettled] at h
      cases h
      obtain ⟨plan, tried, rest, hplan, htargets, htried⟩ := settle_error hsettled
      obtain ⟨events, hsettle, hevents⟩ := settle_stopped hplan htargets htried
      rw [hsettle] at hsettled
      refine ⟨(Except.error.inj hsettled).symm, hanswer.symm, r, plan, tried, rest, events, hplan,
        htargets, htried, ?_, hevents⟩
      exact congrArg Prod.snd hsettle

end Shard

end ShardedMap
