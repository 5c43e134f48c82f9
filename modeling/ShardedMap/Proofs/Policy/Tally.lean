import Mathlib.Data.List.DropRight
import ShardedMap.Proofs.Policy.Growth
/-
  The stock policy by its history. Calls come in any order, a resize each time with slots of its
  own, and what a call does is told by what it finds (`Turn.next_counts`, `Turn.resize_cases`). So
  the counts are counts of the calls since the last resize that the policy decided on
  (`counts_after`), and the threshold is that of the last totals it learned, or of its settings
  (`threshold_after`).
-/
namespace ShardedMap

variable {S : Type → Type} {H : Type} [DecidableEq H] [Storage S H] [LawfulStorage S H]

variable {K V : Type}

/-! ## One call -/

/-- A call on a policy, and the slots that a resize is to be made of. -/
structure Request (S : Type → Type) {H : Type} [DecidableEq H] [Storage S H] [LawfulStorage S H]
    (K V : Type) where
  slots : Slots S K V
  call : PolicyCall

/-- A request, with the policy that it found. -/
structure Turn (S : Type → Type) {H : Type} [DecidableEq H] [Storage S H] [LawfulStorage S H]
    (K V : Type) extends Request S K V where
  found : LoadPolicy

namespace Turn

/-- What the call answers and what it leaves. -/
def done (t : Turn S K V) : PolicyAnswer × Bench S K V LoadPolicy := t.call.run ⟨t.slots, t.found⟩

def answer (t : Turn S K V) : PolicyAnswer := t.done.1

/-- The policy after the call. -/
def next (t : Turn S K V) : LoadPolicy := t.done.2.policy

/-- The policy judged a slot overweight. -/
def overweight (t : Turn S K V) : Bool := decide (t.answer = .judged .overweight)

/-- The policy was shown an empty slot. -/
def empty (t : Turn S K V) : Bool :=
  match t.call with
  | .inspect _ size => size == 0
  | _ => false

/-- The call was to resize, and the policy would have said that it wants that. -/
def decided (t : Turn S K V) : Bool :=
  match t.call with
  | .resize v => (ResizePolicy.wants t.found v t.slots.size).1
  | _ => false

/-- A resize that is not wanted changes nothing. One that is wanted uses the evidence up, and
doubles the slots if there are any. -/
theorem resize_cases {t : Turn S K V} {v : Verdict} (hcall : t.call = .resize v)
    (hlt : t.slots.size < 2 ^ 63) :
    (t.decided = false ∧ t.done = (.resized false, ⟨t.slots, t.found⟩)) ∨
      (t.decided = true ∧ t.slots.size = 0 ∧
        t.done = (.resized false, ⟨t.slots, t.found.forget⟩)) ∨
      (t.decided = true ∧ 0 < t.slots.size ∧
        t.done = (.resized true, ⟨t.slots.resized (t.slots.size * 2), t.found.forget⟩)) := by
  have hdecided : t.decided = t.found.ready v t.slots.size := by
    unfold decided
    rw [hcall]
    rfl
  have hplan : ResizePolicy.plan t.found v t.slots = t.found.decidePlan v t.slots.size := rfl
  rw [hdecided]
  unfold done
  rw [hcall]
  rcases t.found.decidePlan_cases v t.slots.size with
    ⟨hready, h⟩ | ⟨hready, hsame, h⟩ | ⟨hready, hmore, h⟩
  · refine .inl ⟨hready, ?_⟩
    simp only [PolicyCall.run, hplan, h, Slots.carryOut]
  · have hdouble := LoadPolicy.target_eq_double hready hlt
    refine .inr (.inl ⟨hready, by omega, ?_⟩)
    simp only [PolicyCall.run, hplan, h, Slots.carryOut]
  · have hdouble := LoadPolicy.target_eq_double hready hlt
    have hpos : 0 < t.slots.size * 2 := by omega
    refine .inr (.inr ⟨hready, by omega, ?_⟩)
    simp only [PolicyCall.run, hplan, h, hdouble, Slots.carryOut_singleton _ hpos]

theorem answer_of_empty {t : Turn S K V} (h : 1 ≤ t.found.threshold.toNat)
    (hempty : t.empty = true) :
    t.answer = .judged .normal := by
  obtain ⟨⟨slots, call⟩, found⟩ := t
  cases call with
  | inspect total size =>
    obtain rfl : size = 0 := beq_iff_eq.1 hempty
    have hjudged := LoadPolicy.judge_of_le h (Nat.zero_le found.limit)
    exact congrArg (fun r => PolicyAnswer.judged r.1) hjudged
  | recompute | ask | resize => cases hempty

/-- What becomes of the counts: a resize that is wanted sets them back, a slot judged overweight and
an empty one count by one each, and nothing else counts. -/
theorem next_counts {t : Turn S K V} (h : 1 ≤ t.found.threshold.toNat)
    (hlt : t.slots.size < 2 ^ 63) :
    t.next.overweight =
      (if t.decided then 0
        else if t.overweight then t.found.overweight + 1 else t.found.overweight) ∧
    t.next.empty =
      (if t.decided then 0 else if t.empty then t.found.empty + 1 else t.found.empty) := by
  rcases hcall : t.call with ⟨total, slotCount⟩ | ⟨total, size⟩ | ⟨v, slotCount⟩ | v
  case recompute | ask =>
    simp [next, done, decided, overweight, answer, empty, PolicyCall.run, hcall,
      ResizePolicy.recompute, ResizePolicy.wants, LoadPolicy.learn]
  case inspect =>
    have hjudge : t.done = (.judged (t.found.judge size).1, ⟨t.slots, (t.found.judge size).2⟩) := by
      rw [done, hcall]
      rfl
    rcases Nat.lt_or_ge t.found.limit size with hsize | hsize
    · have hstored : size ≠ 0 := by omega
      rw [LoadPolicy.judge_of_lt h hsize] at hjudge
      simp [next, decided, overweight, answer, empty, hcall, hjudge, hstored]
    · rw [LoadPolicy.judge_of_le h hsize] at hjudge
      by_cases hzero : size = 0 <;>
        simp [next, decided, overweight, answer, empty, hcall, hjudge, hzero]
  case resize =>
    have hquiet : t.empty = false := by rw [empty, hcall]
    rcases resize_cases hcall hlt with
      ⟨hdecided, hdone⟩ | ⟨hdecided, -, hdone⟩ | ⟨hdecided, -, hdone⟩ <;>
      simp [next, overweight, answer, hquiet, hdecided, hdone, LoadPolicy.forget]

theorem next_threshold (t : Turn S K V) :
    t.next.loadFactor = t.found.loadFactor ∧
    t.next.threshold = match t.call with
      | .recompute total slotCount =>
        LoadPolicy.thresholdFor t.found.loadFactor total slotCount
      | _ => t.found.threshold := by
  rcases hcall : t.call with ⟨total, slotCount⟩ | ⟨total, size⟩ | ⟨v, slotCount⟩ | v
  case recompute | ask =>
    simp [next, done, hcall, PolicyCall.run, ResizePolicy.recompute, ResizePolicy.wants,
      LoadPolicy.learn]
  case inspect =>
    have hjudge : t.next = (t.found.judge size).2 := by
      rw [next, done, hcall]
      rfl
    rw [hjudge, LoadPolicy.judge]
    split
    · exact ⟨rfl, rfl⟩
    · split <;> exact ⟨rfl, rfl⟩
  case resize =>
    have hplanned : t.next = (t.found.decidePlan v t.slots.size).next := by
      rw [next, done, hcall]
      exact (PolicyCall.run_resize ⟨t.slots, t.found⟩ v).2
    rw [hplanned]
    rcases t.found.decidePlan_cases v t.slots.size with ⟨-, h⟩ | ⟨-, -, h⟩ | ⟨-, -, h⟩ <;>
      rw [h] <;> exact ⟨rfl, rfl⟩

theorem inspects_of_overweight {t : Turn S K V} (h : t.overweight = true) :
    t.call.inspects = true := by
  have hanswer : (t.call.run ⟨t.slots, t.found⟩).1 = .judged .overweight := of_decide_eq_true h
  cases hcall : t.call with
  | inspect => rfl
  | recompute | ask =>
    rw [hcall] at hanswer
    cases hanswer
  | resize v =>
    rw [hcall] at hanswer
    unfold PolicyCall.run at hanswer
    simp only at hanswer
    split at hanswer <;> cases hanswer

theorem inspects_of_empty {t : Turn S K V} (h : t.empty = true) : t.call.inspects = true := by
  rw [empty] at h
  cases hcall : t.call with
  | inspect => rfl
  | recompute | ask | resize =>
    rw [hcall] at h
    cases h

end Turn

/-! ## Many calls -/

namespace LoadPolicy

/-- The policy after some requests. -/
def after (p : LoadPolicy) (requests : List (Request S K V)) : LoadPolicy :=
  requests.foldl (fun p r => Turn.next ⟨r, p⟩) p

/-- The requests, each with the policy that it found. -/
def turns (p : LoadPolicy) : List (Request S K V) → List (Turn S K V)
  | [] => []
  | r :: rest => ⟨r, p⟩ :: turns (Turn.next ⟨r, p⟩) rest

/-- What came after the last resize that was decided on. -/
def sinceDecision (history : List (Turn S K V)) : List (Turn S K V) :=
  history.rtakeWhile fun t => !t.decided

/-- The total and slot count that the policy learned last, or those it was made for. -/
def lastLearned (settings : PolicySettings) (requests : List (Request S K V)) : Nat × Nat :=
  requests.foldl (fun last r =>
    match r.call with
    | .recompute total slotCount => (total, slotCount)
    | _ => last) (0, settings.slotCount)

variable {p : LoadPolicy} {requests : List (Request S K V)} {settings : PolicySettings}

theorem after_concat (p : LoadPolicy) (requests : List (Request S K V)) (r : Request S K V) :
    p.after (requests ++ [r]) = Turn.next ⟨r, p.after requests⟩ :=
  List.foldl_append

theorem turns_concat (p : LoadPolicy) (requests : List (Request S K V)) (r : Request S K V) :
    p.turns (requests ++ [r]) = p.turns requests ++ [⟨r, p.after requests⟩] := by
  induction requests generalizing p with
  | nil => rfl
  | cons first rest ih => exact congrArg (⟨first, p⟩ :: ·) (ih _)

theorem sinceDecision_concat (history : List (Turn S K V)) (t : Turn S K V) :
    sinceDecision (history ++ [t]) = if t.decided then [] else sinceDecision history ++ [t] := by
  unfold sinceDecision
  rw [List.rtakeWhile_concat]
  cases t.decided <;> rfl

theorem mem_turns {t : Turn S K V} (h : t ∈ p.turns requests) :
    t.toRequest ∈ requests ∧ ∃ before : List (Request S K V), t.found = p.after before := by
  induction requests using List.reverseRecOn with
  | nil => cases h
  | append_singleton before r ih =>
    rw [turns_concat, List.mem_append, List.mem_singleton] at h
    rcases h with h | rfl
    · exact ⟨List.mem_append_left _ (ih h).1, (ih h).2⟩
    · exact ⟨List.mem_append_right _ (List.mem_singleton.2 rfl), before, rfl⟩

/-- The threshold is that of the last total and slot count learned, under the load factor that the
settings give. -/
theorem threshold_after (settings : PolicySettings) (requests : List (Request S K V)) :
    let p := (ofSettings settings).after requests
    let last := lastLearned settings requests
    p.loadFactor = (ofSettings settings).loadFactor ∧
      p.threshold = thresholdFor (ofSettings settings).loadFactor last.1 last.2 := by
  induction requests using List.reverseRecOn with
  | nil => exact ⟨rfl, rfl⟩
  | append_singleton before r ih =>
    obtain ⟨hfactor, hthreshold⟩ := ih
    obtain ⟨hkept, hnext⟩ := Turn.next_threshold ⟨r, (ofSettings settings).after before⟩
    rw [after_concat, lastLearned, List.foldl_append]
    refine ⟨hkept.trans hfactor, hnext.trans ?_⟩
    rcases hcall : r.call with ⟨total, slotCount⟩ | _ | _ | _
    case recompute => simp only [List.foldl_cons, List.foldl_nil, hcall, hfactor]
    all_goals
      simp only [List.foldl_cons, List.foldl_nil, hcall]
      exact hthreshold

theorem one_le_threshold_after (settings : PolicySettings) (requests : List (Request S K V)) :
    1 ≤ ((ofSettings settings).after requests).threshold.toNat := by
  rw [(threshold_after settings requests).2]
  exact one_le_thresholdFor _ _ _

theorem turns_toRequest (p : LoadPolicy) (requests : List (Request S K V)) :
    (p.turns requests).map Turn.toRequest = requests := by
  induction requests generalizing p with
  | nil => rfl
  | cons r rest ih => exact congrArg (r :: ·) (ih _)

/-- What can only be counted of sizes shown is not counted more often than sizes were shown. -/
theorem countP_sinceDecision_le (p : LoadPolicy) (requests : List (Request S K V))
    {f : Turn S K V → Bool} (hf : ∀ t, f t = true → t.call.inspects = true) :
    (sinceDecision (p.turns requests)).countP f ≤ requests.countP fun r => r.call.inspects := by
  have hrecent := List.rtakeWhile_suffix (fun t : Turn S K V => !t.decided) (p.turns requests)
  calc (sinceDecision (p.turns requests)).countP f
      ≤ (p.turns requests).countP f := hrecent.sublist.countP_le
    _ ≤ (p.turns requests).countP fun t => t.call.inspects :=
        List.countP_mono_left fun t _ ht => hf t ht
    _ = ((p.turns requests).map Turn.toRequest).countP fun r => r.call.inspects :=
        by rw [List.countP_map]; rfl
    _ = requests.countP fun r => r.call.inspects := by rw [turns_toRequest]

/-- The counts are counts of what came after the last decision. -/
theorem counts_after (settings : PolicySettings) {requests : List (Request S K V)}
    (hslots : ∀ r ∈ requests, r.slots.size < 2 ^ 63)
    (hchecks : (requests.countP fun r => r.call.inspects) < 2 ^ 64) :
    ((ofSettings settings).after requests).overweight.toNat =
        (sinceDecision ((ofSettings settings).turns requests)).countP Turn.overweight ∧
      ((ofSettings settings).after requests).empty.toNat =
        (sinceDecision ((ofSettings settings).turns requests)).countP Turn.empty := by
  induction requests using List.reverseRecOn with
  | nil => exact ⟨rfl, rfl⟩
  | append_singleton before r ih =>
    rw [List.countP_append, List.countP_singleton] at hchecks
    obtain ⟨hover, hempty⟩ := ih (fun x hx => hslots x (List.mem_append_left _ hx)) (by omega)
    have hover_le := countP_sinceDecision_le (ofSettings settings) before
      (f := Turn.overweight) fun _ => Turn.inspects_of_overweight
    have hempty_le := countP_sinceDecision_le (ofSettings settings) before
      (f := Turn.empty) fun _ => Turn.inspects_of_empty
    rw [← hover] at hover_le
    rw [← hempty] at hempty_le
    rw [after_concat, turns_concat, sinceDecision_concat]
    have hfound := one_le_threshold_after settings before
    generalize (ofSettings settings).after before = found at *
    obtain ⟨hover_next, hempty_next⟩ := Turn.next_counts (t := ⟨r, found⟩) hfound
      (hslots r (List.mem_append_right _ (List.mem_singleton.2 rfl)))
    rw [hover_next, hempty_next]
    cases hdecided : Turn.decided ⟨r, found⟩ with
    | true => exact ⟨rfl, rfl⟩
    | false =>
      simp only [Bool.false_eq_true, if_false, List.countP_append, List.countP_singleton, ← hover,
        ← hempty]
      constructor
      · split
        · rename_i h
          rw [if_pos (Turn.inspects_of_overweight h)] at hchecks
          exact toNat_succ_of_lt (by omega)
        · rfl
      · split
        · rename_i h
          rw [if_pos (Turn.inspects_of_empty h)] at hchecks
          exact toNat_succ_of_lt (by omega)
        · rfl

/-- Calls in any order on one policy, a resize each time of any slots. The counts are those of the
slots judged overweight and of the empty slots shown since the last resize that was wanted, or since
the policy was made. An empty slot is judged normal, so no slot counts twice. A resize goes ahead if
it is wanted and there are slots: there are twice as many then, with the same entries, and nothing
is counted any more. Otherwise the slots are left alone, and if the resize was not wanted, so is the
policy. The threshold is one or more; it is that of the load factor of the settings, for the total
and slot count that the policy was told last. -/
theorem tallies (settings : PolicySettings) (requests : List (Request S K V))
    (hslots : ∀ r ∈ requests, r.slots.size < 2 ^ 63)
    (hchecks : (requests.countP fun r => r.call.inspects) < 2 ^ 64) :
    let history := (ofSettings settings).turns requests
    let p := (ofSettings settings).after requests
    let last := lastLearned settings requests
    p.overweight.toNat = (sinceDecision history).countP Turn.overweight ∧
    p.empty.toNat = (sinceDecision history).countP Turn.empty ∧
    (∀ t ∈ history, t.empty = true → t.answer = .judged .normal ∧ t.overweight = false) ∧
    (∀ t ∈ history, ∀ v, t.call = .resize v →
      (t.answer = .resized true ↔ t.decided = true ∧ 0 < t.slots.size) ∧
      (t.answer = .resized true →
        t.done.2.slots.size = 2 * t.slots.size ∧ t.done.2.slots.entries.Perm t.slots.entries ∧
          t.next.overweight = 0 ∧ t.next.empty = 0) ∧
      (t.answer ≠ .resized true → t.answer = .resized false ∧ t.done.2.slots = t.slots) ∧
      (t.decided = false → t.next = t.found)) ∧
    p.threshold = thresholdFor (ofSettings settings).loadFactor last.1 last.2 ∧
    1 ≤ p.threshold.toNat := by
  intro history p last
  obtain ⟨hover, hempty⟩ := counts_after settings hslots hchecks
  refine ⟨hover, hempty, ?_, ?_, (threshold_after settings requests).2,
    one_le_threshold_after settings requests⟩
  · intro t ht hshown
    obtain ⟨-, before, hfound⟩ := mem_turns ht
    have hnormal := Turn.answer_of_empty (hfound ▸ one_le_threshold_after settings before) hshown
    exact ⟨hnormal, by rw [Turn.overweight, hnormal]; rfl⟩
  · intro t ht v hcall
    have hlt := hslots _ (mem_turns ht).1
    unfold Turn.answer Turn.next
    rcases Turn.resize_cases hcall hlt with
      ⟨hdecided, hdone⟩ | ⟨hdecided, hnone, hdone⟩ | ⟨hdecided, hpos, hdone⟩
    · simp [hdone, hdecided]
    · simp [hdone, hdecided, hnone]
    · have hentries := t.slots.entries_resized (by omega : 0 < t.slots.size * 2)
      simp [hdone, hdecided, hpos, hentries, Slots.size_resized, Nat.mul_comm 2, forget]

/-- Two slots of 75 open the gate for four slots, which are doubled. The one seen empty before that
is not counted any more, and a threshold of 375 stands after 4000 entries in eight slots. -/
theorem tallies_mixed :
    let slots : Slots Arena Nat Nat :=
      (Slots.vacant 4).setIfInBounds 1 (Chain.empty.push ⟨5, 5, 50⟩)
    let requests : List (Request Arena Nat Nat) := [⟨#[], .inspect 1 75⟩, ⟨#[], .inspect 1 0⟩,
      ⟨#[], .inspect 1 75⟩, ⟨#[], .ask .overweight 4⟩, ⟨slots, .resize .overweight⟩,
      ⟨#[], .inspect 1 0⟩, ⟨#[], .recompute 4000 8⟩, ⟨#[], .inspect 1 374⟩, ⟨#[], .inspect 1 375⟩,
      ⟨slots, .resize .underweight⟩]
    let p := (ofSettings ⟨.standard, 4, 1000⟩).after requests
    let history := (ofSettings ⟨.standard, 4, 1000⟩).turns requests
    p.overweight.toNat = 1 ∧ p.empty.toNat = 1 ∧ p.threshold = 375 ∧
      history.map Turn.answer = [.judged .overweight, .judged .normal, .judged .overweight,
        .wanted true, .resized true, .judged .normal, .recomputed, .judged .normal,
        .judged .overweight, .resized false] := by
  intro slots requests p history
  obtain ⟨hover, hempty, -, -, hthreshold, -⟩ :=
    tallies ⟨.standard, 4, 1000⟩ requests (by decide +kernel) (by decide +kernel)
  exact ⟨hover.trans (by decide +kernel), hempty.trans (by decide +kernel),
    hthreshold.trans (by decide +kernel), by decide +kernel⟩

end LoadPolicy

end ShardedMap
