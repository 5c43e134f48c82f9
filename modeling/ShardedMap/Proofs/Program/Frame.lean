import ShardedMap.Policy.Scripted
import ShardedMap.Proofs.Program.Passed
/-
  What closures leave alone. A thread that has entered a shard cannot enter it again, so nothing
  that a closure does, to any depth, changes a shard around it, except that the value lent to it may
  be replaced (`keeps_passed`). Hence a visit hands over what the shard held when it began, whatever
  is done to other shards meanwhile, and an operation with a closure leaves its shard as it was, or
  with another value lent.
-/
namespace ShardedMap

variable {S : Type → Type} {H : Type} [DecidableEq H] [Storage S H] [LawfulStorage S H]

variable {A : Type} {n : Nat} {K V P M R : Type}

/-! ## Shards that differ in one value -/

namespace Entry

/-- An entry with another value. -/
def withValue (f : V → V) (e : Entry K V) : Entry K V := { e with value := f e.value }

theorem rewriteFirst_id (p : Entry K V → Bool) (es : List (Entry K V)) :
    rewriteFirst p (withValue id) es = es := by
  induction es with
  | nil => rfl
  | cons e rest ih =>
    rw [rewriteFirst, ih]
    split <;> rfl

theorem rewriteFirst_twice [BEq K] (hash : UInt64) (key : K) (f g : V → V)
    (es : List (Entry K V)) :
    rewriteFirst (isFor hash key) (withValue g) (rewriteFirst (isFor hash key) (withValue f) es) =
      rewriteFirst (isFor hash key) (withValue fun v => g (f v)) es := by
  induction es with
  | nil => rfl
  | cons e rest ih =>
    have hkeep : (withValue f e).isFor hash key = e.isFor hash key := rfl
    cases he : e.isFor hash key with
    | true => simp only [rewriteFirst, he, hkeep, if_true]; rfl
    | false => simp only [rewriteFirst, he, Bool.false_eq_true, if_false, ih]

end Entry

namespace Shard

/-- `s'` is `s` with at most another value in the entry for `key` under `hash`. -/
structure SameBut [BEq K] (hash : UInt64) (key : K) (s s' : Shard S K V P) : Prop where
  slotCount : s'.slots.size = s.slots.size
  total : s'.total = s.total
  policy : s'.policy = s.policy
  chains : ∃ f : V → V, ∀ j, (s'.slots.chainAt j).toList =
    if j = Slots.home hash s.slots.size then
      Entry.rewriteFirst (Entry.isFor hash key) (Entry.withValue f) (s.slots.chainAt j).toList
    else (s.slots.chainAt j).toList

/-- `s'` is `s` if no value is lent, and else `s` with at most another value lent. -/
def SameUpTo [BEq K] (s : Shard S K V P) : Option (UInt64 × K) → Shard S K V P → Prop
  | none, s' => s' = s
  | some (hash, key), s' => s.SameBut hash key s'

variable [BEq K] {hash : UInt64} {key : K}

theorem SameBut.refl (s : Shard S K V P) : s.SameBut hash key s := by
  refine ⟨rfl, rfl, rfl, id, ?_⟩
  intro j
  rw [Entry.rewriteFirst_id, ite_self]

theorem SameUpTo.refl (s : Shard S K V P) (lent : Option (UInt64 × K)) : s.SameUpTo lent s := by
  cases lent with
  | none => rfl
  | some l => exact SameBut.refl s

theorem SameBut.trans {s s' s'' : Shard S K V P} (h : s.SameBut hash key s')
    (h' : s'.SameBut hash key s'') : s.SameBut hash key s'' := by
  obtain ⟨f, hf⟩ := h.chains
  obtain ⟨g, hg⟩ := h'.chains
  refine ⟨h'.slotCount.trans h.slotCount, h'.total.trans h.total, h'.policy.trans h.policy,
    fun v => g (f v), ?_⟩
  intro j
  rw [hg j, hf j, h.slotCount]
  split
  · exact Entry.rewriteFirst_twice hash key f g _
  · rfl

/-- Assigning a value lent changes that value and nothing else. -/
theorem sameBut_assign (s : Shard S K V P) (hash : UInt64) (key : K) (value : V) :
    s.SameBut hash key (s.assign hash key value) := by
  rcases Nat.eq_zero_or_pos s.slots.size with hzero | hpos
  · have hsame : s.assign hash key value = s := by
      unfold assign Slots.onHome Slots.home?
      rw [if_pos hzero]
    rw [hsame]
    exact SameBut.refl s
  · have hj := Slots.home_lt hash hpos
    rw [assign_of_pos hpos]
    refine ⟨Array.size_setIfInBounds, rfl, rfl, fun _ => value, ?_⟩
    intro j
    by_cases h : Slots.home hash s.slots.size = j
    · rw [if_pos h.symm, ← h]
      show (Slots.chainAt (s.slots.setIfInBounds _ _) _).toList = _
      rw [Slots.chainAt_set_self hj]
      exact Chain.toList_modify _ hash key fun _ => ((), value)
    · rw [if_neg fun he => h he.symm]
      show (Slots.chainAt (s.slots.setIfInBounds _ _) j).toList = _
      rw [Slots.chainAt_set_ne s.slots h]

end Shard

/-! ## Shards entered -/

namespace Session

/-- What is lent to a closure of shard `i`, if the thread has entered it. -/
def lentOf (s : Session n S K V P M) (i : Fin n) : Option (UInt64 × K) :=
  (s.holds.find? (·.shard == i)).bind Hold.lent

theorem lentOf_enter_self (s : Session n S K V P M) (i : Fin n) (lent : Option (UInt64 × K)) :
    (s.enter i lent).lentOf i = lent := by
  unfold lentOf enter
  rw [List.find?_cons_of_pos (by simp)]
  rfl

theorem lentOf_enter_ne (s : Session n S K V P M) {i j : Fin n} (h : j ≠ i)
    (lent : Option (UInt64 × K)) : (s.enter j lent).lentOf i = s.lentOf i := by
  unfold lentOf enter
  rw [List.find?_cons_of_neg (by simpa using h)]

theorem holding_enter_self (s : Session n S K V P M) (i : Fin n) (lent : Option (UInt64 × K)) :
    (s.enter i lent).holding i = true := by
  simp [holding_enter]

theorem ne_of_holding {s : Session n S K V P M} {i j : Fin n} (hi : s.holding i = true)
    (hj : s.holding j = false) : j ≠ i := by
  rintro rfl
  rw [hi] at hj
  cases hj

/-- In `t`, shard `i` is still entered as in `s`, and is what it was in `s` up to the value lent. -/
structure Keeps [BEq K] (i : Fin n) (s t : Session n S K V P M) : Prop where
  held : t.holding i = true
  lent : t.lentOf i = s.lentOf i
  shard : (s.shards.get i).SameUpTo (s.lentOf i) (t.shards.get i)

theorem Keeps.refl [BEq K] {i : Fin n} {s : Session n S K V P M} (h : s.holding i = true) :
    Keeps i s s :=
  ⟨h, rfl, Shard.SameUpTo.refl _ _⟩

theorem Keeps.of_holds [BEq K] {i : Fin n} {s t u : Session n S K V P M} (h : Keeps i s t)
    (hholds : u.holds = t.holds)
    (hshard : (s.shards.get i).SameUpTo (s.lentOf i) (u.shards.get i)) : Keeps i s u := by
  refine ⟨?_, ?_, hshard⟩
  · unfold holding
    rw [hholds]
    exact h.held
  · unfold lentOf
    rw [hholds]
    exact h.lent

theorem Keeps.of_eq [BEq K] {i : Fin n} {s t u : Session n S K V P M} (h : Keeps i s t)
    (hholds : u.holds = t.holds) (hshard : u.shards.get i = t.shards.get i) : Keeps i s u := by
  refine h.of_holds hholds ?_
  rw [hshard]
  exact h.shard

theorem Keeps.assign [BEq K] {i : Fin n} {s t : Session n S K V P M} (h : Keeps i s t) (j : Fin n)
    (value : V) : Keeps i s (t.assign j value) := by
  have hholds := holds_assign t j value
  by_cases hij : j = i
  · subst hij
    have hshard := h.shard
    cases hl : s.lentOf j with
    | none =>
      have hlent : (t.holds.find? (·.shard == j)).bind Hold.lent = none := h.lent.trans hl
      refine h.of_eq hholds ?_
      unfold Session.assign
      rw [hlent]
    | some l =>
      obtain ⟨hash, key⟩ := l
      have hlent : (t.holds.find? (·.shard == j)).bind Hold.lent = some (hash, key) :=
        h.lent.trans hl
      have hassign : (t.assign j value).shards.get j = (t.shards.get j).assign hash key value := by
        unfold Session.assign
        rw [hlent]
        simp only [onShard_replace, get_replace_self]
      refine h.of_holds hholds ?_
      rw [hl] at hshard ⊢
      rw [hassign]
      exact Shard.SameBut.trans hshard (Shard.sameBut_assign _ hash key value)
  · refine h.of_eq hholds ?_
    unfold Session.assign
    split
    · rfl
    · rw [onShard_replace, get_replace_ne _ hij]

/-- Inside the guard of a shard, the shard is what it was before, up to the value lent. -/
theorem Keeps.sameUpTo [BEq K] {i : Fin n} {lent : Option (UInt64 × K)}
    {s t : Session n S K V P M} (h : Keeps i (s.enter i lent) t) :
    (s.shards.get i).SameUpTo lent (t.shards.get i) := by
  have hshard := h.shard
  rw [lentOf_enter_self] at hshard
  exact hshard

theorem keeps_enter [BEq K] (s : Session n S K V P M) (i : Fin n) (lent : Option (UInt64 × K)) :
    Keeps i (s.enter i lent) (s.enter i lent) :=
  Keeps.refl (holding_enter_self s i lent)

/-- Whatever runs inside the guard of a shard and does not change shards entered leaves the shard as
it was, up to the value lent. -/
theorem guarded_sameUpTo [BEq K] {α : Type} {i : Fin n} {lent : Option (UInt64 × K)}
    {act : Session n S K V P M → Except Panic α × Session n S K V P M} (s : Session n S K V P M)
    (hact : ∀ t, Keeps i (s.enter i lent) t → Keeps i (s.enter i lent) (act t).2) :
    (s.shards.get i).SameUpTo lent ((s.guarded i lent act).2.shards.get i) := by
  cases h : s.holding i with
  | true =>
    rw [guarded_of_holding h]
    exact Shard.SameUpTo.refl _ lent
  | false =>
    rw [guarded_of_free h]
    have hkeeps := hact _ (keeps_enter s i lent)
    exact hkeeps.sameUpTo

end Session

namespace Program

open Session

variable [BEq K] [ResizePolicy P]

theorem kept_keeps (locate : A → K → Fin n × UInt64) (i : Fin n) (s : Session n S K V P M) :
    Kept locate R (Keeps i s) where
  store memory h := h.of_eq rfl rfl
  assign j value h := h.assign j value
  enter {t j} lent h hfree := by
    have hne := ne_of_holding h.held hfree
    refine ⟨?_, ?_, h.shard⟩
    · rw [holding_enter, h.held, Bool.or_true]
    · rw [lentOf_enter_ne t hne]
      exact h.lent
  leave {t u j lent} h hfree hu hholds := by
    have hleft : (u.leave j).holds = t.holds := by
      rw [← holds_leave_enter hfree lent]
      unfold leave
      rw [hholds]
    exact h.of_holds hleft hu.shard
  perform {t} address op h hfree := by
    have hne := ne_of_holding h.held hfree
    refine h.of_eq (holds_perform _ _ _ op) ?_
    rw [perform_eq hfree]
    exact Shard.get_set_ne _ hne _

/-! ## Operations with closures -/

variable (locate : A → K → Fin n × UInt64)

/-- A closure that is run inside a shard keeps it up to the value lent, in all sessions on the
way. -/
theorem keeps_passed {i : Fin n} {s t : Session n S K V P M} (h : Keeps i s t)
    (body : Program A n K V P M R) :
    (∀ u ∈ body.passed locate t, Keeps i s u) ∧ Keeps i s (body.run locate t).2 :=
  (kept_keeps locate i s).passed body h

theorem passedOnValue_sameUpTo {i : Fin n} {hash : UInt64} {key : K}
    {lent : Option (UInt64 × K)} (body : V → Program A n K V P M R) (s : Session n S K V P M) :
    ∀ t ∈ passedOnValue i hash key lent (fun value t => (body value).passed locate t) s,
      (s.shards.get i).SameUpTo lent (t.shards.get i) := by
  intro t ht
  unfold passedOnValue at ht
  split at ht
  · cases ht
  · split at ht
    · have hkeeps := (keeps_passed locate (keeps_enter s i lent) _).1 t ht
      exact hkeeps.sameUpTo
    · cases ht

theorem passedOnEntries_same {i : Fin n} (body : K → V → Program A n K V P M R)
    (s : Session n S K V P M) :
    ∀ t ∈ passedOnEntries i (fun key value t => (body key value).run locate t)
        (fun key value t => (body key value).passed locate t) s,
      t.shards.get i = s.shards.get i := by
  intro t ht
  unfold passedOnEntries at ht
  split at ht
  · cases ht
  · have hkeeps := passedEach_keeps (I := Keeps i (s.enter i none))
      (fun key value u hu => keeps_passed locate hu (body key value)) _ (keeps_enter s i none) t ht
    exact hkeeps.sameUpTo

/-- A visit hands over the entries that its shard held when it began. -/
theorem visitShard_eq (i : Fin n) (body : K → V → Program A n K V P M R)
    (s : Session n S K V P M) :
    s.visitShard i (fun key value t => (body key value).run locate t) =
      s.guarded i none (handEach (fun key value t => (body key value).run locate t)
        (s.shards.get i).slots.entries) := by
  unfold visitShard
  cases h : s.holding i with
  | true => rw [guarded_of_holding h, guarded_of_holding h]
  | false =>
    have hslots : ∀ t, Keeps i (s.enter i none) t →
        (t.shards.get i).slots = (s.shards.get i).slots := by
      intro t ht
      have hsame : t.shards.get i = s.shards.get i := ht.sameUpTo
      rw [hsame]
    have heq : visitSlots i (fun key value t => (body key value).run locate t)
        (s.shards.get i).slots.size 0 (s.enter i none) =
          handEach (fun key value t => (body key value).run locate t)
            (s.shards.get i).slots.entries (s.enter i none) :=
      visitSlots_eq hslots (fun key value t ht => (keeps_passed locate ht (body key value)).2)
        (Nat.zero_add _) (keeps_enter s i none)
    rw [guarded_of_free h, guarded_of_free h, ← heq]
    rfl

/-- Visits shards one after another, handing over of each what it holds when its turn comes. -/
def handAll (visit : K → V → Session n S K V P M → Except Panic R × Session n S K V P M) :
    List (Fin n) → Session n S K V P M → Except Panic Unit × Session n S K V P M
  | [], s => (.ok (), s)
  | i :: rest, s =>
    match s.guarded i none (handEach visit (s.shards.get i).slots.entries) with
    | (.error p, s) => (.error p, s)
    | (.ok (), s) => handAll visit rest s

theorem run_visit (i : Fin n) (body : K → V → Program A n K V P M R)
    (next : Except Panic Unit → Program A n K V P M R) (s : Session n S K V P M) :
    let handed := s.guarded i none
      (handEach (fun key value t => (body key value).run locate t) (s.shards.get i).slots.entries)
    (visit i body next).run locate s = (next handed.1).run locate handed.2 := by
  intro handed
  have heq : s.visitShard i (fun key value t => (body key value).run locate t) = handed :=
    visitShard_eq locate i body s
  rw [← heq]
  rfl

theorem run_visitAll (body : K → V → Program A n K V P M R)
    (next : Except Panic Unit → Program A n K V P M R) (shards : List (Fin n))
    (s : Session n S K V P M) :
    let handed := handAll (fun key value t => (body key value).run locate t) shards s
    (visitAll body next shards).run locate s = (next handed.1).run locate handed.2 := by
  induction shards generalizing s with
  | nil => rfl
  | cons i rest ih =>
    simp only
    rw [visitAll, run_visit, handAll]
    rcases s.guarded i none _ with ⟨result, t⟩
    cases result with
    | error p => rfl
    | ok _ => exact ih t

theorem onValue_sameUpTo (i : Fin n) (hash : UInt64) (key : K) (lent : Option (UInt64 × K))
    (body : V → Program A n K V P M R) (s : Session n S K V P M) :
    (s.shards.get i).SameUpTo lent ((s.guarded i lent
      (onValue i hash key fun value t => (body value).run locate t)).2.shards.get i) := by
  apply guarded_sameUpTo
  intro t ht
  exact onValue_keeps (I := Keeps i (s.enter i lent))
    (fun value u hu => (keeps_passed locate hu (body value)).2) ht

theorem visitShard_same (i : Fin n) (body : K → V → Program A n K V P M R)
    (s : Session n S K V P M) :
    (s.visitShard i fun key value t => (body key value).run locate t).2.shards.get i =
      s.shards.get i := by
  show (s.shards.get i).SameUpTo none ((s.visitShard i _).2.shards.get i)
  unfold visitShard
  apply guarded_sameUpTo
  intro t ht
  exact visitSlots_keeps (I := Keeps i (s.enter i none))
    (fun key value u hu => (keeps_passed locate hu (body key value)).2) i _ 0 ht

/-- What closures do to the shards that they run inside of, whatever they do and wherever they
panic. A `read` leaves its shard as it was, at every moment from entering it on; an `update` leaves
it as it was but for the value lent; and a visit leaves it as it was and hands over exactly the
entries that it held when it was entered, also if it is one of many in a row. -/
theorem closures_leave_shards (s : Session n S K V P M) :
    (∀ (address : A) (key : K) (body : V → Program A n K V P M R),
      let (i, hash) := locate address key
      (∀ t ∈ passedOnValue i hash key none (fun value t => (body value).passed locate t) s,
        t.shards.get i = s.shards.get i) ∧
      ∃ answer t,
        (∀ next, (read address key body next).run locate s = (next answer).run locate t) ∧
        t.shards.get i = s.shards.get i) ∧
    (∀ (address : A) (key : K) (body : Fin n → V → Program A n K V P M R),
      let (i, hash) := locate address key
      (∀ t ∈ passedOnValue i hash key (some (hash, key))
          (fun value t => (body i value).passed locate t) s,
        (s.shards.get i).SameBut hash key (t.shards.get i)) ∧
      ∃ answer t,
        (∀ next, (update address key body next).run locate s = (next answer).run locate t) ∧
        (s.shards.get i).SameBut hash key (t.shards.get i)) ∧
    (∀ (i : Fin n) (body : K → V → Program A n K V P M R),
      let call := fun key value t => (body key value).run locate t
      let handed := s.guarded i none (handEach call (s.shards.get i).slots.entries)
      (∀ t ∈ passedOnEntries i call (fun key value t => (body key value).passed locate t) s,
        t.shards.get i = s.shards.get i) ∧
      (∀ next, (visit i body next).run locate s = (next handed.1).run locate handed.2) ∧
      handed.2.shards.get i = s.shards.get i) ∧
    (∀ (shards : List (Fin n)) (body : K → V → Program A n K V P M R) next,
      let handed := handAll (fun key value t => (body key value).run locate t) shards s
      (visitAll body next shards).run locate s = (next handed.1).run locate handed.2) := by
  refine ⟨?_, ?_, ?_, ?_⟩
  · intro address key body
    exact ⟨passedOnValue_sameUpTo locate body s, _, _, fun _ => rfl,
      onValue_sameUpTo locate _ _ key none body s⟩
  · intro address key body
    exact ⟨passedOnValue_sameUpTo locate (body _) s, _, _, fun _ => rfl,
      onValue_sameUpTo locate _ _ key (some (_, key)) (body _) s⟩
  · intro i body
    have hsame := visitShard_same locate i body s
    rw [visitShard_eq locate i body s] at hsame
    exact ⟨passedOnEntries_same locate body s, fun next => run_visit locate i body next s, hsame⟩
  · intro shards body next
    exact run_visitAll locate body next shards s

/-- A closure of an `update` replaces its value, puts an entry into the other shard, asks in vain for
its own, and gives up. -/
theorem closures_leave_shards_raised :
    let locate : Fin 2 → Nat → Fin 2 × UInt64 := fun i key => (i, key.toUInt64)
    let shard : Shard Arena Nat Nat SeriesPolicy :=
      ⟨#[(∅ : Chain Arena Nat Nat).push ⟨1, 1, 5⟩], 1, ⟨[]⟩⟩
    let s : Session 2 Arena Nat Nat SeriesPolicy Unit := .start #v[shard, shard] ()
    let body : Fin 2 → Nat → Program (Fin 2) 2 Nat Nat SeriesPolicy Unit Unit := fun i value =>
      .assign i (value + 1) (.perform 1 (.put 2 7) fun _ => .perform 0 (.remove 1) fun _ =>
        .panic (.raised "enough"))
    let t := ((Program.update 0 1 body fun _ => .done ()).run locate s).2
    shard.SameBut 1 1 (t.shards.get 0) ∧ (t.chainAt 0 0).toList.map Entry.value = [6] ∧
      (t.chainAt 1 0).toList.map Entry.value = [7, 5] := by
  intro locate shard s body t
  obtain ⟨-, hupdate, -, -⟩ := closures_leave_shards locate s
  obtain ⟨-, answer, u, hrun, hsame⟩ := hupdate 0 1 body
  have ht : t = u := congrArg Prod.snd (hrun fun _ => .done ())
  rw [← ht] at hsame
  exact ⟨hsame, by decide +kernel, by decide +kernel⟩

end Program

end ShardedMap
