import ShardedMap.Session
import ShardedMap.Proofs.Shard.Several
/-
  Operations of a thread, one shard at a time. Entering and leaving cancel out (`guarded_of_free`),
  so an operation on a shard that the thread has not entered is the operation of that shard alone
  (`perform_eq`): no other shard changes, and the thread holds afterwards what it held before. On a
  shard that it has entered, it panics at once (`perform_of_holding`).
-/
namespace ShardedMap

variable {S : Type → Type} {H : Type} [DecidableEq H] [Storage S H] [LawfulStorage S H]

namespace Session

variable {n : Nat} {K V P M R α : Type}

/-- Puts another shard in the place of shard `i`. -/
def replace (s : Session n S K V P M) (i : Fin n) (shard : Shard S K V P) : Session n S K V P M :=
  { s with shards := s.shards.set i shard i.isLt }

theorem onShard_replace (s : Session n S K V P M) (i : Fin n)
    (f : Shard S K V P → α × Shard S K V P) :
    s.onShard i f = ((f (s.shards.get i)).1, s.replace i (f (s.shards.get i)).2) :=
  s.onShard_eq i f

@[simp] theorem get_replace_self (s : Session n S K V P M) (i : Fin n) (shard : Shard S K V P) :
    (s.replace i shard).shards.get i = shard :=
  Shard.get_set_self s.shards i shard

theorem get_replace_ne (s : Session n S K V P M) {i j : Fin n} (h : i ≠ j) (shard : Shard S K V P) :
    (s.replace i shard).shards.get j = s.shards.get j :=
  Shard.get_set_ne s.shards h shard

theorem replace_replace (s : Session n S K V P M) (i : Fin n) (a b : Shard S K V P) :
    (s.replace i a).replace i b = s.replace i b := by
  simp [replace]

theorem replace_get (s : Session n S K V P M) (i : Fin n) : s.replace i (s.shards.get i) = s := by
  have hset : s.shards.set i (s.shards.get i) i.isLt = s.shards := Vector.set_getElem_self i.isLt
  unfold replace
  rw [hset]

@[simp] theorem shards_note (s : Session n S K V P M) (i : Fin n) (events : List PolicyEvent) :
    (s.note i events).shards = s.shards := rfl

@[simp] theorem note_nil (s : Session n S K V P M) (i : Fin n) : s.note i [] = s := rfl

theorem note_note (s : Session n S K V P M) (i : Fin n) (a b : List PolicyEvent) :
    (s.note i a).note i b = s.note i (a ++ b) := by
  simp [note]

theorem note_replace (s : Session n S K V P M) (i : Fin n) (a : List PolicyEvent)
    (shard : Shard S K V P) : (s.note i a).replace i shard = (s.replace i shard).note i a := rfl

/-! ## Guards -/

theorem guarded_of_holding {s : Session n S K V P M} {i : Fin n} (h : s.holding i = true)
    (lent : Option (UInt64 × K))
    (act : Session n S K V P M → Except Panic α × Session n S K V P M) :
    s.guarded i lent act = (.error .reentry, s) := by
  unfold guarded
  rw [if_pos h]

theorem guarded_of_free {s : Session n S K V P M} {i : Fin n} (h : s.holding i = false)
    (lent : Option (UInt64 × K))
    (act : Session n S K V P M → Except Panic α × Session n S K V P M) :
    s.guarded i lent act = ((act (s.enter i lent)).1, (act (s.enter i lent)).2.leave i) := by
  unfold guarded
  rw [h]
  rfl

theorem leave_enter {s : Session n S K V P M} {i : Fin n} (h : s.holding i = false)
    (lent : Option (UInt64 × K)) : (s.enter i lent).leave i = s := by
  show { s with holds := ((s.enter i lent).leave i).holds } = s
  rw [holds_leave_enter h lent]

/-- To ask a free shard for something is to read it off the shard. -/
theorem guarded_ask {s : Session n S K V P M} {i : Fin n} (h : s.holding i = false)
    (ask : Shard S K V P → α) :
    s.guarded i none (fun s => (.ok (ask (s.shards.get i)), s)) =
      (.ok (ask (s.shards.get i)), s) := by
  rw [guarded_of_free h]
  exact Prod.ext rfl (leave_enter h none)

/-- Work on one shard is the same inside its guard as outside. -/
theorem guarded_work {s : Session n S K V P M} {i : Fin n} (h : s.holding i = false)
    (lent : Option (UInt64 × K))
    (f : Shard S K V P → Except Panic α × Shard S K V P × List PolicyEvent) :
    s.guarded i lent (fun s =>
        ((f (s.shards.get i)).1,
          (s.replace i (f (s.shards.get i)).2.1).note i (f (s.shards.get i)).2.2)) =
      ((f (s.shards.get i)).1,
        (s.replace i (f (s.shards.get i)).2.1).note i (f (s.shards.get i)).2.2) := by
  rw [guarded_of_free h]
  refine Prod.ext rfl ?_
  show { (s.replace i (f (s.shards.get i)).2.1).note i (f (s.shards.get i)).2.2 with
    holds := ((s.enter i lent).leave i).holds } = _
  rw [holds_leave_enter h lent]
  rfl

/-! ## Operations -/

section Policy

variable [ResizePolicy P]

theorem consult_eq {s : Session n S K V P M} {i : Fin n} (h : s.holding i = false) (r : Report) :
    s.consult i r = (((s.shards.get i).settle r).1,
      (s.replace i ((s.shards.get i).settle r).2.1).note i ((s.shards.get i).settle r).2.2) := by
  unfold consult Shard.settle
  simp only [onShard_replace]
  rcases hi : (s.shards.get i).inspect r with ⟨verdict, s₁⟩
  simp only
  split
  · rfl
  · simp only [shards_note, get_replace_self]
    rcases hw : s₁.wants verdict r.slotCount with ⟨wanted, s₂⟩
    simp only
    split
    · have hfree : Session.holding ((((s.replace i s₁).note i
          [.inspected (s.shards.get i).total r.size]).replace i s₂).note i
          [.asked verdict r.slotCount]) i = false := h
      rw [guarded_work hfree none fun shard => shard.resize verdict]
      simp only [shards_note, get_replace_self, note_replace, note_note, replace_replace]
      rfl
    · simp only [note_replace, note_note, replace_replace]
      rfl

variable [BEq K]

theorem perform_of_holding {s : Session n S K V P M} {i : Fin n} (h : s.holding i = true)
    (hash : UInt64) (op : Operation K V R) : s.perform i hash op = (.error .reentry, s) := by
  unfold perform
  rw [guarded_of_holding h]

theorem perform_eq {s : Session n S K V P M} {i : Fin n} (h : s.holding i = false) (hash : UInt64)
    (op : Operation K V R) :
    s.perform i hash op = (((s.shards.get i).perform hash op).1,
      (s.replace i ((s.shards.get i).perform hash op).2.1).note i
        ((s.shards.get i).perform hash op).2.2) := by
  have hg := guarded_work h none fun shard : Shard S K V P =>
    ((shard.access hash op).1, (shard.access hash op).2, [])
  unfold perform Shard.perform
  simp only [onShard_replace]
  simp only [note_nil] at hg
  rw [hg]
  rcases hx : (s.shards.get i).access hash op with ⟨result, s₁⟩
  cases result with
  | error p => rfl
  | ok done =>
    obtain ⟨answer, report⟩ := done
    cases report with
    | none => rfl
    | some r =>
      have hfree : (s.replace i s₁).holding i = false := h
      simp only [consult_eq hfree, get_replace_self, replace_replace]
      rcases s₁.settle r with ⟨settled, s₂, events⟩
      cases settled <;> rfl

end Policy

end Session

end ShardedMap
