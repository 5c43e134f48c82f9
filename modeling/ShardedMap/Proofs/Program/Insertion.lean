import ShardedMap.Policy.Scripted
import ShardedMap.Proofs.Program.Frame
import ShardedMap.Proofs.Program.Moments
import ShardedMap.Proofs.Shard.Insertion
/-
  Insertions in programs. In every session that a program passes, `put` and `insertNew` of a pair
  that is absent leave the same session, policies and their calls included, and both answer or both
  panic; of a pair that is present, one replaces the value and the other does nothing
  (`Session.Inserts`).
-/
namespace ShardedMap

variable {S : Type → Type} {H : Type} [DecidableEq H] [Storage S H] [LawfulStorage S H]

variable {A : Type} {n : Nat} {K V P M R : Type}

/-- How `put` and `insertNew` of one pair under `hash` go on shard `i` in the session `s`. -/
structure Session.Inserts [BEq K] [ResizePolicy P] (R : Type) (s : Session n S K V P M) (i : Fin n)
    (hash : UInt64) (key : K) (value : V) : Prop where
  /-- On a shard that the thread has entered, both panic and do nothing. -/
  entered : i ∈ s.entered →
    s.perform i hash (.put key value : Operation K V R) = (.error .reentry, s) ∧
      s.perform i hash (.insertNew key value : Operation K V R) = (.error .reentry, s)
  /-- An absent pair is new to both. They leave the same session: the entry in front of its chain
  and counted, and whatever the policy makes of that, asked the same. They answer unless the plan
  that the policy comes to has a target of zero, which makes both panic. -/
  absent : let shard := s.shards.get i
    let put := s.perform i hash (.put key value : Operation K V R)
    let insert := s.perform i hash (.insertNew key value : Operation K V R)
    let planned := (shard.pushed hash key value).planned
      ⟨shard.homeSize hash + 1, shard.slots.size, false⟩
    i ∉ s.entered → shard.has hash key = false →
      put.2 = insert.2 ∧
      ((∀ plan ∈ planned, 0 ∉ plan.targets) →
        put.1 = .ok (.replaced none) ∧ insert.1 = .ok (.inserted (.ok ()))) ∧
      ∀ plan ∈ planned, 0 ∈ plan.targets →
        put.1 = .error .resizeToZero ∧ insert.1 = .error .resizeToZero
  /-- A pair that is present is refused by `insertNew`, and nothing has happened at all. -/
  refused : i ∉ s.entered → (s.shards.get i).has hash key = true →
    s.perform i hash (.insertNew key value : Operation K V R) =
      (.ok (.inserted (.error .duplicateKey)), s)
  /-- Of a pair that is present, `put` replaces the value and nothing else, and then consults the
  policy about a chain as long as before. -/
  replaced : let shard := s.shards.get i
    let assigned := shard.assign hash key value
    let settled := assigned.settle ⟨shard.homeSize hash, shard.slots.size, false⟩
    i ∉ s.entered → shard.has hash key = true →
      (∃ old, shard.value? hash key = .ok (some old) ∧
        s.perform i hash (.put key value : Operation K V R) =
          (settled.1.map fun () => .replaced (some old),
            (s.replace i settled.2.1).note i settled.2.2)) ∧
      shard.SameBut hash key assigned ∧ assigned.value? hash key = .ok (some value) ∧
      settled.2.2.head? = some (.inspected shard.total (shard.homeSize hash))

namespace Session

variable [BEq K] [EquivBEq K] [ResizePolicy P]

theorem inserts {s : Session n S K V P M} {i : Fin n} (hs : (s.shards.get i).Sound) (hash : UInt64)
    (key : K) (value : V) : s.Inserts R i hash key value where
  entered h :=
    ⟨perform_of_holding (mem_entered.1 h) hash _, perform_of_holding (mem_entered.1 h) hash _⟩
  absent := by
    intro shard put insert planned hfree habsent
    obtain ⟨hput, hinsert⟩ := hs.perform_absent (R := R) habsent value
    have hputs := perform_eq (not_mem_entered.1 hfree) hash (.put key value : Operation K V R)
    have hinserts := perform_eq (not_mem_entered.1 hfree) hash
      (.insertNew key value : Operation K V R)
    rw [hput] at hputs
    rw [hinsert] at hinserts
    simp only [put, insert]
    rw [hputs, hinserts]
    refine ⟨rfl, ?_, ?_⟩
    · intro hplans
      rw [Shard.settle_carried hplans]
      exact ⟨rfl, rfl⟩
    · intro plan hplan hzero
      rw [Shard.settle_of_zero hplan hzero]
      exact ⟨rfl, rfl⟩
  refused hfree hpresent := by
    rw [perform_eq (not_mem_entered.1 hfree), hs.perform_refused hpresent]
    simp only [replace_get, note_nil]
  replaced := by
    intro shard assigned settled hfree hpresent
    obtain ⟨old, hold, hput⟩ := hs.perform_replaced (R := R) hpresent value
    refine ⟨⟨old, hold, ?_⟩, shard.sameBut_assign hash key value, hs.value?_assign hpresent value,
      assigned.settle_inspects _⟩
    rw [perform_eq (not_mem_entered.1 hfree), hput]

end Session

namespace Program

open Session

variable [BEq K] [EquivBEq K] [ResizePolicy P]

/-- Shards that were fresh in the beginning, with whatever policies, one alone or those of a map: in
every session that a program passes, `put` and `insertNew` of any pair go alike where it is absent,
and where it is present one replaces its value and the other does nothing. -/
theorem inserts_alike {shards : Vector (Shard S K V P) n}
    (hfresh : ∀ i, ∃ slotCount policy, 0 < slotCount ∧ shards.get i = Shard.fresh slotCount policy)
    (memory : M) (locate : A → K → Fin n × UInt64) (program : Program A n K V P M R) :
    ∀ s ∈ program.passed locate (.start shards memory),
      ∀ i hash key value, s.Inserts R i hash key value := by
  intro s hs i hash key value
  exact inserts (sound_passed hfresh memory locate program s hs i) hash key value

/-- An insertion that makes two slots four, and one more of the same key. -/
theorem inserts_alike_doubled :
    let policy : ScriptedPolicy := ⟨0, some 1, none, .always, 2, 1, 0, true, true⟩
    let s : Session 1 Arena Nat Nat ScriptedPolicy Unit := .start #v[Shard.fresh 2 policy] ()
    let put : Operation Nat Nat Unit := .put 1 5
    let insert : Operation Nat Nat Unit := .insertNew 1 5
    let t := (s.perform 0 1 insert).2
    (s.perform 0 1 put).1 = .ok (.replaced none) ∧
    (s.perform 0 1 insert).1 = .ok (.inserted (.ok ())) ∧
    (s.perform 0 1 put).2 = t ∧ (t.shards.get 0).slots.size = 4 ∧
    t.perform 0 1 (.insertNew 1 7 : Operation Nat Nat Unit) =
      (.ok (.inserted (.error .duplicateKey)), t) := by
  intro policy s put insert t
  let program : Program Unit 1 Nat Nat ScriptedPolicy Unit Unit :=
    .perform () insert fun _ => .done ()
  let locate : Unit → Nat → Fin 1 × UInt64 := fun _ _ => (0, 1)
  have hpassed : s ∈ program.passed locate s ∧ t ∈ program.passed locate s := by
    simp [program, passed, locate, t, insert]
  have hinserts :=
    inserts_alike (S := Arena) (fresh_single Nat.zero_lt_two policy) () locate program
  obtain ⟨hsame, hanswers, -⟩ := (hinserts s hpassed.1 0 1 1 5).absent nofun (by decide +kernel)
  have hplans : ∀ plan ∈ ((s.shards.get 0).pushed 1 1 5).planned ⟨1, 2, false⟩,
      0 ∉ plan.targets := by
    decide +kernel
  obtain ⟨hput, hinsert⟩ := hanswers hplans
  exact ⟨hput, hinsert, hsame, by decide +kernel,
    (hinserts t hpassed.2 0 1 1 7).refused (by decide +kernel) (by decide +kernel)⟩

/-- Neither way to insert answers if the policy sends the entries to no slots. -/
theorem inserts_to_zero :
    let policy : ScriptedPolicy := ⟨0, some 0, none, .always, 0, 1, 0, true, false⟩
    let s : Session 1 Arena Nat Nat ScriptedPolicy Unit := .start #v[Shard.fresh 1 policy] ()
    (s.shards.get 0).has 1 1 = false ∧
    (s.perform 0 1 (.insertNew 1 1 : Operation Nat Nat Unit)).1 = .error .resizeToZero ∧
    (s.perform 0 1 (.put 1 1 : Operation Nat Nat Unit)).1 = .error .resizeToZero :=
  ⟨by decide +kernel, rfl, rfl⟩

end Program

end ShardedMap
