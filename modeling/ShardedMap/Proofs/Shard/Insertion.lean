import ShardedMap.Proofs.Shard.Unwinding
/-
  The two ways to insert. `put` looks for the entry for its key and puts a new one in front if there
  is none; `insertNew` asks whether there is one and pushes without looking. On a key that is absent
  they leave the same chain, down to its nodes, and report the same, so whatever follows is the same
  (`perform_absent`). On a key that is present, `insertNew` is nothing at all (`perform_refused`),
  and `put` assigns the value and consults the policy about a chain as long as before
  (`perform_replaced`).
-/
namespace ShardedMap

universe u v w x

/-! ## On a chain -/

namespace Links

variable {S : Type (max u v) → Type (max u v)} {H : Type} [Storage S H]
variable {K : Type u} {V : Type v} {β : Type w} {γ : Type x}

theorem update_of_absent {c : Links S H K V} {p : Entry K V → Bool} (h : c.find? p = none)
    (f : V → β × V) : c.update p f = (none, c) := by
  unfold find? at h
  unfold update
  cases hplace : c.find p with
  | none => rfl
  | some place =>
    rw [hplace] at h
    have hget : Storage.get? c.arena place.2 = none := Option.map_eq_none_iff.1 h
    simp only [hget]

/-- What an update leaves does not depend on what it answers. -/
theorem update_snd (c : Links S H K V) (p : Entry K V → Bool) {f : V → β × V} {g : V → γ × V}
    (h : ∀ value, (f value).2 = (g value).2) : (c.update p f).2 = (c.update p g).2 := by
  unfold update
  split
  · rfl
  · split
    · rfl
    · simp only [h]

variable [BEq K]

theorem insert_of_absent {c : Links S H K V} {e : Entry K V} (h : c.lookup e.hash e.key = none) :
    c.insert e = (none, c.push e) := by
  unfold insert modify
  rw [update_of_absent h]

theorem insert_of_present {c : Links S H K V} {e : Entry K V} {old : V}
    (h : (c.modify e.hash e.key fun value => (value, e.value)).1 = some old) :
    c.insert e = (some old, (c.modify e.hash e.key fun _ => ((), e.value)).2) := by
  have hleft : (c.modify e.hash e.key fun value => (value, e.value)).2 =
      (c.modify e.hash e.key fun _ => ((), e.value)).2 := c.update_snd _ fun _ => rfl
  unfold insert
  rw [← hleft]
  split
  · rename_i hdone
    rw [hdone] at h
    cases h
    rw [hdone]
  · rename_i hdone
    rw [hdone] at h
    cases h

end Links

namespace Chain

variable {S : Type (max u v) → Type (max u v)} {H : Type} [DecidableEq H] [Storage S H]
  [LawfulStorage S H]
variable {K : Type u} {V : Type v}

theorem eq_of_links {c c' : Chain S K V} (h : c.links = c'.links) : c = c' := by
  cases c
  cases h
  rfl

variable [BEq K]

theorem insert_of_absent {c : Chain S K V} {e : Entry K V} (h : c.contains e.hash e.key = false) :
    c.insert e = (none, c.push e) := by
  have hlookup : c.links.lookup e.hash e.key = none :=
    Option.isNone_iff_eq_none.1 (Option.isSome_eq_false_iff.1 h)
  have hinsert := Links.insert_of_absent hlookup
  have hanswer : (c.insert e).1 = none := congrArg Prod.fst hinsert
  have hlinks : (c.insert e).2.links = c.links.push e := congrArg Prod.snd hinsert
  exact Prod.ext hanswer (eq_of_links hlinks)

theorem insert_of_present {c : Chain S K V} {hash : UInt64} {key : K} {old : V}
    (h : c.get? hash key = some old) (value : V) :
    c.insert ⟨key, hash, value⟩ = (some old, (c.modify hash key fun _ => ((), value)).2) := by
  have hfound := c.modify_fst hash key fun old => (old, value)
  rw [c.get?_eq] at h
  have hinsert := Links.insert_of_present (e := ⟨key, hash, value⟩) (hfound.trans h)
  have hanswer : (c.insert ⟨key, hash, value⟩).1 = some old := congrArg Prod.fst hinsert
  have hlinks : (c.insert ⟨key, hash, value⟩).2.links =
      (c.modify hash key fun _ => ((), value)).2.links := congrArg Prod.snd hinsert
  exact Prod.ext hanswer (eq_of_links hlinks)

end Chain

/-! ## On a shard -/

namespace Slots

variable {S : Type (max u v) → Type (max u v)} {H : Type} [DecidableEq H] [Storage S H]
  [LawfulStorage S H]
variable {K : Type u} {V : Type v}

theorem set_chainAt {slots : Slots S K V} {j : Nat} (h : j < slots.size) :
    slots.setIfInBounds j (slots.chainAt j) = slots := by
  rw [chainAt_of_lt h, Array.setIfInBounds, dif_pos h]
  exact Array.set_getElem_self h

end Slots

namespace Shard

variable {S : Type → Type} {H : Type} [DecidableEq H] [Storage S H] [LawfulStorage S H]
variable {K V P R : Type} [BEq K]

theorem Sound.contains_home [EquivBEq K] {s : Shard S K V P} (hs : s.Sound) (hash : UInt64)
    (key : K) :
    (s.slots.chainAt (Slots.home hash s.slots.size)).contains hash key = s.has hash key := by
  obtain ⟨found, rest, hbefore, hhit, hmiss, hdone, -⟩ :=
    hs.onHome hash (.contains key : Operation K V Unit)
  have hpresent := Answer.present.inj (congrArg Prod.fst hdone)
  exact hpresent.trans (has_eq_isSome hbefore hhit hmiss).symm

/-- The shard with a new entry in front of its chain, counted. -/
def pushed (s : Shard S K V P) (hash : UInt64) (key : K) (value : V) : Shard S K V P :=
  { s with
    slots := s.slots.setIfInBounds (Slots.home hash s.slots.size)
      ((s.slots.chainAt (Slots.home hash s.slots.size)).push ⟨key, hash, value⟩)
    total := s.total + 1 }

/-- The size of the chain that `hash` belongs to. -/
def homeSize (s : Shard S K V P) (hash : UInt64) : Nat :=
  (s.slots.chainAt (Slots.home hash s.slots.size)).size

variable [EquivBEq K] {s : Shard S K V P} {hash : UInt64} {key : K}

/-- On an absent key, both ways to insert push the entry and report the same. -/
theorem Sound.access_absent (hs : s.Sound) (h : s.has hash key = false) (value : V) :
    let r : Report := ⟨s.homeSize hash + 1, s.slots.size, false⟩
    s.access hash (.put key value : Operation K V R) =
        (.ok (.replaced none, some r), s.pushed hash key value) ∧
      s.access hash (.insertNew key value : Operation K V R) =
        (.ok (.inserted (.ok ()), some r), s.pushed hash key value) := by
  intro r
  let c := s.slots.chainAt (Slots.home hash s.slots.size)
  have habsent : c.contains hash key = false := (hs.contains_home hash key).trans h
  have hput : (.put key value : Operation K V R).onChain hash c =
      ((.replaced none, .added), c.push ⟨key, hash, value⟩) := by
    simp only [Operation.onChain, Chain.insert_of_absent (e := ⟨key, hash, value⟩) habsent]
  have hinsert : (.insertNew key value : Operation K V R).onChain hash c =
      ((.inserted (.ok ()), .added), c.push ⟨key, hash, value⟩) := by
    simp only [Operation.onChain, habsent, Bool.false_eq_true, if_false]
  have hsize : (c.push ⟨key, hash, value⟩).size = c.size + 1 := by
    rw [Chain.size_eq, Chain.size_eq, Chain.toList_push, List.length_cons]
  constructor
  · rw [access_of_pos hs.pos, hput, hsize]
    rfl
  · rw [access_of_pos hs.pos, hinsert, hsize]
    rfl

/-- On a key that is present, a new entry is refused, and the shard is not touched. -/
theorem Sound.access_refused (hs : s.Sound) (h : s.has hash key = true) (value : V) :
    s.access hash (.insertNew key value : Operation K V R) =
      (.ok (.inserted (.error .duplicateKey), none), s) := by
  let c := s.slots.chainAt (Slots.home hash s.slots.size)
  have hpresent : c.contains hash key = true := (hs.contains_home hash key).trans h
  have hinsert : (.insertNew key value : Operation K V R).onChain hash c =
      ((.inserted (.error .duplicateKey), .none), c) := by
    simp only [Operation.onChain, hpresent, if_true]
  rw [access_of_pos hs.pos, hinsert, Slots.set_chainAt (Slots.home_lt hash hs.pos)]
  rfl

/-- On a key that is present, `put` assigns the value and reports the chain as it was. -/
theorem Sound.access_replaced (hs : s.Sound) (h : s.has hash key = true) (value : V) :
    ∃ old, s.value? hash key = .ok (some old) ∧
      s.access hash (.put key value : Operation K V R) =
        (.ok (.replaced (some old), some ⟨s.homeSize hash, s.slots.size, false⟩),
          s.assign hash key value) := by
  let c := s.slots.chainAt (Slots.home hash s.slots.size)
  have hpresent : c.contains hash key = true := (hs.contains_home hash key).trans h
  obtain ⟨e, he⟩ := Option.isSome_iff_exists.1 hpresent
  have hold : c.get? hash key = some e.value := congrArg (Option.map Entry.value) he
  have hput : (.put key value : Operation K V R).onChain hash c =
      ((.replaced (some e.value), .replaced), (c.modify hash key fun _ => ((), value)).2) := by
    simp only [Operation.onChain, Chain.insert_of_present hold]
  have hsize := (.put key value : Operation K V R).totalAfter_size hash c
  rw [hput] at hsize
  refine ⟨e.value, (value?_of_pos hs.pos hash key).trans (congrArg Except.ok hold), ?_⟩
  rw [access_of_pos hs.pos, hput, ← Except.ok.inj hsize, assign_of_pos hs.pos]
  rfl

/-- The value assigned to a key that is present is the one found afterwards. -/
theorem Sound.value?_assign (hs : s.Sound) (h : s.has hash key = true) (value : V) :
    (s.assign hash key value).value? hash key = .ok (some value) := by
  let c := s.slots.chainAt (Slots.home hash s.slots.size)
  have hsize : (s.assign hash key value).slots.size = s.slots.size := by
    rw [assign_of_pos hs.pos]
    exact Array.size_setIfInBounds
  rw [value?_of_pos (hsize ▸ hs.pos), hsize, assign_of_pos hs.pos,
    Slots.chainAt_set_self (Slots.home_lt hash hs.pos), Chain.get?_eq, Chain.toList_modify]
  have hpresent : c.contains hash key = true := (hs.contains_home hash key).trans h
  rw [Chain.contains_eq] at hpresent
  rcases Entry.split_first (Entry.isFor hash key) c.toList with hn | ⟨l, e, r, hlist, hl, he⟩
  · rw [Entry.find?_of_none hn] at hpresent
    cases hpresent
  · rw [hlist, Entry.rewriteFirst_of_some hl he, Entry.find?_of_first hl (e := { e with value }) he]
    rfl

/-! ## Whole operations -/

variable [ResizePolicy P]

omit [BEq K] [EquivBEq K] in
/-- The first that happens when a report is taken to the policy is that it judges the size. -/
theorem settle_inspects (s : Shard S K V P) (r : Report) :
    (s.settle r).2.2.head? = some (.inspected s.total r.size) := by
  unfold settle
  simp only
  split
  · rfl
  · split <;> rfl

omit [BEq K] [EquivBEq K] in
theorem settle_of_zero {s : Shard S K V P} {r : Report} {plan : Plan P}
    (hplan : s.planned r = some plan) (h : 0 ∈ plan.targets) :
    (s.settle r).1 = .error .resizeToZero := by
  obtain ⟨tried, rest, htargets, htried⟩ := List.eq_append_cons_of_mem h
  obtain ⟨events, hsettle, -⟩ := settle_stopped hplan htargets htried
  rw [hsettle]

theorem Sound.perform_absent (hs : s.Sound) (h : s.has hash key = false) (value : V) :
    let settled := (s.pushed hash key value).settle ⟨s.homeSize hash + 1, s.slots.size, false⟩
    s.perform hash (.put key value : Operation K V R) =
        (settled.1.map fun () => .replaced none, settled.2) ∧
      s.perform hash (.insertNew key value : Operation K V R) =
        (settled.1.map fun () => .inserted (.ok ()), settled.2) := by
  intro settled
  obtain ⟨hput, hinsert⟩ := hs.access_absent (R := R) h value
  constructor
  · unfold Shard.perform
    rw [hput]
  · unfold Shard.perform
    rw [hinsert]

theorem Sound.perform_refused (hs : s.Sound) (h : s.has hash key = true) (value : V) :
    s.perform hash (.insertNew key value : Operation K V R) =
      (.ok (.inserted (.error .duplicateKey)), s, []) := by
  unfold Shard.perform
  rw [hs.access_refused h]

theorem Sound.perform_replaced (hs : s.Sound) (h : s.has hash key = true) (value : V) :
    let settled := (s.assign hash key value).settle ⟨s.homeSize hash, s.slots.size, false⟩
    ∃ old, s.value? hash key = .ok (some old) ∧
      s.perform hash (.put key value : Operation K V R) =
        (settled.1.map fun () => .replaced (some old), settled.2) := by
  intro settled
  obtain ⟨old, hold, hput⟩ := hs.access_replaced (R := R) h value
  refine ⟨old, hold, ?_⟩
  unfold Shard.perform
  rw [hput]

end Shard

end ShardedMap
