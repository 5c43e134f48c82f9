import ShardedMap.Operation
/-
  A keyed operation concerns one entry. `onEntry` says what it answers and what becomes of the entry
  for its key, going by the entry found, if any. On a chain it answers by the first such entry
  (`onChain_fst`) and works at the place of that entry (`toList_onChain_hit`), or in front if there
  is none (`toList_onChain_miss`). No operation gives an entry another hash or key.
-/
namespace ShardedMap

universe u v w

namespace Entry

variable {K : Type u} {V : Type v}

/-- `a` and `b` differ in hash or key, so that a look-up tells them apart. -/
def Apart [BEq K] (a b : Entry K V) : Prop := ¬ (a.hash = b.hash ∧ (a.key == b.key) = true)

theorem isFor_iff [BEq K] {hash : UInt64} {key : K} {e : Entry K V} :
    e.isFor hash key = true ↔ e.hash = hash ∧ (e.key == key) = true := by
  simp [isFor]

theorem isFor_eq_false_of_hash_ne [BEq K] {hash : UInt64} {key : K} {e : Entry K V}
    (h : e.hash ≠ hash) : e.isFor hash key = false := by
  rw [← Bool.not_eq_true, isFor_iff]
  exact fun hk => h hk.1

theorem Apart.symm [BEq K] [PartialEquivBEq K] {a b : Entry K V} (h : a.Apart b) : b.Apart a :=
  fun ⟨hh, hk⟩ => h ⟨hh.symm, BEq.symm hk⟩

theorem pairwise_apart_perm [BEq K] [PartialEquivBEq K] {l r : List (Entry K V)}
    (h : l.Perm r) : l.Pairwise Apart ↔ r.Pairwise Apart :=
  h.pairwise_iff fun ha => ha.symm

/-- What is told apart from an entry is not found where that entry is looked up. -/
theorem Apart.isFor_eq_false [BEq K] [PartialEquivBEq K] {a b : Entry K V} {hash : UInt64}
    {key : K} (h : a.Apart b) (ha : a.isFor hash key = true) : b.isFor hash key = false := by
  rw [← Bool.not_eq_true, isFor_iff]
  rw [isFor_iff] at ha
  intro hb
  exact h ⟨ha.1.trans hb.1.symm, BEq.trans ha.2 (BEq.symm hb.2)⟩

/-- An entry found by a look-up is told apart from all that the look-up passes over. -/
theorem apart_of_isFor [BEq K] [PartialEquivBEq K] {a b : Entry K V} {hash : UInt64} {key : K}
    (ha : a.isFor hash key = true) (hb : b.isFor hash key = false) : a.Apart b := by
  rintro ⟨hh, hk⟩
  rw [isFor_iff] at ha
  have hfound : b.isFor hash key = true :=
    isFor_iff.2 ⟨hh.symm.trans ha.1, BEq.trans (BEq.symm hk) ha.2⟩
  rw [hfound] at hb
  cases hb

theorem find?_of_first {p : Entry K V → Bool} {l r : List (Entry K V)} {e : Entry K V}
    (hl : ∀ x ∈ l, p x = false) (he : p e = true) : (l ++ e :: r).find? p = some e :=
  List.find?_eq_some_iff_append.2 ⟨he, l, r, rfl, fun x hx => by rw [hl x hx]; rfl⟩

theorem split_first (p : Entry K V → Bool) (es : List (Entry K V)) :
    (∀ e ∈ es, p e = false) ∨
      ∃ l e r, es = l ++ e :: r ∧ (∀ x ∈ l, p x = false) ∧ p e = true := by
  cases hf : es.find? p with
  | none =>
    left
    intro e he
    simpa using List.find?_eq_none.1 hf e he
  | some e =>
    obtain ⟨he, l, r, rfl, hl⟩ := List.find?_eq_some_iff_append.1 hf
    exact Or.inr ⟨l, e, r, rfl, fun x hx => by simpa using hl x hx, he⟩

end Entry

namespace Operation

variable {K : Type u} {V : Type v} {R : Type w}

/-- What an operation answers and does, and what becomes of the entry for its key, going by the
entry found. -/
def onEntry (hash : UInt64) (op : Operation K V R) (found : Option (Entry K V)) :
    (Answer V R × Effect) × Option (Entry K V) :=
  match op, found with
  | put _ value, some e => ((.replaced (some e.value), .replaced), some { e with value })
  | put key value, none => ((.replaced none, .added), some ⟨key, hash, value⟩)
  | insertNew _ _, some e => ((.inserted (.error .duplicateKey), .none), some e)
  | insertNew key value, none => ((.inserted (.ok ()), .added), some ⟨key, hash, value⟩)
  | get _, found => ((.value (found.map Entry.value), .none), found)
  | contains _, found => ((.present found.isSome, .none), found)
  | read _ f, found => ((.computed (found.map fun e => f e.value), .none), found)
  | update _ f, found =>
    ((.computed (found.map fun e => (f e.value).1), .none),
      found.map fun e => { e with value := (f e.value).2 })
  | remove _, some e => ((.value (some e.value), .removed), none)
  | remove _, none => ((.value none, .none), none)
  | delete _, some _ => ((.present true, .removed), none)
  | delete _, none => ((.present false, .none), none)

/-- An operation keeps the key and hash of the entry found, unless it takes it out. -/
theorem onEntry_some {hash : UInt64} {op : Operation K V R} {e e' : Entry K V}
    (h : (op.onEntry hash (some e)).2 = some e') : e'.hash = e.hash ∧ e'.key = e.key := by
  cases op <;> cases h <;> exact ⟨rfl, rfl⟩

theorem onEntry_none {hash : UInt64} {op : Operation K V R} {e' : Entry K V}
    (h : (op.onEntry hash none).2 = some e') : e'.hash = hash ∧ e'.key = op.key := by
  cases op <;> cases h <;> exact ⟨rfl, rfl⟩

/-- What is true of the hashes and keys of the entry found and of the operation is true of those of
the entry left. -/
theorem onEntry_keeps {C : UInt64 → K → Prop} {hash : UInt64} {op : Operation K V R}
    {found : Option (Entry K V)} (hfound : ∀ e ∈ found, C e.hash e.key) (hop : C hash op.key) :
    ∀ e ∈ (op.onEntry hash found).2, C e.hash e.key := by
  intro e' he'
  cases found with
  | none =>
    obtain ⟨hh, hk⟩ := onEntry_none he'
    rw [hh, hk]
    exact hop
  | some e =>
    obtain ⟨hh, hk⟩ := onEntry_some he'
    rw [hh, hk]
    exact hfound e rfl

theorem isFor_onEntry [BEq K] [EquivBEq K] {hash : UInt64} {op : Operation K V R}
    {found : Option (Entry K V)} (hfound : ∀ e ∈ found, e.isFor hash op.key = true) :
    ∀ e ∈ (op.onEntry hash found).2, e.isFor hash op.key = true := by
  intro e' he'
  have hkeep := onEntry_keeps (C := fun h k => h = hash ∧ (k == op.key) = true)
    (fun e he => Entry.isFor_iff.1 (hfound e he)) ⟨rfl, BEq.rfl⟩
  exact Entry.isFor_iff.2 (hkeep e' he')

theorem distinct_onEntry [BEq K] [EquivBEq K] {hash : UInt64} {op : Operation K V R}
    {found : Option (Entry K V)} {rest : List (Entry K V)}
    (h : (found.toList ++ rest).Pairwise Entry.Apart)
    (hhit : ∀ e ∈ found, e.isFor hash op.key = true)
    (hmiss : ∀ e ∈ rest, e.isFor hash op.key = false) :
    ((op.onEntry hash found).2.toList ++ rest).Pairwise Entry.Apart := by
  have hrest := (List.pairwise_append.1 h).2.1
  refine List.pairwise_append.2 ⟨?_, hrest, ?_⟩
  · cases (op.onEntry hash found).2 with
    | none => exact List.Pairwise.nil
    | some e => exact List.pairwise_singleton _ e
  · intro a ha b hb
    have hfor := isFor_onEntry hhit a (Option.mem_toList.1 ha)
    exact Entry.apart_of_isFor hfor (hmiss b hb)

/-! ## On a chain -/

variable {S : Type (max u v) → Type (max u v)} {H : Type} [DecidableEq H] [Storage S H]
  [LawfulStorage S H]
variable [BEq K]

/-- What an operation answers and does on a chain goes by the first entry for its key. -/
theorem onChain_fst (hash : UInt64) (op : Operation K V R) (c : Chain S K V) :
    (op.onChain hash c).1 =
      (op.onEntry hash (c.toList.find? (Entry.isFor hash op.key))).1 := by
  cases op with
  | put k value =>
    have ha := c.insert_fst ⟨k, hash, value⟩
    rcases hi : c.insert ⟨k, hash, value⟩ with ⟨old, c'⟩
    rw [hi] at ha
    simp only [onChain, hi, Operation.key]
    cases hf : c.toList.find? (Entry.isFor hash k) with
    | none => rw [hf] at ha; cases ha; rfl
    | some e => rw [hf] at ha; cases ha; rfl
  | insertNew k value =>
    simp only [onChain, c.contains_eq, Operation.key]
    cases hf : c.toList.find? (Entry.isFor hash k) with
    | none => rfl
    | some e => rfl
  | get k =>
    simp only [onChain, c.get?_eq, Operation.key]
    rfl
  | contains k =>
    simp only [onChain, c.contains_eq, Operation.key]
    rfl
  | read k f =>
    simp only [onChain, c.get?_eq, Operation.key, Option.map_map]
    rfl
  | update k f =>
    simp only [onChain, c.modify_fst, Operation.key]
    rfl
  | remove k =>
    have ha := c.remove_fst hash k
    rcases hi : c.remove hash k with ⟨out, c'⟩
    rw [hi] at ha
    simp only [onChain, hi, Operation.key]
    cases hf : c.toList.find? (Entry.isFor hash k) with
    | none => rw [hf] at ha; cases ha; rfl
    | some e => rw [hf] at ha; cases ha; rfl
  | delete k =>
    have ha := c.remove_fst hash k
    rcases hi : c.remove hash k with ⟨out, c'⟩
    rw [hi] at ha
    simp only [onChain, hi, Operation.key]
    cases hf : c.toList.find? (Entry.isFor hash k) with
    | none => rw [hf] at ha; cases ha; rfl
    | some e => rw [hf] at ha; cases ha; rfl

/-- The chain that an operation leaves, as one of the four ways to work on a chain. -/
theorem onChain_snd (hash : UInt64) (op : Operation K V R) (c : Chain S K V) :
    (op.onChain hash c).2 =
      match op with
      | put k value => (c.insert ⟨k, hash, value⟩).2
      | insertNew k value => if c.contains hash k then c else c.push ⟨k, hash, value⟩
      | get _ | contains _ | read _ _ => c
      | update k f => (c.modify hash k f).2
      | remove k | delete k => (c.remove hash k).2 := by
  cases op with
  | put k value =>
    simp only [onChain]
    split <;> rename_i h <;> rw [h]
  | insertNew k value =>
    simp only [onChain]
    split <;> rfl
  | remove k =>
    simp only [onChain]
    split <;> rename_i h <;> rw [h]
  | delete k =>
    simp only [onChain]
    split <;> rename_i h <;> rw [h]
  | get | contains | read | update => rfl

theorem toList_onChain_miss (hash : UInt64) (op : Operation K V R) {c : Chain S K V}
    (h : ∀ e ∈ c.toList, e.isFor hash op.key = false) :
    (op.onChain hash c).2.toList = (op.onEntry hash none).2.toList ++ c.toList := by
  have hf : c.toList.find? (Entry.isFor hash op.key) = none := Entry.find?_of_none h
  have herase : c.toList.eraseP (Entry.isFor hash op.key) = c.toList :=
    List.eraseP_of_forall_not fun e he => by rw [h e he]; exact Bool.false_ne_true
  rw [onChain_snd]
  cases op with
  | put k value =>
    show (c.insert ⟨k, hash, value⟩).2.toList = [⟨k, hash, value⟩] ++ c.toList
    rw [c.toList_insert]
    simp only [Operation.key] at hf
    rw [hf]
    rfl
  | insertNew k value =>
    have hc : c.contains hash k = false := by
      rw [c.contains_eq]
      exact congrArg Option.isSome hf
    show (if c.contains hash k = true then c else c.push ⟨k, hash, value⟩).toList = _
    rw [hc]
    exact c.toList_push _
  | get | contains | read => rfl
  | update k f =>
    show (c.modify hash k f).2.toList = c.toList
    rw [c.toList_modify]
    exact Entry.rewriteFirst_of_none h
  | remove k =>
    show (c.remove hash k).2.toList = c.toList
    rw [c.toList_remove]
    exact herase
  | delete k =>
    show (c.remove hash k).2.toList = c.toList
    rw [c.toList_remove]
    exact herase

/-- On a chain with an entry for its key, an operation works at the place of the first of them. -/
theorem toList_onChain_hit (hash : UInt64) (op : Operation K V R) {c : Chain S K V}
    {l r : List (Entry K V)} {e : Entry K V} (hc : c.toList = l ++ e :: r)
    (hl : ∀ x ∈ l, x.isFor hash op.key = false) (he : e.isFor hash op.key = true) :
    (op.onChain hash c).2.toList = l ++ ((op.onEntry hash (some e)).2.toList ++ r) := by
  have hf : c.toList.find? (Entry.isFor hash op.key) = some e := by
    rw [hc]
    exact Entry.find?_of_first hl he
  have herase : c.toList.eraseP (Entry.isFor hash op.key) = l ++ r := by
    rw [hc, List.eraseP_append_right _ fun x hx => by rw [hl x hx]; exact Bool.false_ne_true,
      List.eraseP_cons_of_pos he]
  rw [onChain_snd]
  cases op with
  | put k value =>
    show (c.insert ⟨k, hash, value⟩).2.toList = l ++ ([{ e with value }] ++ r)
    rw [c.toList_insert]
    simp only [Operation.key] at hf
    rw [hf, hc]
    exact Entry.rewriteFirst_of_some hl he
  | insertNew k value =>
    have hc' : c.contains hash k = true := by
      rw [c.contains_eq]
      exact congrArg Option.isSome hf
    show (if c.contains hash k = true then c else c.push ⟨k, hash, value⟩).toList = _
    rw [hc']
    exact hc
  | get | contains | read => exact hc
  | update k f =>
    show (c.modify hash k f).2.toList = l ++ ([{ e with value := (f e.value).2 }] ++ r)
    rw [c.toList_modify, hc]
    exact Entry.rewriteFirst_of_some hl he
  | remove k =>
    show (c.remove hash k).2.toList = l ++ r
    rw [c.toList_remove]
    exact herase
  | delete k =>
    show (c.remove hash k).2.toList = l ++ r
    rw [c.toList_remove]
    exact herase

/-- On a chain of entries told apart, an operation finds the one entry for its key, if there is one,
and passes over all others. -/
theorem onChain_spec [PartialEquivBEq K] (hash : UInt64) (op : Operation K V R) {c : Chain S K V}
    (hc : c.toList.Pairwise Entry.Apart) :
    ∃ (found : Option (Entry K V)) (rest : List (Entry K V)),
      c.toList.Perm (found.toList ++ rest) ∧
      (∀ e ∈ found, e.isFor hash op.key = true) ∧ (∀ e ∈ rest, e.isFor hash op.key = false) ∧
      (op.onChain hash c).1 = (op.onEntry hash found).1 ∧
      (op.onChain hash c).2.toList.Perm ((op.onEntry hash found).2.toList ++ rest) := by
  rcases Entry.split_first (Entry.isFor hash op.key) c.toList with hn | ⟨l, e, r, hlist, hl, he⟩
  · refine ⟨none, c.toList, List.Perm.refl _, (fun e he => by cases he), hn, ?_, ?_⟩
    · rw [onChain_fst, Entry.find?_of_none hn]
    · rw [toList_onChain_miss hash op hn]
  · have hr : ∀ x ∈ r, x.isFor hash op.key = false := by
      rw [hlist, List.pairwise_append, List.pairwise_cons] at hc
      exact fun x hx => (hc.2.1.1 x hx).isFor_eq_false he
    have hf : c.toList.find? (Entry.isFor hash op.key) = some e := by
      rw [hlist]
      exact Entry.find?_of_first hl he
    refine ⟨some e, l ++ r, ?_, (fun x hx => by cases hx; exact he), ?_, ?_, ?_⟩
    · rw [hlist]
      exact List.perm_middle
    · intro x hx
      rcases List.mem_append.1 hx with hx | hx
      · exact hl x hx
      · exact hr x hx
    · rw [onChain_fst, hf]
    · rw [toList_onChain_hit hash op hlist hl he]
      exact List.perm_append_comm_assoc _ _ _

end Operation

end ShardedMap
