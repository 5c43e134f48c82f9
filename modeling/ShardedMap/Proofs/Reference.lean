import Mathlib.Data.Finmap
import ShardedMap.Proofs.Operation
/-
  The map that a sharded map stands for: one finite map whose keys are pairs of a hash and a key up
  to equality, and which keeps with a value the key object under which it was stored. `step` says
  what each keyed operation answers and stores there. A list of entries stands for a reference map
  if its entries are those of the map (`Represents`), and then an operation does the same to both
  (`Represents.step`).
-/
namespace ShardedMap

section Keys

variable (K : Type) [BEq K] [EquivBEq K]

/-- Keys count as one if they are equal by `==`. -/
def keySetoid : Setoid K where
  r a b := (a == b) = true
  iseqv := ⟨fun _ => BEq.rfl, fun h => BEq.symm h, fun h h' => BEq.trans h h'⟩

/-- Keys up to equality. -/
def KeyClass : Type := Quotient (keySetoid K)

variable {K} in
def KeyClass.of (key : K) : KeyClass K := Quotient.mk (keySetoid K) key

instance : DecidableEq (KeyClass K) :=
  @Quotient.decidableEq K (keySetoid K) fun a b => inferInstanceAs (Decidable ((a == b) = true))

/-- What tells two associations apart: the hash, and the key up to equality. -/
abbrev Tag := UInt64 × KeyClass K

end Keys

variable {K V R : Type} [BEq K] [EquivBEq K]

/-- The tag of `key` under `hash`. -/
def Tag.of (hash : UInt64) (key : K) : Tag K := (hash, .of key)

theorem KeyClass.of_eq_iff {key key' : K} :
    KeyClass.of key = KeyClass.of key' ↔ (key == key') = true :=
  Quotient.eq (r := keySetoid K)

theorem Tag.of_eq_iff {hash hash' : UInt64} {key key' : K} :
    Tag.of hash key = Tag.of hash' key' ↔ hash = hash' ∧ (key == key') = true := by
  unfold Tag.of
  rw [Prod.mk.injEq, KeyClass.of_eq_iff]

theorem Entry.isFor_iff_tag {hash : UInt64} {key : K} {e : Entry K V} :
    e.isFor hash key = true ↔ Tag.of e.hash e.key = Tag.of hash key :=
  Entry.isFor_iff.trans Tag.of_eq_iff.symm

variable (K V) in
/-- One finite map from tags to the associations stored. -/
abbrev Reference := Finmap fun _ : Tag K => K × V

namespace Reference

/-- What an operation on the association with the tag of `hash` and its key answers and stores. A
`put` that replaces a value keeps the key stored. -/
def step (hash : UInt64) (op : Operation K V R) (m : Reference K V) :
    Answer V R × Reference K V :=
  let tag := Tag.of hash op.key
  match op, m.lookup tag with
  | .put _ value, some (key, old) => (.replaced (some old), m.insert tag (key, value))
  | .put key value, none => (.replaced none, m.insert tag (key, value))
  | .insertNew _ _, some _ => (.inserted (.error .duplicateKey), m)
  | .insertNew key value, none => (.inserted (.ok ()), m.insert tag (key, value))
  | .get _, found => (.value (found.map Prod.snd), m)
  | .contains _, found => (.present found.isSome, m)
  | .read _ f, found => (.computed (found.map fun stored => f stored.2), m)
  | .update _ f, some (key, value) =>
    (.computed (some (f value).1), m.insert tag (key, (f value).2))
  | .update _ _, none => (.computed none, m)
  | .remove _, found => (.value (found.map Prod.snd), m.erase tag)
  | .delete _, found => (.present found.isSome, m.erase tag)

/-- Operations one after another, each under the hash of its key. -/
def stepAll (hash : K → UInt64) :
    List (Operation K V R) → Reference K V → List (Answer V R) × Reference K V
  | [], m => ([], m)
  | op :: rest, m =>
    let (answer, m) := m.step (hash op.key) op
    let (answers, m) := stepAll hash rest m
    (answer :: answers, m)

/-! ## One tag at a time -/

/-- A map with `stored` under `tag`, or without anything new. -/
def withStored (tag : Tag K) (m : Reference K V) : Option (K × V) → Reference K V
  | none => m
  | some stored => m.insert tag stored

theorem lookup_withStored {tag : Tag K} {m : Reference K V} (h : tag ∉ m)
    (stored : Option (K × V)) : (withStored tag m stored).lookup tag = stored := by
  cases stored with
  | none => exact Finmap.lookup_eq_none.2 h
  | some x => exact Finmap.lookup_insert m

theorem insert_withStored (tag : Tag K) (m : Reference K V) (stored : Option (K × V))
    (x : K × V) : (withStored tag m stored).insert tag x = m.insert tag x := by
  cases stored with
  | none => rfl
  | some y => exact Finmap.insert_insert m

theorem erase_withStored {tag : Tag K} {m : Reference K V} (h : tag ∉ m)
    (stored : Option (K × V)) : (withStored tag m stored).erase tag = m := by
  apply Finmap.ext_lookup
  intro t
  by_cases ht : t = tag
  · rw [ht, Finmap.lookup_erase]
    exact (Finmap.lookup_eq_none.2 h).symm
  · rw [Finmap.lookup_erase_ne ht]
    cases stored with
    | none => rfl
    | some x => exact Finmap.lookup_insert_of_ne m ht

/-- An operation on a map goes by what is stored under its tag, as one on entries goes by the entry
found. -/
theorem step_withStored {hash : UInt64} {op : Operation K V R} {m : Reference K V}
    (h : Tag.of hash op.key ∉ m) (found : Option (Entry K V)) :
    (withStored (Tag.of hash op.key) m (found.map Entry.pair)).step hash op =
      ((op.onEntry hash found).1.1,
        withStored (Tag.of hash op.key) m ((op.onEntry hash found).2.map Entry.pair)) := by
  have hlookup := lookup_withStored h (found.map Entry.pair)
  unfold step
  simp only [hlookup]
  cases found with
  | none =>
    have herase := erase_withStored h (none : Option (K × V))
    cases op with
    | put | insertNew | get | contains | read | update => rfl
    | remove | delete => exact Prod.ext rfl herase
  | some e =>
    have hinsert := insert_withStored (Tag.of hash op.key) m (some e.pair)
    have herase := erase_withStored h (some e.pair)
    cases op with
    | insertNew | get | contains | read => rfl
    | put | update => exact Prod.ext rfl (hinsert _)
    | remove | delete => exact Prod.ext rfl herase

theorem lookup_withStored_ne {tag tag' : Tag K} {m : Reference K V} (h : tag' ≠ tag)
    (stored : Option (K × V)) : (withStored tag m stored).lookup tag' = m.lookup tag' := by
  cases stored with
  | none => rfl
  | some x => exact Finmap.lookup_insert_of_ne m h

/-- What `m` stores under the tag of `hash` and `key`, as an entry. -/
def found (m : Reference K V) (hash : UInt64) (key : K) : Option (Entry K V) :=
  (m.lookup (Tag.of hash key)).map fun stored => ⟨stored.1, hash, stored.2⟩

theorem withStored_found (m : Reference K V) (hash : UInt64) (key : K) :
    withStored (Tag.of hash key) (m.erase (Tag.of hash key)) ((m.found hash key).map Entry.pair) =
      m := by
  have hpair : (m.found hash key).map Entry.pair = m.lookup (Tag.of hash key) := by
    unfold found
    rw [Option.map_map]
    exact Option.map_id'
  rw [hpair]
  apply Finmap.ext_lookup
  intro tag
  by_cases htag : tag = Tag.of hash key
  · rw [htag, lookup_withStored Finmap.notMem_erase_self]
  · rw [lookup_withStored_ne htag, Finmap.lookup_erase_ne htag]

/-- An operation in terms of the entry that is stored for its key. -/
theorem step_eq (hash : UInt64) (op : Operation K V R) (m : Reference K V) :
    m.step hash op =
      ((op.onEntry hash (m.found hash op.key)).1.1,
        withStored (Tag.of hash op.key) (m.erase (Tag.of hash op.key))
          ((op.onEntry hash (m.found hash op.key)).2.map Entry.pair)) := by
  conv_lhs => rw [← m.withStored_found hash op.key]
  exact step_withStored Finmap.notMem_erase_self _

theorem lookup_step_ne {hash : UInt64} {op : Operation K V R} (m : Reference K V) {tag : Tag K}
    (h : tag ≠ Tag.of hash op.key) : (m.step hash op).2.lookup tag = m.lookup tag := by
  rw [step_eq, lookup_withStored_ne h, Finmap.lookup_erase_ne h]

theorem step_congr {hash : UInt64} {op : Operation K V R} {m m' : Reference K V}
    (h : m.lookup (Tag.of hash op.key) = m'.lookup (Tag.of hash op.key)) :
    (m.step hash op).1 = (m'.step hash op).1 ∧
      (m.step hash op).2.lookup (Tag.of hash op.key) =
        (m'.step hash op).2.lookup (Tag.of hash op.key) := by
  have hfound : m.found hash op.key = m'.found hash op.key := by
    unfold found
    rw [h]
  rw [step_eq, step_eq, hfound, lookup_withStored Finmap.notMem_erase_self,
    lookup_withStored Finmap.notMem_erase_self]
  exact ⟨rfl, rfl⟩

/-! ## Entries that stand for a map -/

/-- An entry as an association of a reference map. -/
def ofEntry (e : Entry K V) : Σ _ : Tag K, K × V := ⟨Tag.of e.hash e.key, e.pair⟩

/-- The associations of `m` are the entries `es`, each once. -/
def Represents (m : Reference K V) (es : List (Entry K V)) : Prop :=
  m.entries = (es.map ofEntry : Multiset (Σ _ : Tag K, K × V))

theorem represents_nil : Represents (∅ : Reference K V) [] := rfl

theorem Represents.perm {m : Reference K V} {es es' : List (Entry K V)} (h : m.Represents es)
    (hp : es.Perm es') : m.Represents es' :=
  h.trans (Multiset.coe_eq_coe.2 (hp.map ofEntry))

theorem Represents.mem_iff {m : Reference K V} {es : List (Entry K V)} (h : m.Represents es)
    {tag : Tag K} : tag ∈ m ↔ ∃ e ∈ es, Tag.of e.hash e.key = tag := by
  have hkeys : (Multiset.keys m.entries) = (es.map ofEntry).map Sigma.fst := by
    rw [h]
    rfl
  rw [Finmap.mem_def, hkeys, Multiset.mem_coe, List.map_map, List.mem_map]
  rfl

theorem Represents.card {m : Reference K V} {es : List (Entry K V)} (h : m.Represents es) :
    m.entries.card = es.length := by
  rw [h, Multiset.coe_card, List.length_map]

theorem Represents.pairs {m : Reference K V} {es : List (Entry K V)} (h : m.Represents es) :
    m.entries.map (fun stored => stored.2) = (es.map Entry.pair : Multiset (K × V)) := by
  rw [h, Multiset.map_coe, List.map_map]
  rfl

/-- An entry with a new tag is one association more. -/
theorem Represents.withStored {tag : Tag K} {m : Reference K V} {es : List (Entry K V)}
    (h : m.Represents es) (hnew : tag ∉ m) {found : Option (Entry K V)}
    (hfound : ∀ e ∈ found, Tag.of e.hash e.key = tag) :
    Represents (withStored tag m (found.map Entry.pair)) (found.toList ++ es) := by
  cases found with
  | none => exact h
  | some e =>
    have htag : Tag.of e.hash e.key = tag := hfound e rfl
    show (m.insert tag e.pair).entries = _
    rw [Finmap.entries_insert_of_notMem hnew, h, ← htag]
    rfl

/-- A map can be taken apart at a tag as its entries can. -/
theorem Represents.split {hash : UInt64} {key : K} {m : Reference K V}
    {found : Option (Entry K V)} {rest : List (Entry K V)}
    (h : m.Represents (found.toList ++ rest))
    (hhit : ∀ e ∈ found, e.isFor hash key = true)
    (hmiss : ∀ e ∈ rest, e.isFor hash key = false) :
    ∃ r : Reference K V, r.Represents rest ∧ Tag.of hash key ∉ r ∧
      m = Reference.withStored (Tag.of hash key) r (found.map Entry.pair) := by
  have hsub : (rest.map ofEntry : Multiset (Σ _ : Tag K, K × V)) ≤ m.entries := by
    rw [h, List.map_append, ← Multiset.coe_add]
    exact Multiset.le_add_left _ _
  have hnodup : (rest.map ofEntry : Multiset (Σ _ : Tag K, K × V)).NodupKeys := by
    rw [← Multiset.nodup_keys]
    exact Multiset.nodup_of_le (Multiset.map_le_map hsub) (Multiset.nodup_keys.2 m.nodupKeys)
  let r : Reference K V := ⟨_, hnodup⟩
  have hr : r.Represents rest := rfl
  have hnew : Tag.of hash key ∉ r := by
    rw [hr.mem_iff]
    rintro ⟨e, he, htag⟩
    have hfor := hmiss e he
    rw [Entry.isFor_iff_tag.2 htag] at hfor
    cases hfor
  refine ⟨r, hr, hnew, Finmap.ext ?_⟩
  exact h.trans (hr.withStored hnew fun e he => Entry.isFor_iff_tag.1 (hhit e he)).symm

theorem exists_represents {es : List (Entry K V)} (h : es.Pairwise Entry.Apart) :
    ∃ r : Reference K V, r.Represents es := by
  induction es with
  | nil => exact ⟨∅, represents_nil⟩
  | cons e rest ih =>
    obtain ⟨he, hrest⟩ := List.pairwise_cons.1 h
    obtain ⟨r, hr⟩ := ih hrest
    have hnew : Tag.of e.hash e.key ∉ r := by
      rw [hr.mem_iff]
      rintro ⟨e', he', htag⟩
      exact he e' he' (Tag.of_eq_iff.1 htag.symm)
    have hone : ∀ a ∈ some e, Tag.of a.hash a.key = Tag.of e.hash e.key := by
      rintro a ⟨⟩
      rfl
    exact ⟨_, hr.withStored hnew hone⟩

/-- An operation does to a map what it does to the entry for its key. -/
theorem Represents.step {hash : UInt64} {op : Operation K V R} {m : Reference K V}
    {found : Option (Entry K V)} {rest : List (Entry K V)}
    (h : m.Represents (found.toList ++ rest))
    (hhit : ∀ e ∈ found, e.isFor hash op.key = true)
    (hmiss : ∀ e ∈ rest, e.isFor hash op.key = false) :
    (m.step hash op).1 = (op.onEntry hash found).1.1 ∧
      Represents (m.step hash op).2 ((op.onEntry hash found).2.toList ++ rest) := by
  obtain ⟨r, hr, hnew, rfl⟩ := h.split hhit hmiss
  rw [step_withStored hnew found]
  refine ⟨rfl, hr.withStored hnew ?_⟩
  intro e he
  exact Entry.isFor_iff_tag.1 (Operation.isFor_onEntry hhit e he)

end Reference

end ShardedMap
