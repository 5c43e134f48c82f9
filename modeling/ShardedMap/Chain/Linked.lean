import ShardedMap.Chain.Links
/-
  Linked nodes: from the head, the links pass every stored node once and end (`Linked`). Every
  operation keeps this, with storage used again or not, and on linked nodes each operation is
  described by the list of entries that the links pass: `push` puts in front, `update` rewrites in
  place, `takeOut` is `eraseP`, and a drain, a walk from place to place and `toList` meet the same
  entries in the same order.
-/
namespace ShardedMap

universe u v w

namespace Links

variable {S : Type (max u v) → Type (max u v)} {H : Type} [Storage S H]
variable {K : Type u} {V : Type v} {β : Type w}

/-- Following links in `a` from `start` passes `trail`, entries under their handles, and arrives at
`stop`. -/
def Trail (a : S (Node H K V)) :
    Option H → List (H × Entry K V) → Option H → Prop
  | start, [], stop => start = stop
  | start, (h, e) :: rest, stop =>
    start = some h ∧ ∃ next, Storage.get? a h = some ⟨e, next⟩ ∧ Trail a next rest stop

/-- From the head, the links pass every stored node once, along `trail`, and end. -/
structure LinkedBy (c : Links S H K V) (trail : List (H × Entry K V)) : Prop where
  ends : Trail c.arena c.head trail none
  once : (trail.map Prod.fst).Nodup
  all : ∀ h n, Storage.get? c.arena h = some n → h ∈ trail.map Prod.fst
  count : trail.length = c.size

/-- The links of `c` make one chain of all its nodes. -/
def Linked (c : Links S H K V) : Prop := ∃ trail, c.LinkedBy trail

/-! ### Trails -/

theorem trail_append {a : S (Node H K V)} {l r : List (H × Entry K V)}
    {start stop : Option H} :
    Trail a start (l ++ r) stop ↔ ∃ mid, Trail a start l mid ∧ Trail a mid r stop := by
  induction l generalizing start with
  | nil => simp [Trail]
  | cons x l ih =>
    obtain ⟨h, e⟩ := x
    simp only [List.cons_append, Trail, ih]
    constructor
    · rintro ⟨hs, next, hn, mid, hl, hr⟩
      exact ⟨mid, ⟨hs, next, hn, hl⟩, hr⟩
    · rintro ⟨mid, ⟨hs, next, hn, hl⟩, hr⟩
      exact ⟨hs, next, hn, mid, hl, hr⟩

/-- A trail depends only on the nodes it passes. -/
theorem Trail.congr {a b : S (Node H K V)} {trail : List (H × Entry K V)}
    {start stop : Option H} (ht : Trail a start trail stop)
    (hab : ∀ h ∈ trail.map Prod.fst, Storage.get? b h = Storage.get? a h) :
    Trail b start trail stop := by
  induction trail generalizing start with
  | nil => exact ht
  | cons x rest ih =>
    obtain ⟨h, e⟩ := x
    obtain ⟨hs, next, hn, hr⟩ := ht
    refine ⟨hs, next, ?_, ih hr fun h' hh' => hab h' (List.mem_cons_of_mem _ hh')⟩
    rw [hab h (List.mem_cons_self), hn]

/-- The handle of the last node of `l`, or `before` if there is none. -/
def lastOf (before : Option H) (l : List (H × Entry K V)) : Option H :=
  l.foldl (fun _ x => some x.1) before

theorem lastOf_append_singleton (before : Option H) (l : List (H × Entry K V))
    (x : H × Entry K V) : lastOf before (l ++ [x]) = some x.1 := by
  simp [lastOf]

theorem walk_of_trail {a : S (Node H K V)} {trail : List (H × Entry K V)}
    {start : Option H} {fuel : Nat} (ht : Trail a start trail none)
    (hf : trail.length ≤ fuel) : walk a fuel start = trail.map Prod.snd := by
  induction trail generalizing start fuel with
  | nil =>
    obtain rfl : start = none := ht
    cases fuel <;> rfl
  | cons x rest ih =>
    obtain ⟨h, e⟩ := x
    obtain ⟨rfl, next, hn, hr⟩ := ht
    cases fuel with
    | zero => simp at hf
    | succ fuel =>
      simp only [walk, hn, List.map_cons]
      rw [ih hr (by simpa using hf)]

theorem locate_of_none {a : S (Node H K V)} {p : Entry K V → Bool}
    {trail : List (H × Entry K V)} {start before : Option H} {fuel : Nat}
    (ht : Trail a start trail none) (hp : ∀ x ∈ trail, p x.2 = false) :
    locate a p fuel before start = none := by
  induction trail generalizing start before fuel with
  | nil =>
    obtain rfl : start = none := ht
    cases fuel <;> rfl
  | cons x rest ih =>
    obtain ⟨h, e⟩ := x
    obtain ⟨rfl, next, hn, hr⟩ := ht
    cases fuel with
    | zero => rfl
    | succ fuel =>
      have he : p e = false := hp (h, e) List.mem_cons_self
      simp only [locate, hn, he, Bool.false_eq_true, if_false]
      exact ih hr fun x hx => hp x (List.mem_cons_of_mem _ hx)

theorem locate_of_some {a : S (Node H K V)} {p : Entry K V → Bool}
    {l r : List (H × Entry K V)} {h : H} {e : Entry K V} {start before : Option H}
    {fuel : Nat} (ht : Trail a start (l ++ (h, e) :: r) none) (hf : l.length < fuel)
    (hl : ∀ x ∈ l, p x.2 = false) (he : p e = true) :
    locate a p fuel before start = some (lastOf before l, h) := by
  induction l generalizing start before fuel with
  | nil =>
    obtain ⟨rfl, next, hn, hr⟩ := ht
    cases fuel with
    | zero => simp at hf
    | succ fuel => simp [locate, hn, he, lastOf]
  | cons x l ih =>
    obtain ⟨h', e'⟩ := x
    obtain ⟨rfl, next, hn, hr⟩ := ht
    cases fuel with
    | zero => simp at hf
    | succ fuel =>
      have he' : p e' = false := hl (h', e') List.mem_cons_self
      simp only [locate, hn, he', Bool.false_eq_true, if_false]
      exact ih hr (by simpa using hf) fun x hx => hl x (List.mem_cons_of_mem _ hx)

theorem trail_split (p : Entry K V → Bool) (trail : List (H × Entry K V)) :
    (∀ x ∈ trail, p x.2 = false) ∨ ∃ l h e r, trail = l ++ (h, e) :: r ∧
      (∀ x ∈ l, p x.2 = false) ∧ p e = true := by
  induction trail with
  | nil => exact Or.inl (by simp)
  | cons x rest ih =>
    obtain ⟨h, e⟩ := x
    cases he : p e with
    | true => exact Or.inr ⟨[], h, e, rest, rfl, by simp, he⟩
    | false =>
      rcases ih with hn | ⟨l, h', e', r, rfl, hl, he'⟩
      · exact Or.inl (by
          intro x hx
          rcases List.mem_cons.1 hx with rfl | hx
          · exact he
          · exact hn x hx)
      · refine Or.inr ⟨(h, e) :: l, h', e', r, rfl, ?_, he'⟩
        intro x hx
        rcases List.mem_cons.1 hx with rfl | hx
        · exact he
        · exact hl x hx

/-- What holds of no entry of a trail holds of none of its entries without their handles. -/
theorem none_of_trail {p : Entry K V → Bool} {trail : List (H × Entry K V)}
    (h : ∀ x ∈ trail, p x.2 = false) : ∀ e ∈ trail.map Prod.snd, p e = false := by
  intro e he
  obtain ⟨x, hx, rfl⟩ := List.mem_map.1 he
  exact h x hx

theorem walkFrom_of_trail {c : Links S H K V} {trail : List (H × Entry K V)}
    {start : Option H} {fuel : Nat} (ht : Trail c.arena start trail none)
    (hf : trail.length ≤ fuel) : c.walkFrom fuel start = trail.map Prod.snd := by
  induction trail generalizing start fuel with
  | nil =>
    obtain rfl : start = none := ht
    cases fuel <;> rfl
  | cons x rest ih =>
    obtain ⟨h, e⟩ := x
    obtain ⟨rfl, next, hn, hr⟩ := ht
    cases fuel with
    | zero => simp at hf
    | succ fuel =>
      have hent : c.entryAt (some h) = some e := by simp [entryAt, hn]
      have haft : c.after (some h) = next := by simp [after, hn]
      rw [walkFrom, hent, haft, List.map_cons]
      simp only
      rw [ih hr (by simpa using hf)]

namespace LinkedBy

variable {c : Links S H K V} {trail l r : List (H × Entry K V)} {h : H} {e : Entry K V}

theorem toList (hc : c.LinkedBy trail) : c.toList = trail.map Prod.snd :=
  walk_of_trail hc.ends (Nat.le_of_eq hc.count)

theorem find_none {p : Entry K V → Bool} (hc : c.LinkedBy trail)
    (hp : ∀ x ∈ trail, p x.2 = false) : c.find p = none :=
  locate_of_none hc.ends hp

theorem find_some {p : Entry K V → Bool} (hc : c.LinkedBy (l ++ (h, e) :: r))
    (hl : ∀ x ∈ l, p x.2 = false) (he : p e = true) : c.find p = some (lastOf none l, h) := by
  refine locate_of_some hc.ends ?_ hl he
  rw [← hc.count]
  simp

/-- The node at a place of the trail, and the trails before and after it. -/
theorem split (hc : c.LinkedBy (l ++ (h, e) :: r)) :
    ∃ next, Trail c.arena c.head l (some h) ∧ Storage.get? c.arena h = some ⟨e, next⟩ ∧
      Trail c.arena next r none := by
  obtain ⟨mid, hl, rfl, next, hn, hr⟩ := trail_append.1 hc.ends
  exact ⟨next, hl, hn, hr⟩

theorem not_mem_left (hc : c.LinkedBy (l ++ (h, e) :: r)) : h ∉ l.map Prod.fst := by
  have ho := hc.once
  rw [List.map_append, List.map_cons, List.nodup_append] at ho
  exact fun hm => ho.2.2 h hm h List.mem_cons_self rfl

theorem not_mem_right (hc : c.LinkedBy (l ++ (h, e) :: r)) : h ∉ r.map Prod.fst := by
  have ho := hc.once
  rw [List.map_append, List.map_cons, List.nodup_append, List.nodup_cons] at ho
  exact ho.2.1.1

theorem once_without (hc : c.LinkedBy (l ++ (h, e) :: r)) :
    ((l ++ r).map Prod.fst).Nodup := by
  have ho := hc.once
  refine List.Sublist.nodup (List.Sublist.map _ ?_) ho
  exact List.Sublist.append (List.Sublist.refl l) (List.sublist_cons_self _ r)

end LinkedBy

/-! ### Looking through linked nodes -/

theorem Linked.size {c : Links S H K V} (hc : c.Linked) : c.size = c.toList.length := by
  obtain ⟨trail, ht⟩ := hc
  rw [ht.toList, List.length_map]
  exact ht.count.symm

theorem Linked.find? {c : Links S H K V} (hc : c.Linked) (p : Entry K V → Bool) :
    c.find? p = c.toList.find? p := by
  obtain ⟨trail, ht⟩ := hc
  rw [ht.toList, Links.find?]
  rcases trail_split p trail with hn | ⟨l, h, e, r, rfl, hl, he⟩
  · rw [ht.find_none hn, Entry.find?_of_none (none_of_trail hn)]
    rfl
  · obtain ⟨next, -, hn, -⟩ := ht.split
    rw [ht.find_some hl he]
    simp [hn, he, Entry.find?_of_none (none_of_trail hl)]

/-- Stepping from place to place meets the entries of `toList`. -/
theorem Linked.walk {c : Links S H K V} (hc : c.Linked) :
    c.walkFrom c.size c.head = c.toList := by
  obtain ⟨trail, ht⟩ := hc
  rw [ht.toList]
  exact walkFrom_of_trail ht.ends (Nat.le_of_eq ht.count)

/-! ### What the operations keep and do -/

variable [DecidableEq H] [LawfulStorage S H]

theorem linkedBy_empty : (empty : Links S H K V).LinkedBy [] :=
  ⟨rfl, List.nodup_nil, fun h n hn => by simp [empty, LawfulStorage.get?_empty] at hn,
    LawfulStorage.size_empty.symm⟩

theorem LinkedBy.push {c : Links S H K V} {trail : List (H × Entry K V)}
    (hc : c.LinkedBy trail) (e : Entry K V) :
    (c.push e).LinkedBy (((Storage.insert c.arena ⟨e, c.head⟩).1, e) :: trail) := by
  have hfresh : (Storage.insert c.arena ⟨e, c.head⟩).1 ∉ trail.map Prod.fst := by
    intro hm
    obtain ⟨⟨h, e'⟩, hx, hh⟩ := List.mem_map.1 hm
    obtain ⟨l, r, rfl⟩ := List.append_of_mem hx
    obtain ⟨next, -, hn, -⟩ := hc.split
    simp only at hh
    rw [hh, LawfulStorage.get?_insert_fresh] at hn
    cases hn
  refine ⟨⟨rfl, c.head, ?_, ?_⟩, ?_, ?_, ?_⟩
  · simp [Links.push, LawfulStorage.get?_insert]
  · refine hc.ends.congr fun h hh => ?_
    have hne : h ≠ (Storage.insert c.arena ⟨e, c.head⟩).1 := fun he => hfresh (he ▸ hh)
    simp [Links.push, LawfulStorage.get?_insert, hne]
  · exact List.nodup_cons.2 ⟨hfresh, hc.once⟩
  · intro h n hn
    by_cases hh : h = (Storage.insert c.arena ⟨e, c.head⟩).1
    · simp [hh]
    · simp only [Links.push, LawfulStorage.get?_insert, hh, if_false] at hn
      exact List.mem_cons_of_mem _ (hc.all h n hn)
  · simp only [List.length_cons, Links.size, Links.push, LawfulStorage.size_insert]
    rw [hc.count, Links.size]

theorem LinkedBy.set_value {c : Links S H K V} {l r : List (H × Entry K V)} {h : H}
    {e : Entry K V} (hc : c.LinkedBy (l ++ (h, e) :: r)) {next : Option H}
    (hn : Storage.get? c.arena h = some ⟨e, next⟩) (e' : Entry K V) :
    LinkedBy { c with arena := Storage.set c.arena h ⟨e', next⟩ } (l ++ (h, e') :: r) := by
  obtain ⟨next', hl, hn', hr⟩ := hc.split
  rw [hn] at hn'
  cases hn'
  have hget := LawfulStorage.get?_set hn ⟨e', next⟩
  refine ⟨?_, ?_, ?_, ?_⟩
  · refine trail_append.2 ⟨some h, hl.congr fun h' hh' => ?_, rfl, next, ?_,
      hr.congr fun h' hh' => ?_⟩
    · have hne : h' ≠ h := fun he => hc.not_mem_left (he ▸ hh')
      simp [hget, hne]
    · simp [hget]
    · have hne : h' ≠ h := fun he => hc.not_mem_right (he ▸ hh')
      simp [hget, hne]
  · simpa using hc.once
  · intro h' n hn'
    have hm : h' ∈ (l ++ (h, e) :: r).map Prod.fst := by
      by_cases hh : h' = h
      · simp [hh]
      · simp only [hget, hh, if_false] at hn'
        exact hc.all h' n hn'
    simpa using hm
  · have := hc.count
    simp only [Links.size, LawfulStorage.size_set, List.length_append, List.length_cons] at this ⊢
    exact this

theorem LinkedBy.without_head {c : Links S H K V} {r : List (H × Entry K V)} {h : H}
    {e : Entry K V} (hc : c.LinkedBy ((h, e) :: r)) {next : Option H}
    (hn : Storage.get? c.arena h = some ⟨e, next⟩) :
    LinkedBy ⟨Storage.erase c.arena h, next⟩ r := by
  obtain ⟨next', -, hn', hr⟩ := LinkedBy.split (l := []) hc
  rw [hn] at hn'
  cases hn'
  have hnot : h ∉ r.map Prod.fst := LinkedBy.not_mem_right (l := []) hc
  refine ⟨hr.congr fun h' hh' => ?_, LinkedBy.once_without (l := []) hc, ?_, ?_⟩
  · have hne : h' ≠ h := fun he => hnot (he ▸ hh')
    simp [LawfulStorage.get?_erase, hne]
  · intro h' n hn'
    by_cases hh : h' = h
    · simp [LawfulStorage.get?_erase, hh] at hn'
    · simp only [LawfulStorage.get?_erase, hh, if_false] at hn'
      have hm := hc.all h' n hn'
      simpa [hh] using hm
  · have := hc.count
    simp only [Links.size, LawfulStorage.size_erase hn, List.length_cons] at this ⊢
    omega

theorem LinkedBy.without_inner {c : Links S H K V} {l r : List (H × Entry K V)} {b h : H}
    {eb e : Entry K V} (hc : c.LinkedBy (l ++ (b, eb) :: (h, e) :: r)) {next : Option H}
    (hn : Storage.get? c.arena h = some ⟨e, next⟩) :
    LinkedBy { c with arena := Storage.erase (relink c.arena b next) h } (l ++ (b, eb) :: r) := by
  obtain ⟨nb, hl, hb, rfl, next', hn', hr⟩ := hc.split
  rw [hn] at hn'
  cases hn'
  have hassoc : l ++ (b, eb) :: (h, e) :: r = (l ++ [(b, eb)]) ++ (h, e) :: r := by simp
  have hc' : c.LinkedBy ((l ++ [(b, eb)]) ++ (h, e) :: r) := hassoc ▸ hc
  have hbl := hc.not_mem_left
  have hbr : b ∉ r.map Prod.fst := fun hm => hc.not_mem_right (List.mem_cons_of_mem _ hm)
  have hhl : h ∉ (l ++ [(b, eb)]).map Prod.fst := hc'.not_mem_left
  have hhr : h ∉ r.map Prod.fst := hc'.not_mem_right
  have hbh : b ≠ h := fun he => hhl (by simp [he])
  have hget : ∀ h', Storage.get? (Storage.erase (relink c.arena b next) h) h' =
      if h' = h then none else if h' = b then some ⟨eb, next⟩ else Storage.get? c.arena h' := by
    intro h'
    simp only [relink, hb, LawfulStorage.get?_erase, LawfulStorage.get?_set hb]
  refine ⟨?_, ?_, ?_, ?_⟩
  · refine trail_append.2 ⟨some b, hl.congr fun h' hh' => ?_, rfl, next, ?_,
      hr.congr fun h' hh' => ?_⟩
    · have h1 : h' ≠ b := fun he => hbl (he ▸ hh')
      have h2 : h' ≠ h := fun he => hhl (by
        rw [List.map_append]
        exact List.mem_append_left _ (he ▸ hh'))
      simp [hget, h1, h2]
    · simp [hget, hbh]
    · have h1 : h' ≠ b := fun he => hbr (he ▸ hh')
      have h2 : h' ≠ h := fun he => hhr (he ▸ hh')
      simp [hget, h1, h2]
  · have := hc'.once_without
    simpa using this
  · intro h' n hn'
    by_cases hh : h' = h
    · simp [hget, hh] at hn'
    · have hm : h' ∈ (l ++ (b, eb) :: (h, e) :: r).map Prod.fst := by
        by_cases hb' : h' = b
        · simp [hb']
        · simp only [hget, hh, hb', if_false] at hn'
          exact hc.all h' n hn'
      simpa [hh] using hm
  · have hsize : Storage.get? (relink c.arena b next) h = some ⟨e, next⟩ := by
      simp only [relink, hb, LawfulStorage.get?_set hb, Ne.symm hbh, if_false, hn]
    have := hc.count
    simp only [Links.size, List.length_append, List.length_cons,
      LawfulStorage.size_erase hsize] at this ⊢
    simp only [relink, hb, LawfulStorage.size_set]
    omega

/-! ### Operations by the entries that the links pass -/

theorem linked_empty : (empty : Links S H K V).Linked := ⟨[], linkedBy_empty⟩

theorem linkedBy_clear (c : Links S H K V) : c.clear.LinkedBy [] :=
  ⟨rfl, List.nodup_nil, fun h n hn => by simp [clear, LawfulStorage.get?_clear] at hn,
    (LawfulStorage.size_clear c.arena).symm⟩

theorem linked_clear (c : Links S H K V) : c.clear.Linked := ⟨[], c.linkedBy_clear⟩

theorem toList_clear (c : Links S H K V) : c.clear.toList = [] := c.linkedBy_clear.toList

theorem Linked.push {c : Links S H K V} (hc : c.Linked) (e : Entry K V) :
    (c.push e).Linked ∧ (c.push e).toList = e :: c.toList := by
  obtain ⟨trail, ht⟩ := hc
  have hp := ht.push e
  exact ⟨⟨_, hp⟩, by rw [hp.toList, ht.toList]; rfl⟩

/-- An update answers by the first entry that satisfies `p` and rewrites its value in place. -/
theorem Linked.update {c : Links S H K V} (hc : c.Linked) (p : Entry K V → Bool) (f : V → β × V) :
    (c.update p f).2.Linked ∧
      (c.update p f).1 = (c.toList.find? p).map (fun e => (f e.value).1) ∧
      (c.update p f).2.toList =
        Entry.rewriteFirst p (fun e => { e with value := (f e.value).2 }) c.toList := by
  obtain ⟨trail, ht⟩ := hc
  rcases trail_split p trail with hn | ⟨l, h, e, r, rfl, hl, he⟩
  · rw [Links.update, ht.find_none hn, ht.toList, Entry.rewriteFirst_of_none (none_of_trail hn),
      Entry.find?_of_none (none_of_trail hn)]
    exact ⟨⟨trail, ht⟩, rfl, rfl⟩
  · obtain ⟨next, -, hn, -⟩ := ht.split
    have hset := ht.set_value hn { e with value := (f e.value).2 }
    rw [Links.update, ht.find_some hl he, ht.toList]
    simp only [hn, List.map_append, List.map_cons]
    rw [Entry.rewriteFirst_of_some (none_of_trail hl) he]
    exact ⟨⟨_, hset⟩, by simp [Entry.find?_of_none (none_of_trail hl), he],
      by rw [hset.toList]; simp⟩

/-- Taking out answers the first entry that satisfies `p` and keeps the others in order. -/
theorem Linked.takeOut {c : Links S H K V} (hc : c.Linked) (p : Entry K V → Bool) :
    (c.takeOut p).2.Linked ∧ (c.takeOut p).1 = c.toList.find? p ∧
      (c.takeOut p).2.toList = c.toList.eraseP p := by
  obtain ⟨trail, ht⟩ := hc
  rcases trail_split p trail with hn | ⟨l, h, e, r, rfl, hl, he⟩
  · have herase : (trail.map Prod.snd).eraseP p = trail.map Prod.snd :=
      List.eraseP_of_forall_not fun e he => by simp [none_of_trail hn e he]
    rw [Links.takeOut, ht.find_none hn, ht.toList, herase,
      Entry.find?_of_none (none_of_trail hn)]
    exact ⟨⟨trail, ht⟩, rfl, rfl⟩
  · obtain ⟨next, -, hn, -⟩ := ht.split
    have hl' : ∀ x ∈ l.map Prod.snd, ¬ p x = true := fun x hx => by
      simp [none_of_trail hl x hx]
    have hlist : c.toList = l.map Prod.snd ++ e :: r.map Prod.snd := by
      rw [ht.toList]
      simp
    have hout : (l.map Prod.snd ++ e :: r.map Prod.snd).find? p = some e := by
      simp [Entry.find?_of_none (none_of_trail hl), he]
    have hrest : (l.map Prod.snd ++ e :: r.map Prod.snd).eraseP p =
        l.map Prod.snd ++ r.map Prod.snd := by
      rw [List.eraseP_append_right _ hl', List.eraseP_cons_of_pos he]
    rw [Links.takeOut, ht.find_some hl he, hlist, hout, hrest]
    simp only [hn]
    rcases List.eq_nil_or_concat l with rfl | ⟨l', x, rfl⟩
    · have hw := LinkedBy.without_head ht hn
      exact ⟨⟨_, hw⟩, rfl, by simpa [lastOf] using hw.toList⟩
    · obtain ⟨b, eb⟩ := x
      have ht' : c.LinkedBy (l' ++ (b, eb) :: (h, e) :: r) := by simpa using ht
      have hw := ht'.without_inner hn
      rw [List.concat_eq_append, lastOf_append_singleton]
      refine ⟨⟨_, hw⟩, rfl, ?_⟩
      rw [hw.toList]
      simp

/-- Storing an entry for a hash and key that have one rewrites its value in place; otherwise the
entry comes in front. -/
theorem Linked.insert [BEq K] {c : Links S H K V} (hc : c.Linked) (e : Entry K V) :
    (c.insert e).2.Linked ∧
      (c.insert e).1 = (c.toList.find? (Entry.isFor e.hash e.key)).map Entry.value ∧
      (c.insert e).2.toList =
        match c.toList.find? (Entry.isFor e.hash e.key) with
        | some _ => Entry.rewriteFirst (Entry.isFor e.hash e.key)
            (fun old => { old with value := e.value }) c.toList
        | none => e :: c.toList := by
  obtain ⟨hl, ha, hlist⟩ := hc.update (Entry.isFor e.hash e.key) fun old => (old, e.value)
  unfold Links.insert Links.modify
  rcases hu : c.update (Entry.isFor e.hash e.key) fun old => (old, e.value) with ⟨old, c'⟩
  rw [hu] at hl ha hlist
  cases hf : c.toList.find? (Entry.isFor e.hash e.key) with
  | none =>
    rw [hf] at ha
    cases ha
    have hp := hl.push e
    have hnone : ∀ x ∈ c.toList, Entry.isFor e.hash e.key x = false := fun x hx => by
      simpa using List.find?_eq_none.1 hf x hx
    rw [Entry.rewriteFirst_of_none hnone] at hlist
    exact ⟨hp.1, rfl, by rw [hp.2, hlist]⟩
  | some x =>
    rw [hf] at ha
    cases ha
    exact ⟨hl, rfl, hlist⟩

variable {σ : Type w}

/-- Draining hands the entries over in chain order; what is left is what was not handed over, and
the nodes of those handed over are gone. -/
theorem LinkedBy.drainUpTo {c : Links S H K V} {trail : List (H × Entry K V)}
    (hc : c.LinkedBy trail) (accept : Entry K V → σ → Except Panic Unit × σ) {fuel : Nat}
    (hf : trail.length ≤ fuel) (s : σ) :
    let handed := Entry.handOver accept (trail.map Prod.snd) s
    ∃ c' n, n ≤ trail.length ∧ c'.LinkedBy (trail.drop n) ∧
      (trail.drop n).map Prod.snd = handed.2.1 ∧
      c.drainUpTo accept fuel s = (handed.1, c', handed.2.2) := by
  induction trail generalizing c fuel s with
  | nil =>
    have hh : c.head = none := hc.ends
    refine ⟨c, 0, Nat.le_refl _, hc, rfl, ?_⟩
    cases fuel with
    | zero => rfl
    | succ fuel => simp [Links.drainUpTo, Links.pop, hh, Entry.handOver]
  | cons x rest ih =>
    obtain ⟨h, e⟩ := x
    obtain ⟨hh, next, hn, -⟩ := hc.ends
    have hw := hc.without_head hn
    cases fuel with
    | zero => simp at hf
    | succ fuel =>
      simp only [Links.drainUpTo, Links.pop, hh, hn, List.map_cons, Entry.handOver]
      rcases accept e s with ⟨r, s'⟩
      cases r with
      | ok =>
        obtain ⟨c', n, hle, hl, hleft, he⟩ := ih hw (by simpa using hf) s'
        exact ⟨c', n + 1, by simpa using hle, hl, hleft, he⟩
      | error p => exact ⟨_, 1, by simp, hw, rfl, rfl⟩

/-- A drain never ends with nodes left unless the receiver gave up. -/
theorem LinkedBy.drain {c : Links S H K V} {trail : List (H × Entry K V)} (hc : c.LinkedBy trail)
    (accept : Entry K V → σ → Except Panic Unit × σ) (s : σ) :
    let handed := Entry.handOver accept (trail.map Prod.snd) s
    ∃ c' n, n ≤ trail.length ∧ c'.LinkedBy (trail.drop n) ∧
      (trail.drop n).map Prod.snd = handed.2.1 ∧
      c.drain accept s = (handed.1, c', handed.2.2) := by
  intro handed
  obtain ⟨c', n, hle, hl, hleft, he⟩ := hc.drainUpTo accept (Nat.le_of_eq hc.count) s
  refine ⟨c', n, hle, hl, hleft, ?_⟩
  rw [Links.drain, he]
  cases hr : handed.1 with
  | error p => simp [handed]
  | ok =>
    have hzero : c'.size = 0 := by
      rw [← hl.count, ← List.length_map (f := Prod.snd), hleft, Entry.handOver_left_of_ok hr]
      rfl
    simp [handed, hzero]

theorem Linked.drain {c : Links S H K V} (hc : c.Linked)
    (accept : Entry K V → σ → Except Panic Unit × σ) (s : σ) :
    ∃ c', c'.Linked ∧ c'.toList = (Entry.handOver accept c.toList s).2.1 ∧
      c.drain accept s =
        ((Entry.handOver accept c.toList s).1, c', (Entry.handOver accept c.toList s).2.2) := by
  obtain ⟨trail, ht⟩ := hc
  obtain ⟨c', n, -, hl, hleft, he⟩ := ht.drain accept s
  rw [ht.toList]
  exact ⟨c', ⟨_, hl⟩, hl.toList.trans hleft, he⟩

end Links

end ShardedMap
