import ShardedMap.Proofs.Chain.Refinement
/-
  Drains whose receiver gives up. An entry leaves the nodes before it is handed over, so whatever
  the receiver does with it, the entries handed over and the entries left are the two halves of the
  chain (`LinkedBy.drain_halves`): the receiver had the first ones in order, up to the one at which
  it gave up (`Entry.handOver_of_refused`), and the rest is linked as before. Nodes that link the
  same entries cannot be told apart by anything that is done with them later
  (`interchangeable_of_toList_eq`), so a chain that was drained in part is as good as one built of
  what it has left.
-/
namespace ShardedMap

universe u v w

/-! ## Receivers -/

namespace Entry

variable {K : Type u} {V : Type v} {σ : Type w}
variable {accept : Entry K V → σ → Except Panic Unit × σ}

/-- Handed these entries one after another, the receiver takes each of them, and its state goes from
one to the other. -/
inductive Takes (accept : Entry K V → σ → Except Panic Unit × σ) : List (Entry K V) → σ → σ → Prop
  | nothing (s : σ) : Takes accept [] s s
  | next {e : Entry K V} {rest : List (Entry K V)} {s t u : σ} (he : accept e s = (.ok (), t))
      (hrest : Takes accept rest t u) : Takes accept (e :: rest) s u

/-- The receiver, which also notes in order what it is handed. -/
def noting (accept : Entry K V → σ → Except Panic Unit × σ) (e : Entry K V)
    (s : List (Entry K V) × σ) : Except Panic Unit × List (Entry K V) × σ :=
  ((accept e s.2).1, s.1 ++ [e], (accept e s.2).2)

theorem Takes.noting {es : List (Entry K V)} {s t : σ} (h : Takes accept es s t)
    (seen : List (Entry K V)) : Takes (Entry.noting accept) es (seen, s) (seen ++ es, t) := by
  induction h generalizing seen with
  | nothing s =>
    rw [List.append_nil]
    exact .nothing _
  | next he _ ih =>
    refine .next ?_ (List.append_cons seen _ _ ▸ ih _)
    rw [Entry.noting, he]

theorem takes_or_refuses (accept : Entry K V → σ → Except Panic Unit × σ) (es : List (Entry K V))
    (s : σ) :
    (∃ t, Takes accept es s t) ∨ ∃ n e t p u,
      es[n]? = some e ∧ Takes accept (es.take n) s t ∧ accept e t = (.error p, u) := by
  induction es generalizing s with
  | nil => exact .inl ⟨s, .nothing s⟩
  | cons e rest ih =>
    rcases he : accept e s with ⟨_ | _, t⟩
    case error p => exact .inr ⟨0, e, s, p, t, rfl, .nothing s, he⟩
    case ok =>
      rcases ih t with ⟨u, hall⟩ | ⟨n, x, t', p, u, hx, htakes, hrefused⟩
      · exact .inl ⟨u, .next he hall⟩
      · exact .inr ⟨n + 1, x, t', p, u, hx, .next he htakes, hrefused⟩

/-- What a receiver takes is behind it when it is handed what follows. -/
theorem handOver_append {l : List (Entry K V)} {s t : σ} (h : Takes accept l s t)
    (r : List (Entry K V)) : handOver accept (l ++ r) s = handOver accept r t := by
  induction h with
  | nothing s => rfl
  | next he _ ih =>
    rw [List.cons_append, handOver, he]
    exact ih

theorem handOver_of_takes {es : List (Entry K V)} {s t : σ} (h : Takes accept es s t) :
    handOver accept es s = (.ok (), [], t) := by
  have hall := handOver_append h []
  rw [List.append_nil] at hall
  exact hall

/-- The entry refused is gone, and those behind it are left. -/
theorem handOver_of_refused {es : List (Entry K V)} {n : Nat} {e : Entry K V} {s t u : σ}
    {p : Panic} (he : es[n]? = some e) (htakes : Takes accept (es.take n) s t)
    (hrefused : accept e t = (.error p, u)) :
    handOver accept es s = (.error p, es.drop (n + 1), u) := by
  obtain ⟨hn, rfl⟩ := List.getElem?_eq_some_iff.1 he
  have hsplit : es = es.take n ++ es[n] :: es.drop (n + 1) := by
    rw [List.getElem_cons_drop, List.take_append_drop]
  have hover := handOver_append htakes (es[n] :: es.drop (n + 1))
  rw [← hsplit] at hover
  rw [hover, handOver, hrefused]

/-- To note what it is handed changes nothing of what a receiver does. -/
theorem handOver_noting (accept : Entry K V → σ → Except Panic Unit × σ) (es : List (Entry K V))
    (seen : List (Entry K V)) (s : σ) :
    let handed := handOver (noting accept) es (seen, s)
    handOver accept es s = (handed.1, handed.2.1, handed.2.2.2) ∧
      handed.2.2.1 ++ handed.2.1 = seen ++ es := by
  rcases takes_or_refuses accept es s with ⟨t, hall⟩ | ⟨n, e, t, p, u, he, htakes, hrefused⟩
  · rw [handOver_of_takes hall, handOver_of_takes (hall.noting seen)]
    exact ⟨rfl, List.append_nil _⟩
  · have hnoted : noting accept e (seen ++ es.take n, t) =
        (.error p, seen ++ es.take n ++ [e], u) := by rw [noting, hrefused]
    obtain ⟨hn, rfl⟩ := List.getElem?_eq_some_iff.1 he
    rw [handOver_of_refused he htakes hrefused,
      handOver_of_refused he (htakes.noting seen) hnoted]
    exact ⟨rfl, by simp⟩

end Entry

/-! ## Linked nodes in use -/

namespace Links

variable {S : Type (max u v) → Type (max u v)} {H : Type} [Storage S H] {K : Type u} {V : Type v}

/-- Linked nodes that operations, drains and pushes have made of no nodes. -/
inductive Reachable [BEq K] : Links S H K V → Prop
  | empty : Reachable .empty
  | op (op : ChainOp K V) {c : Links S H K V} (hc : Reachable c) : Reachable (op.onLinks c).2
  | drain {σ : Type w} (accept : Entry K V → σ → Except Panic Unit × σ) (s : σ) {c : Links S H K V}
      (hc : Reachable c) : Reachable (c.drain accept s).2.1
  | push (e : Entry K V) {c : Links S H K V} (hc : Reachable c) : Reachable (c.push e)

/-- The entries of a list, each pushed in front of those behind it. -/
def built (es : List (Entry K V)) : Links S H K V := es.foldr (fun e c => c.push e) .empty

/-- A relation that nothing done with linked nodes tells apart, and nothing leads out of. -/
structure Bisimulation [BEq K] (R : Links S H K V → Links S H K V → Prop) : Prop where
  lists {c d : Links S H K V} : R c d → c.toList = d.toList ∧ c.size = d.size
  answers {c d : Links S H K V} (op : ChainOp K V) : R c d →
    (op.onLinks c).1 = (op.onLinks d).1 ∧ R (op.onLinks c).2 (op.onLinks d).2
  drains {c d : Links S H K V} {σ : Type w} (accept : Entry K V → σ → Except Panic Unit × σ)
    (s : σ) : R c d → (c.drain accept s).1 = (d.drain accept s).1 ∧
      (c.drain accept s).2.2 = (d.drain accept s).2.2 ∧
      R (c.drain accept s).2.1 (d.drain accept s).2.1
  pushes {c d : Links S H K V} (e : Entry K V) : R c d → R (c.push e) (d.push e)

/-- Nothing that is done with the two, now or later, tells them apart. -/
def Interchangeable [BEq K] (c d : Links S H K V) : Prop :=
  ∃ R : Links S H K V → Links S H K V → Prop, Bisimulation.{u, v, w} R ∧ R c d

variable [DecidableEq H] [LawfulStorage S H] {c d : Links S H K V}

theorem linked_built (es : List (Entry K V)) :
    (built es : Links S H K V).Linked ∧ (built es : Links S H K V).toList = es := by
  induction es with
  | nil => exact ⟨linked_empty, linkedBy_empty.toList⟩
  | cons e rest ih =>
    obtain ⟨hlinked, hlist⟩ := ih.1.push e
    exact ⟨hlinked, hlist.trans (congrArg (e :: ·) ih.2)⟩

theorem Linked.drain_left (hc : c.Linked) {σ : Type w}
    (accept : Entry K V → σ → Except Panic Unit × σ) (s : σ) :
    let handed := Entry.handOver accept c.toList s
    let done := c.drain accept s
    done.1 = handed.1 ∧ done.2.1.Linked ∧ done.2.1.toList = handed.2.1 ∧ done.2.2 = handed.2.2 := by
  obtain ⟨c', hlinked, hlist, hdone⟩ := hc.drain accept s
  rw [hdone]
  exact ⟨rfl, hlinked, hlist, rfl⟩

theorem Reachable.linked [BEq K] (hc : c.Reachable) : c.Linked := by
  induction hc with
  | empty => exact linked_empty
  | op op _ ih => exact op.linked ih
  | drain accept s _ ih => exact (ih.drain_left accept s).2.1
  | push e _ ih => exact (ih.push e).1

/-- What an operation answers and leaves depends on the entries that the links pass, and on nothing
else of the nodes. -/
theorem Linked.onLinks_congr [BEq K] (hc : c.Linked) (hd : d.Linked) (h : c.toList = d.toList)
    (op : ChainOp K V) :
    (op.onLinks c).1 = (op.onLinks d).1 ∧ (op.onLinks c).2.toList = (op.onLinks d).2.toList := by
  have hsize : c.size = d.size := by rw [hc.size, hd.size, h]
  have hfind (p : Entry K V → Bool) : c.find? p = d.find? p := by rw [hc.find?, hd.find?, h]
  cases op with
  | put e =>
    obtain ⟨-, hanswer, hlist⟩ := hc.insert e
    obtain ⟨-, hanswer', hlist'⟩ := hd.insert e
    rw [h, ← hanswer'] at hanswer
    rw [h, ← hlist'] at hlist
    exact ⟨congrArg ChainAnswer.value hanswer, hlist⟩
  | get hash key =>
    exact ⟨congrArg ChainAnswer.value (congrArg (Option.map Entry.value) (hfind _)), h⟩
  | contains hash key =>
    exact ⟨congrArg ChainAnswer.flag (congrArg Option.isSome (hfind _)), h⟩
  | update hash key f =>
    obtain ⟨-, hanswer, hlist⟩ := hc.update (Entry.isFor hash key) fun v => (f v, f v)
    obtain ⟨-, hanswer', hlist'⟩ := hd.update (Entry.isFor hash key) fun v => (f v, f v)
    rw [h, ← hanswer'] at hanswer
    rw [h, ← hlist'] at hlist
    exact ⟨congrArg ChainAnswer.value hanswer, hlist⟩
  | remove hash key =>
    obtain ⟨-, hanswer, hlist⟩ := hc.takeOut (Entry.isFor hash key)
    obtain ⟨-, hanswer', hlist'⟩ := hd.takeOut (Entry.isFor hash key)
    rw [h, ← hanswer'] at hanswer
    rw [h, ← hlist'] at hlist
    exact ⟨congrArg ChainAnswer.pair (congrArg (Option.map Entry.pair) hanswer), hlist⟩
  | delete hash key =>
    obtain ⟨-, hanswer, hlist⟩ := hc.takeOut (Entry.isFor hash key)
    obtain ⟨-, hanswer', hlist'⟩ := hd.takeOut (Entry.isFor hash key)
    rw [h, ← hanswer'] at hanswer
    rw [h, ← hlist'] at hlist
    exact ⟨congrArg ChainAnswer.flag (congrArg Option.isSome hanswer), hlist⟩
  | clear => exact ⟨rfl, c.toList_clear.trans d.toList_clear.symm⟩
  | drain limit words =>
    obtain ⟨hresult, -, hleft, hstate⟩ := hc.drain_left (ChainOp.receive limit words) ⟨[], 0⟩
    obtain ⟨hresult', -, hleft', hstate'⟩ := hd.drain_left (ChainOp.receive limit words) ⟨[], 0⟩
    rw [h, ← hresult'] at hresult
    rw [h, ← hleft'] at hleft
    rw [h, ← hstate'] at hstate
    refine ⟨?_, hleft⟩
    simp only [ChainOp.onLinks, hresult, hstate]
  | first =>
    obtain ⟨trail, ht⟩ := hc
    obtain ⟨trail', ht'⟩ := hd
    refine ⟨congrArg ChainAnswer.entry ?_, h⟩
    rw [entryAt_of_trail ht.ends, entryAt_of_trail ht'.ends, ← ht.toList, ← ht'.toList, h]
  | next hash key =>
    obtain ⟨trail, ht⟩ := hc
    obtain ⟨trail', ht'⟩ := hd
    refine ⟨?_, h⟩
    have hnext := ht.next hash key
    rw [← ht.toList, h, ht'.toList, ← ht'.next hash key] at hnext
    exact hnext
  | walk => exact ⟨congrArg ChainAnswer.entries (hc.walk.trans (h.trans hd.walk.symm)), h⟩
  | list => exact ⟨congrArg ChainAnswer.entries h, h⟩
  | length =>
    refine ⟨?_, h⟩
    show ChainAnswer.length c.size (c.size == 0) = .length d.size (d.size == 0)
    rw [hsize]

theorem bisimulation_toList [BEq K] : Bisimulation.{u, v, w} fun c d : Links S H K V =>
    c.Linked ∧ d.Linked ∧ c.toList = d.toList where
  lists := fun ⟨hc, hd, h⟩ => ⟨h, by rw [hc.size, hd.size, h]⟩
  answers := fun op ⟨hc, hd, h⟩ => by
    obtain ⟨hanswer, hlist⟩ := hc.onLinks_congr hd h op
    exact ⟨hanswer, op.linked hc, op.linked hd, hlist⟩
  drains := fun accept s ⟨hc, hd, h⟩ => by
    obtain ⟨hresult, hlinked, hleft, hstate⟩ := hc.drain_left accept s
    obtain ⟨hresult', hlinked', hleft', hstate'⟩ := hd.drain_left accept s
    rw [h, ← hresult'] at hresult
    rw [h, ← hleft'] at hleft
    rw [h, ← hstate'] at hstate
    exact ⟨hresult, hstate, hlinked, hlinked', hleft⟩
  pushes := fun e ⟨hc, hd, h⟩ => by
    obtain ⟨hlinked, hlist⟩ := hc.push e
    obtain ⟨hlinked', hlist'⟩ := hd.push e
    exact ⟨hlinked, hlinked', by rw [hlist, hlist', h]⟩

theorem interchangeable_of_toList_eq [BEq K] (hc : c.Linked) (hd : d.Linked)
    (h : c.toList = d.toList) : Interchangeable.{u, v, w} c d :=
  ⟨_, bisimulation_toList, hc, hd, h⟩

omit [DecidableEq H] [LawfulStorage S H] in
theorem Interchangeable.runAll [BEq K] (h : Interchangeable.{u, v, w} c d)
    (ops : List (ChainOp K V)) :
    (ChainOp.runAll ChainOp.onLinks c ops).1 = (ChainOp.runAll ChainOp.onLinks d ops).1 := by
  obtain ⟨R, hR, h⟩ := h
  induction ops generalizing c d with
  | nil => rfl
  | cons op rest ih =>
    obtain ⟨hanswer, hnext⟩ := hR.answers op h
    simp only [ChainOp.runAll, hanswer, ih hnext]

/-! ## Drains that give up -/

variable {σ : Type w}

omit [DecidableEq H] [LawfulStorage S H] in
theorem drainUpTo_noting (accept : Entry K V → σ → Except Panic Unit × σ) (fuel : Nat)
    (c : Links S H K V) (seen : List (Entry K V)) (s : σ) :
    let done := c.drainUpTo (Entry.noting accept) fuel (seen, s)
    c.drainUpTo accept fuel s = (done.1, done.2.1, done.2.2.2) := by
  induction fuel generalizing c seen s with
  | zero => rfl
  | succ fuel ih =>
    rcases hpop : c.pop with ⟨_ | e, rest⟩
    · simp only [drainUpTo, hpop]
    · rcases he : accept e s with ⟨_ | _, t⟩
      · simp only [drainUpTo, hpop, Entry.noting, he]
      · simp only [drainUpTo, hpop, Entry.noting, he]
        exact ih rest (seen ++ [e]) t

omit [DecidableEq H] [LawfulStorage S H] in
theorem drain_noting (accept : Entry K V → σ → Except Panic Unit × σ) (c : Links S H K V) (s : σ) :
    let done := c.drain (Entry.noting accept) ([], s)
    c.drain accept s = (done.1, done.2.1, done.2.2.2) := by
  have hdone := drainUpTo_noting accept c.size c [] s
  simp only [drain, hdone]
  rcases c.drainUpTo (Entry.noting accept) c.size ([], s) with ⟨_ | _, left, noted⟩
  · rfl
  · by_cases hsize : left.size = 0 <;> simp only [hsize, if_true, if_false]

/-- What a drain hands over and what it leaves are the two halves of the trail, and no node of the
first half is live after it. -/
theorem LinkedBy.drain_halves {trail : List (H × Entry K V)} (hc : c.LinkedBy trail)
    (accept : Entry K V → σ → Except Panic Unit × σ) (s : σ) :
    let done := c.drain (Entry.noting accept) ([], s)
    let left := done.2.1
    let seen := done.2.2.1
    seen ++ left.toList = trail.map Prod.snd ∧ left.LinkedBy (trail.drop seen.length) ∧
      ∀ x ∈ trail.take seen.length, Storage.get? left.arena x.1 = none := by
  obtain ⟨left, n, hle, hleft, hrest, hdone⟩ := hc.drain (Entry.noting accept) ([], s)
  obtain ⟨-, hhalves⟩ := Entry.handOver_noting accept (trail.map Prod.snd) [] s
  rw [hdone]
  intro done left seen
  rw [← hrest, ← hleft.toList, List.nil_append] at hhalves
  have hlength : seen.length = n := by
    have hcount : (seen ++ left.toList).length = _ := congrArg List.length hhalves
    rw [List.length_append, hleft.toList, List.length_map, List.length_map,
      List.length_drop] at hcount
    omega
  rw [hlength]
  refine ⟨hhalves, hleft, fun x hx => ?_⟩
  -- a live node is on the trail that is left, and no handle is on the trail twice
  rw [Option.eq_none_iff_forall_ne_some]
  intro node hnode
  have hlive := hleft.all x.1 node hnode
  have honce := hc.once
  rw [← List.take_append_drop n trail, List.map_append, List.nodup_append] at honce
  exact honce.2.2 x.1 (List.mem_map_of_mem hx) x.1 hlive rfl

/-- Any drain of nodes in use, with a receiver that may give up. It hands over the first entries in
chain order, each once, up to the one at which the receiver gives up, or all of them if it never
does; what is left is the rest in its order, with as many nodes as entries. The nodes of the entries
handed over are gone, so unless a key was pushed twice it is not found any more. What is left can be
used like nodes built of just those entries: nothing tells the two apart. -/
theorem Reachable.drain_cut [BEq K] [EquivBEq K] {c : Links S H K V} (hc : Reachable.{u, v, w} c)
    (accept : Entry K V → σ → Except Panic Unit × σ) (s : σ) :
    let es := c.toList
    let done := c.drain (Entry.noting accept) ([], s)
    let left := done.2.1
    let seen := done.2.2.1
    c.drain accept s = (done.1, left, done.2.2.2) ∧
    (∀ n e t p u, es[n]? = some e → Entry.Takes accept (es.take n) s t →
      accept e t = (.error p, u) →
      done.1 = .error p ∧ done.2.2 = (es.take (n + 1), u) ∧ left.toList = es.drop (n + 1)) ∧
    (∀ t, Entry.Takes accept es s t →
      done.1 = .ok () ∧ done.2.2 = (es, t) ∧ left.toList = []) ∧
    ((∃ t, Entry.Takes accept es s t) ∨ ∃ n e t p u,
      es[n]? = some e ∧ Entry.Takes accept (es.take n) s t ∧ accept e t = (.error p, u)) ∧
    seen ++ left.toList = es ∧ left.size = left.toList.length ∧
    (∃ trail, c.LinkedBy trail ∧ left.LinkedBy (trail.drop seen.length) ∧
      ∀ x ∈ trail.take seen.length, Storage.get? left.arena x.1 = none) ∧
    (es.Pairwise Entry.Apart → ∀ e ∈ seen, left.contains e.hash e.key = false) ∧
    Reachable.{u, v, w} left ∧ Interchangeable.{u, v, w} left (built left.toList) := by
  intro es done left seen
  obtain ⟨trail, ht⟩ := hc.linked
  obtain ⟨hhalves, hleft, hgone⟩ := ht.drain_halves accept s
  obtain ⟨hresult, hlinked, hrest, hstate⟩ :
      done.1 = _ ∧ left.Linked ∧ left.toList = _ ∧ done.2.2 = _ :=
    hc.linked.drain_left (Entry.noting accept) ([], s)
  rw [← ht.toList] at hhalves
  have hsame := c.drain_noting accept s
  have hreachable : Reachable.{u, v, w} left :=
    (congrArg (fun done => done.2.1) hsame : _ = left) ▸ hc.drain accept s
  refine ⟨hsame, ?_, ?_, Entry.takes_or_refuses accept es s, hhalves, hlinked.size,
    ⟨trail, ht, hleft, hgone⟩, ?_, hreachable, ?_⟩
  · intro n e t p u he htakes hrefused
    have hnoted : Entry.noting accept e ([] ++ es.take n, t) = (.error p, es.take (n + 1), u) := by
      rw [Entry.noting, hrefused, List.take_add_one, he]
      rfl
    rw [Entry.handOver_of_refused he (htakes.noting []) hnoted] at hresult hrest hstate
    exact ⟨hresult, hstate, hrest⟩
  · intro t htakes
    rw [Entry.handOver_of_takes (htakes.noting [])] at hresult hrest hstate
    exact ⟨hresult, hstate, hrest⟩
  · intro hapart e he
    have hfor : e.isFor e.hash e.key = true := Entry.isFor_iff.2 ⟨rfl, BEq.rfl⟩
    have hhalves : seen ++ left.toList = es := hhalves
    rw [← hhalves, List.pairwise_append] at hapart
    rw [Links.contains, Links.lookup, hlinked.find?, Entry.find?_of_none]
    · rfl
    · exact fun x hx => (hapart.2.2 e he x hx).isFor_eq_false hfor
  · obtain ⟨hbuilt, hlist⟩ := linked_built (S := S) (H := H) left.toList
    exact interchangeable_of_toList_eq hlinked hbuilt hlist.symm

/-- Of three entries the receiver takes one and gives up at the next: the third is left, in a chain
to which the key refused can come back. -/
theorem drain_cut_raised :
    let ops : List (ChainOp Nat Nat) := [.put ⟨1, 7, 10⟩, .put ⟨2, 7, 20⟩, .put ⟨3, 7, 30⟩]
    let c := (ChainOp.runAll ChainOp.onLinks (Links.empty : Links Arena Handle Nat Nat) ops).2
    let accept (e : Entry Nat Nat) (sum : Nat) : Except Panic Unit × Nat :=
      if e.key = 2 then (.error (.raised "no two"), sum) else (.ok (), sum + e.value)
    let done := c.drain (Entry.noting accept) ([], 0)
    done.1 = .error (.raised "no two") ∧ done.2.2 = ([⟨3, 7, 30⟩, ⟨2, 7, 20⟩], 30) ∧
    done.2.1.toList = [⟨1, 7, 10⟩] ∧ done.2.1.contains 7 2 = false ∧
    (ChainOp.runAll ChainOp.onLinks done.2.1 [.length, .put ⟨2, 7, 25⟩, .list]).1 =
      [.length 1 false, .value none, .entries [⟨2, 7, 25⟩, ⟨1, 7, 10⟩]] := by
  intro ops c accept done
  have hc : Reachable.{0, 0, 0} c :=
    .op (.put ⟨3, 7, 30⟩) (.op (.put ⟨2, 7, 20⟩) (.op (.put ⟨1, 7, 10⟩) .empty))
  have hes : c.toList = [⟨3, 7, 30⟩, ⟨2, 7, 20⟩, ⟨1, 7, 10⟩] := rfl
  obtain ⟨-, hcut, -, -, -, -, -, hgone, -, hlater⟩ := hc.drain_cut accept 0
  have htakes : Entry.Takes accept (c.toList.take 1) 0 30 := by
    rw [hes]
    exact .next rfl (.nothing 30)
  obtain ⟨hresult, hstate, hleft⟩ :=
    hcut 1 ⟨2, 7, 20⟩ 30 (.raised "no two") 30 (by rw [hes]; rfl) htakes rfl
  rw [hes] at hstate hleft
  refine ⟨hresult, hstate, hleft, ?_, ?_⟩
  · refine hgone ?_ ⟨2, 7, 20⟩ ?_
    · rw [hes]
      simp [Entry.Apart]
    · rw [hstate]
      simp
  · rw [hlater.runAll, hleft]
    rfl

end Links

end ShardedMap
