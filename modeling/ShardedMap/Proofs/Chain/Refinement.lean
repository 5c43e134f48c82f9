import Mathlib.Data.List.TakeWhile
import ShardedMap.Chain.Script
import ShardedMap.Proofs.Operation
/-
  Linked nodes as a list of entries told apart by hash and key. `ChainOp.onEntries` says of such a
  list what each operation answers and leaves, with no word of nodes; an operation on linked nodes
  does the same to the entries that the links pass (`ChainOp.onLinks_refines`), and so does any
  number of them in a row, from no nodes on (`ChainOp.runAll_refines`). Nothing is asked of the
  storage but that it is a lawful one, so it may use what was given back again as it likes.
-/
namespace ShardedMap

universe u v w

/-! ## Entries told apart -/

namespace Entry

variable {K : Type u} {V : Type v} [BEq K]

/-- Does something to an entry if it is the one for `key` under `hash`. -/
def changeFor (hash : UInt64) (key : K) (g : Entry K V → Entry K V) (e : Entry K V) : Entry K V :=
  if e.isFor hash key then g e else e

variable {hash : UInt64} {key : K} {es : List (Entry K V)}

theorem map_changeFor_of_none (g : Entry K V → Entry K V)
    (h : ∀ e ∈ es, e.isFor hash key = false) : es.map (changeFor hash key g) = es := by
  have hsame : es.map (changeFor hash key g) = es.map id := by
    apply List.map_congr_left
    intro e he
    rw [changeFor, h e he]
    rfl
  rw [hsame, List.map_id]

theorem filter_not_isFor_of_none (h : ∀ e ∈ es, e.isFor hash key = false) :
    (es.filter fun e => !e.isFor hash key) = es :=
  List.filter_eq_self.2 fun e he => by rw [h e he]; rfl

theorem pairwise_map_changeFor {g : Entry K V → Entry K V}
    (hg : ∀ e, (g e).hash = e.hash ∧ (g e).key = e.key) (hes : es.Pairwise Apart) :
    (es.map (changeFor hash key g)).Pairwise Apart := by
  have hkeep : ∀ e : Entry K V, (e.changeFor hash key g).hash = e.hash ∧
      (e.changeFor hash key g).key = e.key := by
    intro e
    unfold changeFor
    split
    · exact hg e
    · exact ⟨rfl, rfl⟩
  refine hes.map _ ?_
  intro a b hab
  unfold Apart
  rw [(hkeep a).1, (hkeep a).2, (hkeep b).1, (hkeep b).2]
  exact hab

variable [PartialEquivBEq K]

/-- Of entries told apart none is for `key` under `hash`, or one is, and not those before and after
it. -/
theorem split_apart (hash : UInt64) (key : K) (hes : es.Pairwise Apart) :
    (∀ e ∈ es, e.isFor hash key = false) ∨
      ∃ l e r, es = l ++ e :: r ∧ (∀ x ∈ l, x.isFor hash key = false) ∧
        e.isFor hash key = true ∧ ∀ x ∈ r, x.isFor hash key = false := by
  rcases split_first (isFor hash key) es with hn | ⟨l, e, r, rfl, hl, he⟩
  · exact .inl hn
  · rw [List.pairwise_append, List.pairwise_cons] at hes
    exact .inr ⟨l, e, r, rfl, hl, he, fun x hx => (hes.2.1.1 x hx).isFor_eq_false he⟩

/-- Of entries told apart, the first for a key is all there is for it. -/
theorem rewriteFirst_eq_map (g : Entry K V → Entry K V) (hes : es.Pairwise Apart) :
    rewriteFirst (isFor hash key) g es = es.map (changeFor hash key g) := by
  rcases split_apart hash key hes with hn | ⟨l, e, r, rfl, hl, he, hr⟩
  · rw [rewriteFirst_of_none hn, map_changeFor_of_none g hn]
  · rw [rewriteFirst_of_some hl he, List.map_append, List.map_cons, map_changeFor_of_none g hl,
      map_changeFor_of_none g hr, changeFor, if_pos he]

theorem eraseP_eq_filter (hes : es.Pairwise Apart) :
    es.eraseP (isFor hash key) = es.filter fun e => !e.isFor hash key := by
  rcases split_apart hash key hes with hn | ⟨l, e, r, rfl, hl, he, hr⟩
  · rw [filter_not_isFor_of_none hn, List.eraseP_of_forall_not]
    intro e he
    simp [hn e he]
  · have hout : (e :: r).filter (fun e => !e.isFor hash key) = r := by
      rw [List.filter_cons_of_neg (by simp [he]), filter_not_isFor_of_none hr]
    rw [List.filter_append, hout, filter_not_isFor_of_none hl, List.eraseP_append_right,
      List.eraseP_cons_of_pos he]
    intro x hx
    simp [hl x hx]

end Entry

/-! ## Operations on a list -/

namespace ChainOp

variable {K : Type u} {V : Type v}

/-- Carries out an operation on a list of entries. -/
def onEntries [BEq K] (es : List (Entry K V)) :
    ChainOp K V → ChainAnswer K V × List (Entry K V)
  | put e =>
    (.value ((es.find? (Entry.isFor e.hash e.key)).map Entry.value),
      if es.any (Entry.isFor e.hash e.key) then
        es.map (Entry.changeFor e.hash e.key fun old => { old with value := e.value })
      else e :: es)
  | get hash key => (.value ((es.find? (Entry.isFor hash key)).map Entry.value), es)
  | contains hash key => (.flag (es.any (Entry.isFor hash key)), es)
  | update hash key f =>
    (.value ((es.find? (Entry.isFor hash key)).map fun e => f e.value),
      es.map (Entry.changeFor hash key fun e => { e with value := f e.value }))
  | remove hash key =>
    (.pair ((es.find? (Entry.isFor hash key)).map Entry.pair),
      es.filter fun e => !e.isFor hash key)
  | delete hash key =>
    (.flag (es.any (Entry.isFor hash key)), es.filter fun e => !e.isFor hash key)
  | clear => (.nothing, [])
  | drain none _ => (.entries es, [])
  | drain (some limit) words =>
    if limit < es.length then (.panicked (.raised words), es.drop (limit + 1))
    else (.entries es, [])
  | first => (.entry es.head?, es)
  | next hash key =>
    (match es.dropWhile fun e => !e.isFor hash key with
      | [] => .absent
      | _ :: rest => .entry rest.head?, es)
  | walk => (.entries es, es)
  | list => (.entries es, es)
  | length => (.length es.length es.isEmpty, es)

/-- Carries out operations one after another, with their answers. -/
def runAll {σ : Type w} (step : σ → ChainOp K V → ChainAnswer K V × σ) :
    σ → List (ChainOp K V) → List (ChainAnswer K V) × σ
  | s, [] => ([], s)
  | s, op :: rest =>
    let (answer, s) := step s op
    let (answers, s) := runAll step s rest
    (answer :: answers, s)

theorem apart_onEntries [BEq K] [EquivBEq K] (op : ChainOp K V) {es : List (Entry K V)}
    (hes : es.Pairwise Entry.Apart) : (op.onEntries es).2.Pairwise Entry.Apart := by
  cases op with
  | put e =>
    simp only [onEntries]
    split
    · exact Entry.pairwise_map_changeFor (fun _ => ⟨rfl, rfl⟩) hes
    · rename_i hnone
      refine List.pairwise_cons.2 ⟨?_, hes⟩
      intro x hx
      have hmiss : x.isFor e.hash e.key = false := by
        rw [← Bool.not_eq_true]
        exact fun h => hnone (List.any_eq_true.2 ⟨x, hx, h⟩)
      exact Entry.apart_of_isFor (Entry.isFor_iff.2 ⟨rfl, BEq.rfl⟩) hmiss
  | update hash key f => exact Entry.pairwise_map_changeFor (fun _ => ⟨rfl, rfl⟩) hes
  | remove hash key => exact hes.filter _
  | delete hash key => exact hes.filter _
  | clear => exact List.Pairwise.nil
  | drain limit words =>
    cases limit with
    | none => exact List.Pairwise.nil
    | some limit =>
      simp only [onEntries]
      split
      · exact hes.sublist (List.drop_sublist _ _)
      · exact List.Pairwise.nil
  | get | contains | first | next | walk | list | length => exact hes

end ChainOp

/-! ## Places and receivers -/

namespace Links

variable {S : Type (max u v) → Type (max u v)} {H : Type} [Storage S H]
variable {K : Type u} {V : Type v} {c : Links S H K V}

theorem entryAt_of_trail {start : Option H} {trail : List (H × Entry K V)}
    (ht : Trail c.arena start trail none) : c.entryAt start = (trail.map Prod.snd).head? := by
  cases trail with
  | nil =>
    obtain rfl : start = none := ht
    rfl
  | cons x rest =>
    obtain ⟨h, e⟩ := x
    obtain ⟨rfl, next, hn, -⟩ := ht
    simp [entryAt, hn]

/-- A search for an entry goes on to the end of the links at most, however far it may. -/
theorem LinkedBy.locate_eq_find {trail : List (H × Entry K V)} (hc : c.LinkedBy trail)
    (p : Entry K V → Bool) {fuel : Nat} (hfuel : c.size ≤ fuel) :
    locate c.arena p fuel none c.head = c.find p := by
  rcases trail_split p trail with hn | ⟨l, h, e, r, rfl, hl, he⟩
  · rw [hc.find_none hn, locate_of_none hc.ends hn]
  · have hcount := hc.count
    rw [List.length_append, List.length_cons] at hcount
    rw [hc.find_some hl he, locate_of_some hc.ends (by omega) hl he]

theorem LinkedBy.next [BEq K] {trail : List (H × Entry K V)} (hc : c.LinkedBy trail)
    (hash : UInt64) (key : K) :
    let place := c.placeOf hash key
    (if (c.entryAt place).isSome then ChainAnswer.entry (c.entryAt (c.after place)) else .absent) =
      match (trail.map Prod.snd).dropWhile fun e => !e.isFor hash key with
      | [] => .absent
      | _ :: rest => .entry rest.head? := by
  intro place
  rcases trail_split (Entry.isFor hash key) trail with hn | ⟨l, h, e, r, rfl, hl, he⟩
  · have hplace : place = none := by
      simp [place, placeOf, hc.find_none hn]
    have hpassed : (trail.map Prod.snd).dropWhile (fun e => !e.isFor hash key) = [] := by
      rw [List.dropWhile_eq_nil_iff]
      intro e he
      simp [none_of_trail hn e he]
    rw [hplace, hpassed]
    rfl
  · obtain ⟨next, -, hnode, hrest⟩ := hc.split
    have hplace : place = some h := by
      simp [place, placeOf, hc.find_some hl he]
    have hpassed : ((l ++ (h, e) :: r).map Prod.snd).dropWhile (fun e => !e.isFor hash key) =
        e :: r.map Prod.snd := by
      rw [List.map_append, List.map_cons, List.dropWhile_append_of_pos,
        List.dropWhile_cons_of_neg (by simp [he])]
      intro x hx
      simp [none_of_trail hl x hx]
    have hafter : c.after (some h) = next := by simp [after, hnode]
    have hentry : c.entryAt (some h) = some e := by simp [entryAt, hnode]
    rw [hplace, hpassed, hafter, hentry, entryAt_of_trail hrest]
    rfl

end Links

namespace ChainOp

variable {K : Type u} {V : Type v}

theorem handOver_receive_of_le {limit : Option Nat} (words : String) (es : List (Entry K V))
    {r : Receipt K V} (h : ∀ n ∈ limit, r.count + es.length ≤ n) :
    Entry.handOver (receive limit words) es r =
      (.ok (), [], ⟨es.reverse ++ r.taken, r.count + es.length⟩) := by
  induction es generalizing r with
  | nil => rfl
  | cons e rest ih =>
    have hgo : limit ≠ some r.count := by
      intro hstop
      have hle := h r.count hstop
      rw [List.length_cons] at hle
      omega
    have hrest := ih (r := ⟨e :: r.taken, r.count + 1⟩) fun n hn => by
      have hle := h n hn
      rw [List.length_cons] at hle
      show r.count + 1 + rest.length ≤ n
      omega
    rw [Entry.handOver, receive, if_neg hgo]
    simp only [hrest, List.reverse_cons, List.append_assoc, List.singleton_append, List.length_cons,
      Nat.add_assoc, Nat.add_comm 1]

theorem handOver_receive_of_lt {limit : Nat} (words : String) (es : List (Entry K V))
    {r : Receipt K V} (h : limit < es.length) :
    (Entry.handOver (receive (some (r.count + limit)) words) es r).1 = .error (.raised words) ∧
      (Entry.handOver (receive (some (r.count + limit)) words) es r).2.1 = es.drop (limit + 1) := by
  induction es generalizing r limit with
  | nil => cases h
  | cons e rest ih =>
    cases limit with
    | zero => simp [Entry.handOver, receive]
    | succ limit =>
      have hgo : some (r.count + (limit + 1)) ≠ some r.count := by
        intro hstop
        have hcount := Option.some.inj hstop
        omega
      have hrest := ih (r := ⟨e :: r.taken, r.count + 1⟩) (Nat.lt_of_succ_lt_succ h)
      have hcount : r.count + 1 + limit = r.count + (limit + 1) := by omega
      rw [Entry.handOver, receive, if_neg hgo]
      simp only [hcount] at hrest
      exact hrest

/-! ## Operations on linked nodes -/

variable {S : Type (max u v) → Type (max u v)} {H : Type} [Storage S H] [DecidableEq H]
variable [LawfulStorage S H] [BEq K]

/-- A drain with a limit, on linked nodes. -/
theorem drain_refines (limit : Option Nat) (words : String) {c : Links S H K V} (hc : c.Linked) :
    ((drain limit words).onLinks c).1 = ((drain limit words).onEntries c.toList).1 ∧
      ((drain limit words).onLinks c).2.toList = ((drain limit words).onEntries c.toList).2 := by
  obtain ⟨c', -, hleft, hdrain⟩ := hc.drain (receive limit words) ⟨[], 0⟩
  have hall : (∀ n ∈ limit, 0 + c.toList.length ≤ n) →
      ((drain limit words).onLinks c).1 = .entries c.toList ∧
        ((drain limit words).onLinks c).2.toList = [] := by
    intro hlimit
    have hover := handOver_receive_of_le words c.toList (r := ⟨[], 0⟩) hlimit
    rw [hover] at hleft hdrain
    simp [onLinks, hdrain, hleft]
  cases limit with
  | none => exact hall nofun
  | some limit =>
    rcases Nat.lt_or_ge limit c.toList.length with hlt | hge
    · have hstop := handOver_receive_of_lt words c.toList (r := ⟨[], 0⟩) hlt
      simp only [Nat.zero_add] at hstop
      rw [hstop.1] at hdrain
      rw [hstop.2] at hleft
      simp [onLinks, onEntries, hdrain, hleft, hlt]
    · have hnot : ¬ limit < c.toList.length := by omega
      simp only [onEntries, if_neg hnot]
      refine hall fun n hn => ?_
      cases hn
      omega

variable [PartialEquivBEq K]

/-- An operation on linked nodes is the operation on the entries that the links pass. -/
theorem onLinks_refines (op : ChainOp K V) {c : Links S H K V} (hc : c.Linked)
    (hes : c.toList.Pairwise Entry.Apart) :
    (op.onLinks c).1 = (op.onEntries c.toList).1 ∧
      (op.onLinks c).2.toList = (op.onEntries c.toList).2 := by
  cases op with
  | put e =>
    obtain ⟨-, hanswer, hlist⟩ := hc.insert e
    refine ⟨congrArg ChainAnswer.value hanswer, hlist.trans ?_⟩
    simp only [onEntries, ← List.isSome_find?]
    cases hf : c.toList.find? (Entry.isFor e.hash e.key) with
    | none => rfl
    | some old => exact Entry.rewriteFirst_eq_map _ hes
  | get hash key =>
    exact ⟨congrArg ChainAnswer.value (congrArg (Option.map Entry.value) (hc.find? _)), rfl⟩
  | contains hash key =>
    refine ⟨congrArg ChainAnswer.flag ?_, rfl⟩
    exact (congrArg Option.isSome (hc.find? _)).trans List.isSome_find?
  | update hash key f =>
    obtain ⟨-, hanswer, hlist⟩ := hc.update (Entry.isFor hash key) fun v => (f v, f v)
    exact ⟨congrArg ChainAnswer.value hanswer,
      hlist.trans (Entry.rewriteFirst_eq_map _ hes)⟩
  | remove hash key =>
    obtain ⟨-, hanswer, hlist⟩ := hc.takeOut (Entry.isFor hash key)
    exact ⟨congrArg ChainAnswer.pair (congrArg (Option.map Entry.pair) hanswer),
      hlist.trans (Entry.eraseP_eq_filter hes)⟩
  | delete hash key =>
    obtain ⟨-, hanswer, hlist⟩ := hc.takeOut (Entry.isFor hash key)
    refine ⟨congrArg ChainAnswer.flag ?_, hlist.trans (Entry.eraseP_eq_filter hes)⟩
    exact (congrArg Option.isSome hanswer).trans List.isSome_find?
  | clear => exact ⟨rfl, c.toList_clear⟩
  | drain limit words => exact drain_refines limit words hc
  | first =>
    obtain ⟨trail, ht⟩ := hc
    refine ⟨congrArg ChainAnswer.entry ?_, rfl⟩
    rw [ht.toList]
    exact Links.entryAt_of_trail ht.ends
  | next hash key =>
    obtain ⟨trail, ht⟩ := hc
    refine ⟨?_, rfl⟩
    rw [ht.toList]
    exact ht.next hash key
  | walk => exact ⟨congrArg ChainAnswer.entries hc.walk, rfl⟩
  | list => exact ⟨rfl, rfl⟩
  | length =>
    refine ⟨?_, rfl⟩
    show ChainAnswer.length c.size (c.size == 0) = .length c.toList.length c.toList.isEmpty
    rw [hc.size]
    cases c.toList <;> rfl

/-! ## Any number of operations -/

omit [PartialEquivBEq K]
variable [EquivBEq K]

theorem runAll_onLinks (ops : List (ChainOp K V)) {c : Links S H K V} (hc : c.Linked)
    (hes : c.toList.Pairwise Entry.Apart) :
    let done := runAll onLinks c ops
    let expected := runAll onEntries c.toList ops
    done.1 = expected.1 ∧ done.2.Linked ∧ done.2.toList = expected.2 ∧
      expected.2.Pairwise Entry.Apart := by
  induction ops generalizing c with
  | nil => exact ⟨rfl, hc, rfl, hes⟩
  | cons op rest ih =>
    obtain ⟨hanswer, hlist⟩ := op.onLinks_refines hc hes
    have hapart := op.apart_onEntries hes
    rw [← hlist] at hapart
    obtain ⟨hanswers, hrest⟩ := ih (op.linked hc) hapart
    rw [hlist] at hanswers hrest
    exact ⟨by simp only [runAll, hanswer, hanswers], hrest⟩

omit [EquivBEq K] in
theorem runAll_run (ops : List (ChainOp K V)) (c : Chain S K V) :
    let done := runAll (fun c op => op.run c) c ops
    let stored := runAll onLinks c.links ops
    done.1 = stored.1 ∧ done.2.links = stored.2 := by
  induction ops generalizing c with
  | nil => exact ⟨rfl, rfl⟩
  | cons op rest ih =>
    obtain ⟨hanswers, hlinks⟩ := ih (op.run c).2
    exact ⟨congrArg ((op.run c).1 :: ·) hanswers, hlinks⟩

/-- Any script of operations, on any storage that is a partial map and hands out handles that are
not live. From no nodes on, every operation answers as it does on a list of entries, which begins
empty and never has two entries for one hash and equal keys. Afterwards the links pass exactly the
entries of that list, in its order: from the head, every stored node once, and then they end.
However far they may be followed, a listing, a walk from place to place and a search come no further
than that; and a listing, a walk and a drain hand over the same. A chain does all this too. -/
theorem runAll_refines (ops : List (ChainOp K V)) :
    let done := runAll onLinks (Links.empty : Links S H K V) ops
    let expected := runAll onEntries [] ops
    let c := done.2
    let es := expected.2
    done.1 = expected.1 ∧ es.Pairwise Entry.Apart ∧
    (∃ trail, c.LinkedBy trail ∧ trail.map Prod.snd = es) ∧
    (∀ fuel, c.size ≤ fuel → Links.walk c.arena fuel c.head = es ∧ c.walkFrom fuel c.head = es ∧
      ∀ p, Links.locate c.arena p fuel none c.head = c.find p) ∧
    (∀ words, (list.onLinks c).1 = .entries es ∧ (walk.onLinks c).1 = .entries es ∧
      ((drain none words).onLinks c).1 = .entries es) ∧
    let chains := runAll (fun c op => op.run c) (∅ : Chain S K V) ops
    chains.1 = expected.1 ∧ chains.2.toList = es := by
  intro done expected c es
  have hempty : (Links.empty : Links S H K V).toList = [] := Links.linkedBy_empty.toList
  obtain ⟨hanswers, hlinked, hlist, hapart⟩ :=
    runAll_onLinks ops (Links.linked_empty (S := S) (H := H) (K := K) (V := V)) (hempty ▸ .nil)
  rw [hempty] at hanswers hlist hapart
  obtain ⟨trail, ht⟩ := hlinked
  have htrail : trail.map Prod.snd = es := ht.toList.symm.trans hlist
  refine ⟨hanswers, hapart, ⟨trail, ht, htrail⟩, ?_, ?_, ?_⟩
  · intro fuel hfuel
    have hlength : trail.length ≤ fuel := ht.count ▸ hfuel
    rw [← htrail]
    exact ⟨Links.walk_of_trail ht.ends hlength, Links.walkFrom_of_trail ht.ends hlength,
      fun p => ht.locate_eq_find p hfuel⟩
  · intro words
    have hrefines := fun op => (onLinks_refines op ⟨trail, ht⟩ (hlist ▸ hapart)).1
    rw [hlist] at hrefines
    exact ⟨hrefines list, hrefines walk, hrefines (drain none words)⟩
  · obtain ⟨hstored, hlinks⟩ := runAll_run ops (∅ : Chain S K V)
    exact ⟨hstored.trans hanswers, (congrArg Links.toList hlinks).trans hlist⟩

/-- Three entries in an arena, of which the second leaves; its key under another hash is stored in
the cell that was its own. -/
theorem runAll_refines_reuse :
    let ops : List (ChainOp Nat Nat) := [.put ⟨1, 7, 10⟩, .put ⟨2, 7, 20⟩, .put ⟨3, 7, 30⟩,
      .remove 7 2, .put ⟨2, 8, 25⟩, .put ⟨1, 7, 11⟩, .get 7 2]
    let done := runAll onLinks (Links.empty : Links Arena Handle Nat Nat) ops
    done.1 = [.value none, .value none, .value none, .pair (some (2, 20)), .value none,
      .value (some 10), .value none] ∧
    done.2.head = some ⟨1, 1⟩ ∧ ∀ fuel, 3 ≤ fuel →
      done.2.walkFrom fuel done.2.head = [⟨2, 8, 25⟩, ⟨3, 7, 30⟩, ⟨1, 7, 11⟩] := by
  intro ops done
  obtain ⟨hanswers, -, -, hwalk, -, -⟩ := runAll_refines (S := Arena) (H := Handle) ops
  have hsize : done.2.size = 3 := by decide +kernel
  refine ⟨hanswers, by decide +kernel, ?_⟩
  intro fuel hfuel
  exact (hwalk fuel (hsize ▸ hfuel)).2.1

end ChainOp

end ShardedMap
