import ShardedMap.Proofs.Map.Refinement
import ShardedMap.Proofs.Program.Reentry
import ShardedMap.Proofs.Slots.Split
/-
  What a map tells of how full it is. Three counts are kept apart from each other: the total of a
  shard, which an operation adds to and takes from; the sizes of the chains, which their storages
  keep and occupancies go by; and the entries that a visit meets on its way along the links. If the
  shards are sound they agree, for each slot, for each shard and for all of them (`views_of_sound`),
  and so they do in every session that a program passes, wherever it puts its keys (`views_passed`).
  How the numbers of an occupancy bound each other is then a matter of arithmetic
  (`Tells.possible`).
-/
namespace ShardedMap

variable {S : Type → Type} {H : Type} [DecidableEq H] [Storage S H] [LawfulStorage S H]

universe u

/-! ## Occupancies -/

namespace Occupancy

variable {α : Type u}

/-- The numbers of `o` are those of a shard in whose slots a visit meets `met`. -/
structure Tells (o : Occupancy) (met : List (List α)) : Prop where
  slotCount : o.slotCount = met.length
  pairTotal : o.pairTotal = met.flatten.length
  emptySlots : o.emptySlots = met.countP List.isEmpty
  longest : ∀ pairs ∈ met, pairs.length ≤ o.longestSlot
  reached : ∃ pairs ∈ met, pairs.length = o.longestSlot

/-- The bounds that the numbers of an occupancy put on each other. -/
structure Possible (o : Occupancy) : Prop where
  emptySlots_le : o.emptySlots ≤ o.slotCount
  /-- No slot that is in use holds more than the longest. -/
  pairTotal_le : o.pairTotal ≤ o.longestSlot * (o.slotCount - o.emptySlots)
  /-- Each slot that is in use holds something. -/
  le_pairTotal : o.slotCount - o.emptySlots ≤ o.pairTotal
  longestSlot_eq_zero : o.longestSlot = 0 ↔ o.pairTotal = 0
  pairTotal_eq_zero : o.pairTotal = 0 ↔ o.emptySlots = o.slotCount

/-- The lists that are not empty hold one element at least and `bound` at most. -/
theorem length_flatten_bounds {met : List (List α)} {bound : Nat}
    (h : ∀ pairs ∈ met, pairs.length ≤ bound) :
    met.length - met.countP List.isEmpty ≤ met.flatten.length ∧
      met.flatten.length ≤ bound * (met.length - met.countP List.isEmpty) := by
  induction met with
  | nil => exact ⟨Nat.zero_le _, Nat.zero_le _⟩
  | cons pairs rest ih =>
    obtain ⟨hpairs, hrest⟩ := List.forall_mem_cons.1 h
    obtain ⟨hlower, hupper⟩ := ih hrest
    have hempty : rest.countP List.isEmpty ≤ rest.length := List.countP_le_length
    rw [List.flatten_cons, List.length_append, List.length_cons]
    cases pairs with
    | nil =>
      rw [List.countP_cons_of_pos rfl, List.length_nil, Nat.zero_add, Nat.add_sub_add_right]
      exact ⟨hlower, hupper⟩
    | cons pair pairs =>
      rw [List.countP_cons_of_neg (by simp), List.length_cons, Nat.succ_sub hempty,
        Nat.mul_succ]
      rw [List.length_cons] at hpairs
      omega

/-- Numbers that tell what a visit meets bound each other. -/
theorem Tells.possible {o : Occupancy} {met : List (List α)} (h : o.Tells met) : o.Possible := by
  have hempty : o.emptySlots ≤ o.slotCount := by
    rw [h.emptySlots, h.slotCount]
    exact List.countP_le_length
  obtain ⟨hlower, hupper⟩ := length_flatten_bounds h.longest
  rw [← h.emptySlots, ← h.slotCount, ← h.pairTotal] at hlower hupper
  have hlongest : o.longestSlot ≤ o.pairTotal := by
    obtain ⟨pairs, hmem, hreached⟩ := h.reached
    rw [h.pairTotal, ← hreached]
    exact (List.sublist_flatten_of_mem hmem).length_le
  refine ⟨hempty, hupper, hlower, ?_, ?_⟩
  · constructor
    · intro hzero
      rw [hzero, Nat.zero_mul] at hupper
      exact Nat.le_zero.1 hupper
    · intro hzero
      rw [hzero] at hlongest
      exact Nat.le_zero.1 hlongest
  · constructor
    · omega
    · intro hall
      rw [hall, Nat.sub_self, Nat.mul_zero] at hupper
      exact Nat.le_zero.1 hupper

end Occupancy

/-! ## Slots -/

namespace Slots

variable {K V : Type}

theorem exists_size_eq_longest {slots : Slots S K V} (hpos : 0 < slots.size) :
    ∃ j, j < slots.size ∧ (slots.chainAt j).size = slots.longest := by
  by_contra hnone
  -- Then all would be shorter, and so would the longest.
  have hshorter : ∀ j, (slots.chainAt j).size ≤ slots.longest - 1 := by
    intro j
    rcases Nat.lt_or_ge j slots.size with hj | hj
    · have hle := slots.size_le_longest j
      have hne : (slots.chainAt j).size ≠ slots.longest := fun heq => hnone ⟨j, hj, heq⟩
      omega
    · rw [chainAt_of_le hj, Chain.size_empty]
      exact Nat.zero_le _
  have hle := longest_le_iff.2 hshorter
  have hfirst := slots.size_le_longest 0
  exact hnone ⟨0, hpos, by omega⟩

/-- The pairs of each slot, in chain order. -/
def pairs (slots : Slots S K V) : List (List (K × V)) :=
  slots.toList.map fun chain => chain.toList.map Entry.pair

theorem length_pairs (slots : Slots S K V) : slots.pairs.length = slots.size := by
  rw [pairs, List.length_map, Array.length_toList]

theorem getElem_pairs {slots : Slots S K V} {j : Nat} (hj : j < slots.pairs.length) :
    slots.pairs[j] = (slots.chainAt j).toList.map Entry.pair := by
  have hlt : j < slots.size := by rwa [length_pairs] at hj
  simp only [pairs, List.getElem_map, Array.getElem_toList, chainAt_of_lt hlt]

theorem flatten_pairs (slots : Slots S K V) :
    slots.pairs.flatten = slots.entries.map Entry.pair := by
  rw [pairs, ← List.flatMap_def, entries, List.map_flatMap]

theorem tells_pairs {P : Type} {s : Shard S K V P} (hpos : 0 < s.slots.size)
    (hcounted : s.total = s.slots.entryCount) : s.occupancy.Tells s.slots.pairs where
  slotCount := (length_pairs s.slots).symm
  pairTotal := by
    rw [flatten_pairs, List.length_map, ← entryCount_eq_length]
    exact hcounted
  emptySlots := by
    show Array.countP Chain.isEmpty s.slots = _
    rw [pairs, List.countP_map, ← Array.countP_toList]
    apply List.countP_congr
    intro chain _
    rw [Chain.isEmpty_iff, Function.comp_apply, List.isEmpty_iff, List.map_eq_nil_iff]
  longest := by
    intro pairs hpairs
    obtain ⟨j, hj, rfl⟩ := List.getElem_of_mem hpairs
    rw [getElem_pairs, List.length_map, ← Chain.size_eq]
    exact s.slots.size_le_longest j
  reached := by
    obtain ⟨j, hj, hlongest⟩ := exists_size_eq_longest hpos
    have hj' : j < s.slots.pairs.length := by rwa [length_pairs]
    refine ⟨s.slots.pairs[j], List.getElem_mem hj', ?_⟩
    rw [getElem_pairs, List.length_map, ← Chain.size_eq]
    exact hlongest

end Slots

/-! ## What can be asked of a map -/

namespace Program

variable {A : Type} {n : Nat} {K V P M R : Type}

/-- Ends with an answer, or in a panic. -/
def conclude : Except Panic R → Program A n K V P M R
  | .error p => .panic p
  | .ok r => .done r

end Program

namespace Map

variable {K V P M R σ : Type}

/-- The pairs that a visit of shard `i` meets in slot `j`, from place to place. -/
def visitedIn (m : Map S K V P) (i : Fin m.count) (j : Nat) : Except Panic (List (K × V)) :=
  let (result, s) := (m.session []).guarded i none (Session.visitSlots i noteDown 1 j)
  result.map fun () => s.memory.reverse

theorem visitedIn_eq (m : Map S K V P) (i : Fin m.count) (j : Nat) :
    m.visitedIn i j = .ok (((m.shards.get i).slots.chainAt j).toList.map Entry.pair) := by
  let c := (m.shards.get i).slots.chainAt j
  let s := (m.session ([] : List (K × V))).enter i none
  have hchain : ∀ t : Session m.count S K V P (List (K × V)), t.shards = m.shards →
      t.chainAt i j = c := by
    intro t ht
    show (t.shards.get i).slots.chainAt j = c
    rw [ht]
  have hwalk : c.links.walkFrom c.size c.first = c.toList := c.linked.walk
  have hone : Session.visitChain i j noteDown c.size c.first s =
      (.ok (), { s with memory := (c.toList.map Entry.pair).reverse ++ [] }) := by
    rw [Session.visitChain_eq hchain (fun _ _ _ ht => ht) _ _ rfl, hwalk]
    exact handEach_noteDown c.toList s
  have hslot : Session.visitSlots i noteDown 1 j s =
      (.ok (), { s with memory := (c.toList.map Entry.pair).reverse ++ [] }) := by
    unfold Session.visitSlots
    rw [hchain s rfl, hone]
    rfl
  have hfree : (m.session ([] : List (K × V))).holding i = false := rfl
  unfold visitedIn
  rw [Session.guarded_of_free hfree, hslot, List.append_nil]
  show Except.ok ((c.toList.map Entry.pair).reverse.reverse) = _
  rw [List.reverse_reverse]

theorem pairs_eq_flatMap (m : Map S K V P) :
    m.pairs = (List.finRange m.count).flatMap fun i => (m.shards.get i).slots.pairs.flatten := by
  unfold pairs
  rw [Shard.toList_eq_finRange, List.flatMap_map]
  simp only [Slots.flatten_pairs]

section Views

variable [BEq K] [ResizePolicy P]

/-- The totals that a thread reads off the shards one after another, entering none. -/
def totals (m : Map S K V P) : Except Panic (List Nat) :=
  (m.run (Program.totalAll .done (List.finRange m.count)) ()).1

/-- The slot counts that the shards answer one after another. -/
def slotCounts (m : Map S K V P) : Except Panic (List Nat) :=
  (m.run (Program.slotCountAll Program.conclude (List.finRange m.count)) ()).1

/-- The occupancies that the shards answer one after another. -/
def occupanciesTold (m : Map S K V P) : Except Panic (List Occupancy) :=
  (m.run (Program.occupancyAll Program.conclude (List.finRange m.count)) ()).1

/-- What a map answers of itself, if a visit of it meets `pairs`, visits of its slots meet `met`,
and its shards answer `told`. -/
structure Views (m : Map S K V P) (pairs : List (K × V)) (met : Fin m.count → List (List (K × V)))
    (told : Fin m.count → Occupancy) : Prop where
  visited : m.visited = .ok pairs
  visitedIn : ∀ i j (hj : j < (met i).length), m.visitedIn i j = .ok (met i)[j]
  /-- A visit of the map goes through the shards in order, and through their slots in order. -/
  pairs_eq_flatMap : pairs = (List.finRange m.count).flatMap fun i => (met i).flatten
  occupancies : m.occupanciesTold = .ok ((List.finRange m.count).map told)
  totals : m.totals = .ok ((List.finRange m.count).map fun i => (told i).pairTotal)
  slotCounts : m.slotCounts = .ok ((List.finRange m.count).map fun i => (told i).slotCount)
  size_eq_totals : m.size = sumOver (fun i => (told i).pairTotal) (List.finRange m.count)
  size_eq_visits : m.size = pairs.length
  isEmpty_iff : m.isEmpty = true ↔ pairs = []
  tells : ∀ i, (told i).Tells (met i)
  possible : ∀ i, (told i).Possible

/-- What a map of sound shards answers of itself is what its slots hold. -/
theorem views_of_sound {m : Map S K V P} (h : ∀ i, (m.shards.get i).Sound) :
    m.Views m.pairs (fun i => (m.shards.get i).slots.pairs)
      fun i => (m.shards.get i).occupancy := by
  have hfree : ∀ i ∈ List.finRange m.count, i ∉ (m.session ()).entered := nofun
  have htells : ∀ i, (m.shards.get i).occupancy.Tells (m.shards.get i).slots.pairs :=
    fun i => Slots.tells_pairs (h i).pos (h i).counted
  have htotals : m.size = sumOver (fun i => (m.shards.get i).occupancy.pairTotal)
      (List.finRange m.count) := by
    unfold size
    rw [Shard.toList_eq_finRange, sumOver_map]
    rfl
  have hvisits : m.size = m.pairs.length := by
    rw [htotals, pairs_eq_flatMap, ← sumOver_length]
    congr 1
    funext i
    exact (htells i).pairTotal
  refine ⟨visited_eq m, ?_, m.pairs_eq_flatMap, ?_, ?_, ?_, htotals, hvisits, ?_, htells,
    fun i => (htells i).possible⟩
  · intro i j hj
    rw [visitedIn_eq, Slots.getElem_pairs]
  · unfold occupanciesTold run
    rw [Program.run_occupancyAll_free _ _ hfree]
    rfl
  · unfold totals run
    rw [Program.run_totalAll_eq]
    rfl
  · unfold slotCounts run
    rw [Program.run_slotCountAll_free _ _ hfree]
    rfl
  · rw [isEmpty_iff_size, hvisits, List.length_eq_zero_iff]

end Views

variable {A : Type} [BEq K] [EquivBEq K] [ResizePolicy P]

/-- Whatever a thread does on a built map, whatever its policies plan, through closures of any depth
and panics, and whichever shards and hashes it names for its keys, the map's own or others: in every
session on the way and afterwards, what the map answers of itself agrees. The number of entries is
the sum of the shards' totals, as read off them and as their occupancies tell it, and the number of
pairs that a visit of the map meets; the map is empty if and only if a visit meets nothing; and the
occupancy of a shard tells its slot count, in how many slots a visit meets nothing, and the most
that it meets in one. -/
theorem views_passed {settings : Settings} {hash : K → UInt64}
    {make : PolicySettings → σ → P × σ} {state state' : σ} {m : Map S K V P}
    (h : build settings hash make state = (.ok m, state')) (locate : A → K → Fin m.count × UInt64)
    (program : Program A m.count K V P M R) (memory : M) :
    (∀ s ∈ program.passed locate (m.session memory),
      ∃ pairs met told, Views { m with shards := s.shards } pairs met told) ∧
    ∃ pairs met told, Views { m with shards := (program.run locate (m.session memory)).2.shards }
      pairs met told := by
  have hstart : ∀ i, ((m.session memory).shards.get i).Sound := fun i => (fits_build h i).sound
  obtain ⟨hpassed, hrun⟩ := (Program.kept_sound locate).passed program hstart
  constructor
  · intro s hs
    have hsound := hpassed s hs
    exact ⟨_, _, _, views_of_sound hsound⟩
  · exact ⟨_, _, _, views_of_sound hrun⟩

/-- Two puts into one of two slots, of which none may hold more than one. The second doubles the
slots, and the two entries part. -/
theorem views_passed_doubled :
    let settings : Settings := ⟨2, 2, .standard, 1⟩
    let factory := fun s () => (LoadPolicy.ofSettings s, ())
    let faultless : settings.fault? = none := by decide
    let m : Map Arena Nat Nat LoadPolicy := made faultless (fun k : Nat => k.toUInt64) factory ()
    let program : Program Unit m.count Nat Nat LoadPolicy Unit Unit :=
      .perform () (.put 1 5) fun _ => .perform () (.put 3 6) fun _ => .done ()
    let after := (m.run program ()).2.2
    (∀ s ∈ program.passed (fun _ key => m.locate key) (m.session ()),
      ∃ pairs met told, Views { m with shards := s.shards } pairs met told) ∧
    ∃ pairs met told, after.Views pairs met told ∧ pairs.length = 2 ∧
      (List.finRange after.count).map told = [⟨4, 2, 2, 1⟩, ⟨2, 0, 2, 0⟩] := by
  intro settings factory faultless m program after
  have hbuild : build settings (fun k : Nat => k.toUInt64) factory () = (.ok m, ()) :=
    build_of_no_fault faultless _ _ _
  obtain ⟨hpassed, pairs, met, told, hrun⟩ :=
    views_passed hbuild (fun _ key => m.locate key) program ()
  have hviews : after.Views pairs met told := hrun
  have hsize : after.size = 2 := by decide +kernel
  have htold : after.occupanciesTold = .ok [⟨4, 2, 2, 1⟩, ⟨2, 0, 2, 0⟩] := by decide +kernel
  refine ⟨hpassed, pairs, met, told, hviews, ?_, ?_⟩
  · exact hviews.size_eq_visits.symm.trans hsize
  · exact Except.ok.inj (hviews.occupancies.symm.trans htold)

end Map

end ShardedMap
