import Mathlib.Logic.Function.Iterate
import ShardedMap.Map.Basic
import ShardedMap.Proofs.Program.Passed
/-
  What every session of a thread on a map keeps (`Map.Consistent`). A shard `Fits` in its place if
  it is sound and each entry in it has the hash of its key and is routed there. A built map fits
  (`fits_build`), an operation on the shard that its key is routed to keeps it fitting, and so does
  whatever closures do to values lent to them; so a map is consistent in every session that a
  program passes (`consistent_passed`).
-/
namespace ShardedMap

variable {S : Type → Type} {H : Type} [DecidableEq H] [Storage S H] [LawfulStorage S H]

variable {K V P M R σ : Type} {n : Nat}

/-! ## One shard in its place -/

namespace Shard

/-- As shard `i` under a hash function, a shard is sound and holds only what belongs there. -/
structure Fits [BEq K] (hash : K → UInt64) (hn : 0 < n) (i : Fin n) (s : Shard S K V P) : Prop where
  sound : s.Sound
  routed : ∀ e ∈ s.slots.entries, e.hash = hash e.key ∧ Map.route hn e.hash = i

variable [BEq K] {hash : K → UInt64} {hn : 0 < n} {i : Fin n}

theorem Fits.assign [EquivBEq K] {s : Shard S K V P} (hs : Fits hash hn i s) (h : UInt64) (key : K)
    (value : V) : Fits hash hn i (s.assign h key value) := by
  refine ⟨hs.sound.assign h key value, ?_⟩
  intro e' he'
  obtain ⟨e, he, hh, hk⟩ := hs.sound.mem_entries_assign he'
  rw [hh, hk]
  exact hs.routed e he

variable [ResizePolicy P]

theorem Fits.fresh {slotCount : Nat} (h : 0 < slotCount) (policy : P) :
    Fits hash hn i (Shard.fresh slotCount policy : Shard S K V P) := by
  refine ⟨Sound.fresh h policy, ?_⟩
  intro e he
  rw [entries_fresh] at he
  cases he

theorem Fits.perform [EquivBEq K] {s : Shard S K V P} (hs : Fits hash hn i s) {op : Operation K V R}
    (hi : Map.route hn (hash op.key) = i) :
    Fits hash hn i (s.perform (hash op.key) op).2.1 := by
  obtain ⟨found, rest, hbefore, -, -, hafter, hsound, -, -⟩ :=
    hs.sound.perform (hash op.key) op
  have hold : ∀ e ∈ found.toList ++ rest, e.hash = hash e.key ∧ Map.route hn e.hash = i := by
    intro e he
    exact hs.routed e (hbefore.mem_iff.2 he)
  have hfound : ∀ e ∈ found, e.hash = hash e.key ∧ Map.route hn e.hash = i := by
    intro e he
    exact hold e (List.mem_append_left _ (Option.mem_toList.2 he))
  have hleft : ∀ e ∈ (op.onEntry (hash op.key) found).2,
      e.hash = hash e.key ∧ Map.route hn e.hash = i :=
    Operation.onEntry_keeps (C := fun h key => h = hash key ∧ Map.route hn h = i) hfound ⟨rfl, hi⟩
  refine ⟨hsound, ?_⟩
  intro e he
  rcases List.mem_append.1 (hafter.mem_iff.1 he) with he | he
  · exact hleft e (Option.mem_toList.1 he)
  · exact hold e (List.mem_append_right _ he)

end Shard

theorem Settings.fault?_standard : Settings.standard.fault? = none := by decide

namespace Map

/-! ## Built maps -/

section Build

variable [ResizePolicy P]

/-- The factory is called once for each shard, and always for the same settings. -/
theorem makeShards_snd (s : PolicySettings) (make : PolicySettings → σ → P × σ) (count : Nat)
    (state : σ) :
    (makeShards s make count state : Vector (Shard S K V P) count × σ).2 =
      (fun st => (make s st).2)^[count] state := by
  induction count with
  | zero => rfl
  | succ count ih =>
    rw [Function.iterate_succ_apply', ← ih]
    rfl

theorem makeShards_get (s : PolicySettings) (make : PolicySettings → σ → P × σ) (count : Nat)
    (state : σ) (i : Fin count) :
    (makeShards s make count state : Vector (Shard S K V P) count × σ).1.get i =
      Shard.fresh s.slotCount (make s ((fun st => (make s st).2)^[i] state)).1 := by
  induction count with
  | zero => exact i.elim0
  | succ count ih =>
    have hstate := makeShards_snd (S := S) (K := K) (V := V) s make count state
    unfold makeShards
    rcases hshards : (makeShards s make count state : Vector (Shard S K V P) count × σ) with
      ⟨shards, rest⟩
    rw [hshards] at hstate
    show (shards.push (Shard.fresh s.slotCount (make s rest).1))[(i : Nat)] = _
    rcases Nat.lt_or_ge i count with hi | hi
    · have h := ih ⟨i, hi⟩
      rw [hshards] at h
      rw [Vector.getElem_push_lt hi]
      exact h
    · have hlast : (i : Nat) = count := by omega
      simp only [hlast, Vector.getElem_push_eq]
      rw [show rest = _ from hstate]

/-- The map for settings without a fault. -/
def made {settings : Settings} (h : settings.fault? = none) (hash : K → UInt64)
    (make : PolicySettings → σ → P × σ) (state : σ) : Map S K V P where
  hash := hash
  count := settings.shardCount
  count_pos := Settings.shardCount_pos h
  shards := (makeShards settings.policySettings make settings.shardCount state).1

theorem build_of_no_fault {settings : Settings} (h : settings.fault? = none) (hash : K → UInt64)
    (make : PolicySettings → σ → P × σ) (state : σ) :
    (build settings hash make state : Except ConfigError (Map S K V P) × σ) =
      (.ok (made h hash make state),
        (fun st => (make settings.policySettings st).2)^[settings.shardCount] state) := by
  unfold build
  split
  · rename_i e he
    rw [h] at he
    cases he
  · exact congrArg (Prod.mk _) (makeShards_snd (S := S) (K := K) (V := V) _ make _ state)

/-- A refusal leaves the factory as it was. -/
theorem build_of_fault {settings : Settings} {e : ConfigError} (h : settings.fault? = some e)
    (hash : K → UInt64) (make : PolicySettings → σ → P × σ) (state : σ) :
    (build settings hash make state : Except ConfigError (Map S K V P) × σ) =
      (.error e, state) := by
  unfold build
  split
  · rename_i e' he
    rw [h] at he
    cases he
    rfl
  · rename_i hn
    rw [h] at hn
    cases hn

/-- A map is only built from settings without a fault, and then of fresh shards with a slot. -/
theorem build_ok {settings : Settings} {hash : K → UInt64} {make : PolicySettings → σ → P × σ}
    {state state' : σ} {m : Map S K V P} (h : build settings hash make state = (.ok m, state')) :
    m.hash = hash ∧ 0 < settings.slotsPerShard ∧
      ∀ i, ∃ st : σ, m.shards.get i =
        Shard.fresh settings.slotsPerShard (make settings.policySettings st).1 := by
  cases hf : settings.fault? with
  | some e =>
    rw [build_of_fault hf] at h
    cases h
  | none =>
    rw [build_of_no_fault hf] at h
    cases h
    exact ⟨rfl, Settings.slotsPerShard_pos hf, fun i => ⟨_, makeShards_get _ make _ state i⟩⟩

end Build

/-! ## Consistency -/

/-- All shards of a map fit together: they have slots, count what they hold, hold each entry where
its hash sends it, under the hash of its key, and hold none twice. -/
structure Consistent [BEq K] (m : Map S K V P) : Prop where
  slots : ∀ i, 1 ≤ (m.shards.get i).slots.size
  counted : ∀ i, (m.shards.get i).total = (m.shards.get i).slots.entryCount
  placed : ∀ i j, ∀ e ∈ ((m.shards.get i).slots.chainAt j).toList,
    e.hash.toNat % (m.shards.get i).slots.size = j ∧ (e.hash >>> 32).toNat % m.count = i ∧
      e.hash = m.hash e.key
  /-- No two entries of the whole map have one hash and equal keys. -/
  distinct : (Shard.allEntries m.shards).Pairwise Entry.Apart

theorem consistent_of_fits [BEq K] {m : Map S K V P}
    (h : ∀ i, (m.shards.get i).Fits m.hash m.count_pos i) : m.Consistent := by
  refine ⟨fun i => (h i).sound.pos, fun i => (h i).sound.counted, ?_, ?_⟩
  · intro i j e he
    obtain ⟨hhash, hroute⟩ := (h i).routed e (Slots.mem_entries.2 ⟨j, he⟩)
    exact ⟨(h i).sound.placed j e he, congrArg Fin.val hroute, hhash⟩
  · -- The routes of the hashes tell apart the entries of two shards.
    refine Shard.distinct_allEntries (fun i => (h i).sound) ?_
    intro i j hij a ha b hb hab
    have hroute := congrArg (route m.count_pos) hab
    rw [((h i).routed a ha).2, ((h j).routed b hb).2] at hroute
    exact hij hroute

variable [ResizePolicy P]

theorem fits_build [BEq K] {settings : Settings} {hash : K → UInt64}
    {make : PolicySettings → σ → P × σ} {state state' : σ} {m : Map S K V P}
    (h : build settings hash make state = (.ok m, state')) (i : Fin m.count) :
    (m.shards.get i).Fits m.hash m.count_pos i := by
  obtain ⟨-, hslots, hfresh⟩ := build_ok h
  obtain ⟨st, hi⟩ := hfresh i
  rw [hi]
  exact Shard.Fits.fresh hslots _

variable [BEq K] [EquivBEq K]

theorem kept_fits (hash : K → UInt64) (hn : 0 < n) :
    Program.Kept (fun (_ : Unit) key => (route hn (hash key), hash key)) R
      fun s : Session n S K V P M => ∀ i, (s.shards.get i).Fits hash hn i := by
  apply Program.Kept.of_shards
  · intro i shard h key value hs
    exact hs.assign h key value
  · intro _ op shard hs
    exact hs.perform rfl

/-- Whatever a thread does on a built map, through closures of any depth, panics and whatever its
policies plan, the map is consistent in every session on the way and afterwards. -/
theorem consistent_passed {settings : Settings} {hash : K → UInt64}
    {make : PolicySettings → σ → P × σ} {state state' : σ} {m : Map S K V P}
    (h : build settings hash make state = (.ok m, state'))
    (program : Program Unit m.count K V P M R) (memory : M) :
    (∀ s ∈ program.passed (fun _ key => m.locate key) (m.session memory),
      Consistent { m with shards := s.shards }) ∧
    (m.run program memory).2.2.Consistent := by
  have hstart : ∀ i, ((m.session memory).shards.get i).Fits m.hash m.count_pos i := fits_build h
  obtain ⟨hpassed, hrun⟩ := (kept_fits m.hash m.count_pos).passed program hstart
  constructor
  · intro s hs
    have hfits := hpassed s hs
    exact consistent_of_fits hfits
  · unfold run
    exact consistent_of_fits hrun

/-- A value lent to a closure that asks for its shard again and then gives up. -/
theorem consistent_passed_nested :
    let m : Map Arena Nat Nat LoadPolicy := made Settings.fault?_standard
      (fun k : Nat => k.toUInt64) (fun s () => (LoadPolicy.ofSettings s, ())) ()
    let program : Program Unit m.count Nat Nat LoadPolicy Unit Unit :=
      .perform () (.put 1 5) fun _ =>
        .update () 1 (fun i v => .assign i (v + 1) (.perform () (.remove 1) fun _ =>
          .panic (.raised "enough"))) fun _ => .done ()
    (∀ s ∈ program.passed (fun _ key => m.locate key) (m.session ()),
      Consistent { m with shards := s.shards }) ∧ (m.run program ()).2.2.Consistent := by
  intro m program
  have hbuild : build Settings.standard (fun k : Nat => k.toUInt64)
      (fun s () => (LoadPolicy.ofSettings s, ())) () = (.ok m, ()) :=
    build_of_no_fault Settings.fault?_standard _ _ _
  exact consistent_passed hbuild program ()

end Map

end ShardedMap
