import ShardedMap.Proofs.Map.Consistent
import ShardedMap.Proofs.Program.Plain
/-
  What four checks on the settings are worth. Settings that pass them make a map, one shard after
  another, each with a policy of its own that was made for the same settings; others are refused for
  their first fault. On the map that passed them no later check fails: with the stock policy, plain
  programs come to their end, and between any two of their operations all shards are fit for the
  next (`build_unfailing`).
-/
namespace ShardedMap

variable {S : Type → Type} {H : Type} [DecidableEq H] [Storage S H] [LawfulStorage S H]

variable {K V P σ : Type}

theorem Settings.fault?_eq_some_iff (s : Settings) (e : ConfigError) :
    s.fault? = some e ↔
      (s.shardCount = 0 ∧ e = .zeroShardCount) ∨
      (maxShardCount < s.shardCount ∧ e = .tooManyShards s.shardCount) ∨
      (0 < s.shardCount ∧ s.shardCount ≤ maxShardCount ∧ s.slotsPerShard = 0 ∧
        e = .zeroSlotCount) ∨
      (0 < s.shardCount ∧ s.shardCount ≤ maxShardCount ∧ 0 < s.slotsPerShard ∧
        s.maxSlotSize = 0 ∧ e = .zeroMaxSlotSize) := by
  unfold fault? maxShardCount
  constructor
  · intro h
    split at h
    · cases h
      exact .inl ⟨‹_›, rfl⟩
    · split at h
      · cases h
        exact .inr (.inl ⟨‹_›, rfl⟩)
      · split at h
        · cases h
          exact .inr (.inr (.inl ⟨by omega, by omega, ‹_›, rfl⟩))
        · split at h
          · cases h
            exact .inr (.inr (.inr ⟨by omega, by omega, by omega, ‹_›, rfl⟩))
          · cases h
  · rintro (⟨h, rfl⟩ | ⟨h, rfl⟩ | ⟨h, h', h'', rfl⟩ | ⟨h, h', h'', hsize, rfl⟩)
    · rw [if_pos h]
    · rw [if_neg (by omega), if_pos h]
    · rw [if_neg (by omega), if_neg (by omega), if_pos h'']
    · rw [if_neg (by omega), if_neg (by omega), if_neg (by omega), if_pos hsize]

theorem Settings.fault?_eq_none {s : Settings} (hcount : 0 < s.shardCount)
    (hmax : s.shardCount ≤ maxShardCount) (hslots : 0 < s.slotsPerShard)
    (hsize : 0 < s.maxSlotSize) : s.fault? = none := by
  unfold fault?
  rw [if_neg (by omega), if_neg (by omega), if_neg (by omega), if_neg (by omega)]

namespace Map

/-- Settings are refused for their fault, and then the factory is not called. -/
theorem build_eq_error_iff [ResizePolicy P] (settings : Settings) (hash : K → UInt64)
    (make : PolicySettings → σ → P × σ) (state state' : σ) (e : ConfigError) :
    (build settings hash make state : Except ConfigError (Map S K V P) × σ) = (.error e, state') ↔
      settings.fault? = some e ∧ state' = state := by
  cases hfault : settings.fault? with
  | none =>
    rw [build_of_no_fault hfault]
    simp
  | some e' =>
    rw [build_of_fault hfault]
    simp [eq_comm]

theorem build_of_buildStock {settings : Settings} {hash : K → UInt64} {m : Map S K V LoadPolicy}
    (h : buildStock settings hash = .ok m) :
    build settings hash (fun s () => (LoadPolicy.ofSettings s, ())) () = (.ok m, ()) :=
  Prod.ext h rfl

/-- Settings without a fault make as many shards as they ask for, each with a slot and with the
policy of its own call of the factory. -/
theorem exists_build [ResizePolicy P] {settings : Settings} (h : settings.fault? = none)
    (hash : K → UInt64) (make : PolicySettings → σ → P × σ) (state : σ) :
    let call := fun st => (make settings.policySettings st).2
    ∃ m : Map S K V P,
      build settings hash make state = (.ok m, call^[settings.shardCount] state) ∧
      m.count = settings.shardCount ∧
      ∀ i : Fin m.count,
        Shard.make settings.slotsPerShard (make settings.policySettings (call^[i] state)).1 =
          .ok (m.shards.get i) := by
  intro call
  refine ⟨made h hash make state, build_of_no_fault h hash make state, rfl, fun i => ?_⟩
  have hshard := makeShards_get (S := S) (K := K) (V := V) settings.policySettings make
    settings.shardCount state i
  unfold Shard.make
  rw [if_neg (Nat.ne_of_gt (Settings.slotsPerShard_pos h))]
  exact congrArg Except.ok hshard.symm

/-- Settings are refused for the first of four faults, whatever the factory of policies would do. If
they have none, the factory is called once for each shard, for the same settings every time, and
each shard is made with a slot.

With the stock policy, no plain program panics on the map, whether its operations name keys or
shards and hashes. Between its operations, as long as every shard holds fewer than `2 ^ 63` slots
and entries, no operation that may come next fails a check: a guard, an assertion, a look-up by
index, a division or an addition. Only adding up the totals of all shards is about more than one of
them, and succeeds below `2 ^ 64` entries. -/
theorem build_unfailing [BEq K] [EquivBEq K] (settings : Settings) (hash : K → UInt64) :
    (∀ (P σ : Type) [ResizePolicy P] (make : PolicySettings → σ → P × σ) (state : σ),
      let built : Except ConfigError (Map S K V P) × σ := build settings hash make state
      (∀ e, built = (.error e, state) ↔
        (settings.shardCount = 0 ∧ e = .zeroShardCount) ∨
        (65536 < settings.shardCount ∧ e = .tooManyShards settings.shardCount) ∨
        (0 < settings.shardCount ∧ settings.shardCount ≤ 65536 ∧ settings.slotsPerShard = 0 ∧
          e = .zeroSlotCount) ∨
        (0 < settings.shardCount ∧ settings.shardCount ≤ 65536 ∧ 0 < settings.slotsPerShard ∧
          settings.maxSlotSize = 0 ∧ e = .zeroMaxSlotSize)) ∧
      (0 < settings.shardCount → settings.shardCount ≤ 65536 → 0 < settings.slotsPerShard →
        0 < settings.maxSlotSize →
        let given : PolicySettings :=
          ⟨settings.loadFactor, settings.slotsPerShard, settings.maxSlotSize⟩
        let call := fun st => (make given st).2
        ∃ m, built = (.ok m, call^[settings.shardCount] state) ∧ m.count = settings.shardCount ∧
          ∀ i : Fin m.count, Shard.make settings.slotsPerShard (make given (call^[i] state)).1 =
            .ok (m.shards.get i))) ∧
    ∀ m : Map S K V LoadPolicy, buildStock settings hash = .ok m →
      ∀ (A M R : Type) (locate : A → K → Fin m.count × UInt64) (memory : M)
        (program : Program A m.count K V LoadPolicy M R), program.Plain →
        (∃ r, (program.run locate (m.session memory)).1 = .ok r) ∧
        ∀ s ∈ program.passed locate (m.session memory), s.entered = [] → s.Moderate →
          s.Unfailing locate R := by
  constructor
  · intro P σ _ make state built
    refine ⟨fun e => ?_, ?_⟩
    · rw [build_eq_error_iff, and_iff_left rfl]
      exact settings.fault?_eq_some_iff e
    · intro hcount hmax hslots hsize given call
      exact exists_build (Settings.fault?_eq_none hcount hmax hslots hsize) hash make state
  · intro m hm A M R locate memory program hplain
    have hbuild := build_of_buildStock hm
    obtain ⟨-, hslots, hfresh⟩ := build_ok hbuild
    have hsound : ∀ i, ((m.session memory).shards.get i).Sound :=
      fun i => (fits_build hbuild i).sound
    refine ⟨hplain.run_ok ⟨rfl, hsound⟩, ?_⟩
    intro s hs hfree hmoderate
    have hready : s.Ready := ⟨hfree, ((Program.kept_sound locate).passed program hsound).1 s hs⟩
    refine hready.unfailing (fun i => ?_) hmoderate locate
    obtain ⟨_, hi⟩ := hfresh i
    exact Program.calmAt_passed ⟨_, _, hi⟩ memory locate program s hs

end Map

end ShardedMap
