import Mathlib.Data.Int.CardIntervalMod
import Mathlib.Data.Set.Card
import ShardedMap.Map.Basic
/-
  How hashes spread over shards and slots. The hashes with one upper half are numbers in a row, as
  many as there are lower halves, and all of them go to one shard (`route_of_mem_withUpper`).
  Numbers in a row leave every remainder equally often, or once more (`count_add_mod`), so these
  hashes fill the slots of their shard evenly (`ncard_withUpper_home`). Nothing is asked of shard
  count and slot count together, as the two choices do not go by the same bits (`hashes_spread`).
-/
namespace ShardedMap

/-! ## Numbers in a row -/

theorem add_sub_one_div {n d : Nat} (hd : 0 < d) (h : 0 < n % d) :
    (n + d - 1) / d = n / d + 1 := by
  have hn : d * (n / d) + n % d = n := Nat.div_add_mod n d
  have hlt : n % d - 1 < d := by
    have hmod := Nat.mod_lt n hd
    omega
  calc (n + d - 1) / d = (n % d - 1 + d * (n / d + 1)) / d := by
        congr 1
        rw [Nat.mul_succ]
        omega
    _ = (n % d - 1) / d + (n / d + 1) := Nat.add_mul_div_left _ _ hd
    _ = n / d + 1 := by rw [Nat.div_eq_of_lt hlt, Nat.zero_add]

/-- Among `n` numbers in a row, those that leave one remainder are as many as those that leave
another, or one more. -/
theorem count_add_mod (first n : Nat) {d j : Nat} (hj : j < d) :
    n.count (fun k => (first + k) % d = j) = n / d ∨
      n.count (fun k => (first + k) % d = j) = (n + d - 1) / d := by
  have hd : 0 < d := Nat.zero_lt_of_lt hj
  have hself : j % d = j := Nat.mod_eq_of_lt hj
  -- Some number of steps leads from the first to a number that leaves `j`.
  have hfirst : (first + (j + (d - 1) * first)) % d = j := by
    have hsum : first + (j + (d - 1) * first) = j + d * first := by
      obtain ⟨e, rfl⟩ : ∃ e, d = e + 1 := ⟨d - 1, by omega⟩
      rw [Nat.add_sub_cancel]
      ring
    rw [hsum, Nat.add_mul_mod_self_left, hself]
  have hsteps : ∀ k, (first + k) % d = j ↔ k ≡ j + (d - 1) * first [MOD d] := by
    intro k
    constructor
    · intro hk
      exact Nat.ModEq.add_left_cancel' first (hk.trans hfirst.symm)
    · intro hk
      exact Eq.trans (hk.add_left first) hfirst
  simp only [hsteps]
  rw [Nat.count_modEq_card n hd]
  split
  · rename_i hlt
    right
    rw [add_sub_one_div hd (Nat.zero_lt_of_lt hlt)]
  · exact .inl (Nat.add_zero _)

/-! ## Hashes with one upper half -/

/-- The hashes with this upper half. -/
def withUpper (upper : Nat) : Set UInt64 := {hash | (hash >>> 32).toNat = upper}

/-- The hash with these halves. -/
def ofHalves (upper lower : Nat) : UInt64 := .ofNat (upper * 2 ^ 32 + lower)

variable {upper lower : Nat}

theorem toNat_ofHalves (hupper : upper < 2 ^ 32) (hlower : lower < 2 ^ 32) :
    (ofHalves upper lower).toNat = upper * 2 ^ 32 + lower := by
  apply UInt64.toNat_ofNat_of_lt'
  rw [UInt64.size]
  omega

theorem mem_withUpper {hash : UInt64} : hash ∈ withUpper upper ↔ hash.toNat / 2 ^ 32 = upper := by
  have hshift : (hash >>> 32).toNat = hash.toNat / 2 ^ 32 := by
    rw [UInt64.toNat_shiftRight, Nat.shiftRight_eq_div_pow]
    rfl
  rw [← hshift]
  rfl

theorem ofHalves_mem_withUpper (hupper : upper < 2 ^ 32) (hlower : lower < 2 ^ 32) :
    ofHalves upper lower ∈ withUpper upper := by
  rw [mem_withUpper, toNat_ofHalves hupper hlower]
  omega

theorem ofHalves_toNat_mod {hash : UInt64} (h : hash ∈ withUpper upper) :
    ofHalves upper (hash.toNat % 2 ^ 32) = hash := by
  rw [mem_withUpper] at h
  have hsum : upper * 2 ^ 32 + hash.toNat % 2 ^ 32 = hash.toNat := by omega
  rw [ofHalves, hsum, UInt64.ofNat_toNat]

/-- To count hashes with one upper half is to count numbers in a row. -/
theorem ncard_withUpper (hupper : upper < 2 ^ 32) (p : Nat → Prop) [DecidablePred p] :
    {hash ∈ withUpper upper | p hash.toNat}.ncard =
      (2 ^ 32).count fun lower => p (upper * 2 ^ 32 + lower) := by
  let lowers := (Finset.range (2 ^ 32)).filter fun lower => p (upper * 2 ^ 32 + lower)
  have himage : {hash ∈ withUpper upper | p hash.toNat} = ofHalves upper '' lowers := by
    ext hash
    constructor
    · rintro ⟨hmem, hp⟩
      have hjoin := ofHalves_toNat_mod hmem
      have hlower : hash.toNat % 2 ^ 32 < 2 ^ 32 := Nat.mod_lt _ (by decide)
      refine ⟨hash.toNat % 2 ^ 32, ?_, hjoin⟩
      rw [Finset.mem_coe, Finset.mem_filter, Finset.mem_range, ← toNat_ofHalves hupper hlower,
        hjoin]
      exact ⟨hlower, hp⟩
    · rintro ⟨lower, hmem, rfl⟩
      rw [Finset.mem_coe, Finset.mem_filter, Finset.mem_range] at hmem
      refine ⟨ofHalves_mem_withUpper hupper hmem.1, ?_⟩
      show p (ofHalves upper lower).toNat
      rw [toNat_ofHalves hupper hmem.1]
      exact hmem.2
  have hinj : Set.InjOn (ofHalves upper) lowers := by
    intro a ha b hb hab
    rw [Finset.mem_coe, Finset.mem_filter, Finset.mem_range] at ha hb
    have hnat := congrArg UInt64.toNat hab
    rw [toNat_ofHalves hupper ha.1, toNat_ofHalves hupper hb.1] at hnat
    exact Nat.add_left_cancel hnat
  rw [himage, hinj.ncard_image, Set.ncard_coe_finset, Nat.count_eq_card_filter_range]

theorem ncard_withUpper_all (hupper : upper < 2 ^ 32) : (withUpper upper).ncard = 2 ^ 32 := by
  have hall := ncard_withUpper hupper fun _ => True
  rw [Nat.count_true] at hall
  rw [← hall]
  congr 1
  ext hash
  exact (and_iff_left trivial).symm

/-- The hashes with one upper half fill the slots of a shard evenly. -/
theorem ncard_withUpper_home (hupper : upper < 2 ^ 32) {slotCount j : Nat} (hj : j < slotCount) :
    let load := {hash ∈ withUpper upper | Slots.home hash slotCount = j}.ncard
    load = 2 ^ 32 / slotCount ∨ load = (2 ^ 32 + slotCount - 1) / slotCount := by
  intro load
  have hload : load = (2 ^ 32).count fun lower => (upper * 2 ^ 32 + lower) % slotCount = j :=
    ncard_withUpper hupper fun hash => hash % slotCount = j
  rw [hload]
  exact count_add_mod _ _ hj

namespace Map

theorem route_of_mem_withUpper {count : Nat} (hcount : 0 < count) {i : Fin count}
    (hi : upper % count = i) {hash : UInt64} (h : hash ∈ withUpper upper) :
    route hcount hash = i := by
  apply Fin.ext
  show (hash >>> 32).toNat % count = i
  rw [show (hash >>> 32).toNat = upper from h, hi]

/-- Any number of shards that a map may have, and any number of slots up to the number of lower
halves, whatever factors the two share. The hashes with one upper half go to one shard, all of them,
and each slot of it gets as many of them as it would in an even division, rounded down or up. So in
every shard there is no slot that no hash goes to. -/
theorem hashes_spread {count : Nat} (hcount : 0 < count) (hmax : count ≤ Settings.maxShardCount)
    (i : Fin count) {slotCount j : Nat} (hslots : slotCount ≤ 2 ^ 32) (hj : j < slotCount) :
    (∀ upper, upper < 2 ^ 32 → upper % count = i →
      (withUpper upper).ncard = 2 ^ 32 ∧ (∀ hash ∈ withUpper upper, route hcount hash = i) ∧
      let load := {hash ∈ withUpper upper | Slots.home hash slotCount = j}.ncard
      load = 2 ^ 32 / slotCount ∨ load = (2 ^ 32 + slotCount - 1) / slotCount) ∧
    ∃ hash, route hcount hash = i ∧ Slots.home hash slotCount = j := by
  constructor
  · intro upper hupper hi
    exact ⟨ncard_withUpper_all hupper, fun hash => route_of_mem_withUpper hcount hi,
      ncard_withUpper_home hupper hj⟩
  · have hupper : i.val < 2 ^ 32 := by
      have hlt := i.isLt
      have hbound : Settings.maxShardCount < 2 ^ 32 := by decide
      omega
    have hi : i.val % count = i := Nat.mod_eq_of_lt i.isLt
    have hslot : 0 < slotCount := Nat.zero_lt_of_lt hj
    have hdown : 0 < 2 ^ 32 / slotCount := Nat.div_pos hslots hslot
    have hup : 0 < (2 ^ 32 + slotCount - 1) / slotCount := Nat.div_pos (by omega) hslot
    have hload : {hash ∈ withUpper i.val | Slots.home hash slotCount = j}.ncard ≠ 0 := by
      rcases ncard_withUpper_home hupper hj with h | h
      · omega
      · omega
    obtain ⟨hash, hmem, hhome⟩ := Set.nonempty_of_ncard_ne_zero hload
    exact ⟨hash, route_of_mem_withUpper hcount hi hmem, hhome⟩

/-- Six shards of six slots each. The upper half 11 belongs to shard 5, and slot 3 gets a sixth of
its hashes. -/
theorem hashes_spread_six :
    let hcount : 0 < 6 := by decide
    let i : Fin 6 := 5
    let load := {hash ∈ withUpper 11 | Slots.home hash 6 = 3}.ncard
    6 ≤ Settings.maxShardCount ∧ 6 ≤ 2 ^ 32 ∧ 3 < 6 ∧ 11 < 2 ^ 32 ∧ 11 % 6 = i.val ∧
      (withUpper 11).ncard = 4294967296 ∧ (∀ hash ∈ withUpper 11, route hcount hash = i) ∧
      (load = 715827882 ∨ load = 715827883) ∧
      ∃ hash, route hcount hash = i ∧ Slots.home hash 6 = 3 := by
  intro hcount i load
  have hmax : 6 ≤ Settings.maxShardCount := by decide
  have hslots : 6 ≤ 2 ^ 32 := by decide
  have hj : 3 < 6 := by decide
  have hupper : 11 < 2 ^ 32 := by decide
  have hi : 11 % 6 = i.val := by decide
  obtain ⟨hspread, hreached⟩ := hashes_spread hcount hmax i hslots hj
  obtain ⟨hall, hroute, hload⟩ := hspread 11 hupper hi
  exact ⟨hmax, hslots, hj, hupper, hi, hall, hroute, hload, hreached⟩

end Map

end ShardedMap
