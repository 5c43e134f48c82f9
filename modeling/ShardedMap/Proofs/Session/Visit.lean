import ShardedMap.Session
import ShardedMap.Proofs.Slots.Contents
/-
  Visits. A visit walks from place to place and looks again at the shard before each entry. As long
  as the calls that it makes leave the shard as it is, that comes to handing over the entries that
  the shard held in the beginning, one after another (`visitSlots_eq`).
-/
namespace ShardedMap

variable {S : Type → Type} {H : Type} [DecidableEq H] [Storage S H] [LawfulStorage S H]

namespace Session

variable {n : Nat} {K V P M R : Type}
variable {visit : K → V → Session n S K V P M → Except Panic R × Session n S K V P M}
variable {I : Session n S K V P M → Prop}

theorem visitChain_keeps (hvisit : ∀ key value s, I s → I (visit key value s).2) (i : Fin n)
    (j fuel : Nat) (place : Chain.Place H) {s : Session n S K V P M} (hs : I s) :
    I (visitChain i j visit fuel place s).2 := by
  induction fuel generalizing place s with
  | zero => exact hs
  | succ fuel ih =>
    unfold visitChain
    split
    · exact hs
    · rename_i e _
      have hone := hvisit e.key e.value s hs
      simp only
      split <;> rename_i h <;> rw [h] at hone
      · exact hone
      · exact ih _ hone

theorem visitSlots_keeps (hvisit : ∀ key value s, I s → I (visit key value s).2) (i : Fin n)
    (count j : Nat) {s : Session n S K V P M} (hs : I s) :
    I (visitSlots i visit count j s).2 := by
  induction count generalizing j s with
  | zero => exact hs
  | succ count ih =>
    have hone := visitChain_keeps hvisit i j (s.chainAt i j).size (s.chainAt i j).first hs
    unfold visitSlots
    split <;> rename_i h <;> rw [h] at hone
    · exact hone
    · exact ih _ hone

theorem holds_visitSlots (hvisit : ∀ key value s, (visit key value s).2.holds = s.holds)
    (i : Fin n) (count j : Nat) (s : Session n S K V P M) :
    (visitSlots i visit count j s).2.holds = s.holds := by
  apply visitSlots_keeps (I := fun t => t.holds = s.holds)
  · intro key value t ht
    exact (hvisit key value t).trans ht
  · rfl

/-! ## Entries handed over -/

/-- Hands entries over one after another, up to the first panic. -/
def handEach (visit : K → V → Session n S K V P M → Except Panic R × Session n S K V P M) :
    List (Entry K V) → Session n S K V P M → Except Panic Unit × Session n S K V P M
  | [], s => (.ok (), s)
  | e :: rest, s =>
    match visit e.key e.value s with
    | (.error p, s) => (.error p, s)
    | (.ok _, s) => handEach visit rest s

theorem handEach_append (l r : List (Entry K V)) (s : Session n S K V P M) :
    handEach visit (l ++ r) s =
      match handEach visit l s with
      | (.error p, s) => (.error p, s)
      | (.ok (), s) => handEach visit r s := by
  induction l generalizing s with
  | nil => rfl
  | cons e rest ih =>
    rw [List.cons_append, handEach, handEach]
    rcases visit e.key e.value s with ⟨result, t⟩
    cases result with
    | error p => rfl
    | ok _ => exact ih t

theorem handEach_keeps (hvisit : ∀ key value s, I s → I (visit key value s).2)
    (es : List (Entry K V)) {s : Session n S K V P M} (hs : I s) : I (handEach visit es s).2 := by
  induction es generalizing s with
  | nil => exact hs
  | cons e rest ih =>
    have hone := hvisit e.key e.value s hs
    unfold handEach
    split <;> rename_i h <;> rw [h] at hone
    · exact hone
    · exact ih hone

theorem holds_handEach (hvisit : ∀ key value s, (visit key value s).2.holds = s.holds)
    (es : List (Entry K V)) (s : Session n S K V P M) :
    (handEach visit es s).2.holds = s.holds := by
  apply handEach_keeps (I := fun t => t.holds = s.holds)
  · intro key value t ht
    exact (hvisit key value t).trans ht
  · rfl

/-- A chain that no call changes is handed over from the place where the visit begins. -/
theorem visitChain_eq {i : Fin n} {j : Nat} {c : Chain S K V}
    (hchain : ∀ t, I t → t.chainAt i j = c)
    (hvisit : ∀ key value t, I t → I (visit key value t).2) (fuel : Nat) (place : Chain.Place H)
    {s : Session n S K V P M} (hs : I s) :
    visitChain i j visit fuel place s = handEach visit (c.links.walkFrom fuel place) s := by
  induction fuel generalizing place s with
  | zero => rfl
  | succ fuel ih =>
    have hentry : (s.chainAt i j).entryAt place = c.links.entryAt place := by
      rw [hchain s hs]
      rfl
    have hafter : (s.chainAt i j).after place = c.links.after place := by
      rw [hchain s hs]
      rfl
    unfold visitChain Links.walkFrom
    rw [hentry, hafter]
    cases c.links.entryAt place with
    | none => rfl
    | some e =>
      have hone := hvisit e.key e.value s hs
      simp only [handEach]
      rcases hv : visit e.key e.value s with ⟨result, t⟩
      rw [hv] at hone
      cases result with
      | error p => rfl
      | ok _ => exact ih _ hone

/-- Slots that no call changes are handed over in order, each in chain order. -/
theorem visitSlots_eq {i : Fin n} {slots : Slots S K V}
    (hslots : ∀ t, I t → (t.shards.get i).slots = slots)
    (hvisit : ∀ key value t, I t → I (visit key value t).2) {count j : Nat}
    (hcount : j + count = slots.size) {s : Session n S K V P M} (hs : I s) :
    visitSlots i visit count j s =
      handEach visit ((slots.toList.drop j).flatMap Chain.toList) s := by
  induction count generalizing j s with
  | zero =>
    have hdrop : slots.toList.drop j = [] := by
      rw [List.drop_eq_nil_iff, Array.length_toList]
      omega
    rw [hdrop]
    rfl
  | succ count ih =>
    have hj : j < slots.toList.length := by
      rw [Array.length_toList]
      omega
    have hchain : ∀ t, I t → t.chainAt i j = slots.chainAt j := by
      intro t ht
      unfold Session.chainAt
      rw [hslots t ht]
    have hwalk : (slots.chainAt j).links.walkFrom (slots.chainAt j).size (slots.chainAt j).first =
        (slots.chainAt j).toList := (slots.chainAt j).linked.walk
    have hdrop : slots.toList.drop j = slots.chainAt j :: slots.toList.drop (j + 1) := by
      rw [List.drop_eq_getElem_cons hj, Array.getElem_toList, ← Slots.chainAt_of_lt hj]
    unfold visitSlots
    have hone := visitChain_keeps hvisit i j (slots.chainAt j).size (slots.chainAt j).first hs
    rw [hdrop, List.flatMap_cons, handEach_append]
    rw [visitChain_eq hchain hvisit _ _ hs, hwalk] at hone
    rw [hchain s hs, visitChain_eq hchain hvisit _ _ hs, hwalk]
    rcases hh : handEach visit (slots.chainAt j).toList s with ⟨result, t⟩
    rw [hh] at hone
    cases result with
    | error p => rfl
    | ok _ => exact ih (by omega) hone

end Session

end ShardedMap
