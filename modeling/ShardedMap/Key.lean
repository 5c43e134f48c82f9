/-
  Keys that are texts or numbers. A text never equals a number. With `caseless`, texts that differ
  only in the case of ASCII letters are equal; equality is an equivalence in both forms.
-/
namespace ShardedMap

/-- A text or a number; `caseless` chooses how texts are compared. -/
inductive Key (caseless : Bool) where
  | text (s : String)
  | number (n : UInt64)

namespace Key

variable {caseless : Bool}

/-- The text by which a text is compared. -/
def foldText (caseless : Bool) (s : String) : String := if caseless then s.toLower else s

/-- What a key is compared by. -/
def norm : Key caseless → String ⊕ UInt64
  | text s => .inl (foldText caseless s)
  | number n => .inr n

instance : BEq (Key caseless) where
  beq
    | text a, text b => foldText caseless a == foldText caseless b
    | number a, number b => a == b
    | _, _ => false

theorem beq_iff {a b : Key caseless} : (a == b) = true ↔ a.norm = b.norm := by
  cases a <;> cases b <;> simp [norm, BEq.beq]

instance : EquivBEq (Key caseless) where
  rfl := beq_iff.2 rfl
  symm h := beq_iff.2 (beq_iff.1 h).symm
  trans h h' := beq_iff.2 ((beq_iff.1 h).trans (beq_iff.1 h'))

/-- Numbers ascending, then texts by their code points. -/
def le : Key caseless → Key caseless → Bool
  | number a, number b => a ≤ b
  | number _, text _ => true
  | text _, number _ => false
  | text a, text b => !decide (b < a)

end Key

end ShardedMap
