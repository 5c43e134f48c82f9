import ShardedMap.Key
/-
  Hash functions on keys. Texts are hashed by FNV-1a over their UTF-8 bytes; numbers stand for
  themselves or are spread by a multiplication. Some functions lose information on purpose, so that
  keys collide.
-/
namespace ShardedMap

/-- FNV-1a in 64 bits: each byte is combined by exclusive or, then the hash is multiplied. -/
def fnv1a (s : String) : UInt64 :=
  s.toUTF8.foldl (fun h byte => (h ^^^ byte.toUInt64) * 0x100000001b3) 0xcbf29ce484222325

/-- How keys are hashed. -/
inductive Hasher where
  /-- Numbers stand for themselves. -/
  | identity
  /-- Every key has this hash. -/
  | const (hash : UInt64)
  /-- `identity`, restricted to the bits of a mask. -/
  | mask (bits : UInt64)
  /-- Numbers are multiplied, so that small ones differ in their upper bits. -/
  | mix
  /-- Numbers stand for themselves, and texts that differ in ASCII case have one hash. -/
  | fold
deriving DecidableEq

namespace Hasher

variable {caseless : Bool}

def plain : Key caseless → UInt64
  | .text s => fnv1a s
  | .number n => n

def hash (h : Hasher) (key : Key caseless) : UInt64 :=
  match h, key with
  | identity, key => plain key
  | const value, _ => value
  | mask bits, key => plain key &&& bits
  | mix, .number n => n * 0x9e3779b97f4a7c15
  | mix, .text s => fnv1a s
  | fold, .number n => n
  | fold, .text s => fnv1a s.toLower

end Hasher

end ShardedMap
