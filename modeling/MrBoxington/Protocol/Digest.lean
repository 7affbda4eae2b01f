import Mathlib.Data.Nat.Notation
import Mathlib.Tactic.Common

/-!
# Digests

A digest names a cache object by algorithm, hash and length. Digests are ordered
field by field, which is the order of the maps that they key.
-/

namespace MrBoxington.Protocol

/-- The contents of a file or of an object. -/
abbrev Bytes := List UInt8

/-- The bytes of an ASCII text. -/
def asciiBytes (text : String) : Bytes := text.toList.map fun c => UInt8.ofNat c.toNat

/-- The algorithm, hash and length of a cache object. -/
structure Digest where
  algorithm : String
  hash : String
  size : ℕ
deriving DecidableEq, Repr

namespace Digest

/-- Algorithm first, then hash, then length. -/
instance : Ord Digest where
  compare := compareLex (compareOn algorithm) (compareLex (compareOn hash) (compareOn size))

instance : Std.TransOrd Digest :=
  inferInstanceAs (Std.TransCmp
    (compareLex (compareOn algorithm) (compareLex (compareOn hash) (compareOn size))))

instance : Std.LawfulEqOrd Digest where
  eq_of_compare {left right} heq := by
    obtain ⟨halgorithm, hrest⟩ := Ordering.then_eq_eq.mp heq
    obtain ⟨hhash, hsize⟩ := Ordering.then_eq_eq.mp hrest
    cases left
    cases right
    rw [mk.injEq]
    exact ⟨Std.LawfulEqOrd.eq_of_compare halgorithm, Std.LawfulEqOrd.eq_of_compare hhash,
      Std.LawfulEqOrd.eq_of_compare hsize⟩

end Digest

/-- The hash algorithms of protocol version one. -/
inductive DigestAlgorithm where
  | blake3
  | sha256
deriving DecidableEq

/-- The name on the wire. -/
def DigestAlgorithm.asStr : DigestAlgorithm → String
  | blake3 => "blake3"
  | sha256 => "sha256"

/-- The algorithm with a name. -/
def DigestAlgorithm.parse (name : String) : Option DigestAlgorithm :=
  if name = asStr .blake3 then some .blake3
  else if name = asStr .sha256 then some .sha256
  else none

/-- A lowercase hexadecimal digit. -/
def isHexDigit (c : Char) : Bool := ('0' ≤ c ∧ c ≤ '9') ∨ ('a' ≤ c ∧ c ≤ 'f')

/-- A text of 64 lowercase hexadecimal digits. -/
def isHash (text : String) : Bool := text.utf8ByteSize = 64 ∧ text.toList.all isHexDigit

/-- A known algorithm and a well-formed hash. -/
def Digest.validate (digest : Digest) : Bool :=
  (DigestAlgorithm.parse digest.algorithm).isSome ∧ isHash digest.hash

end MrBoxington.Protocol
