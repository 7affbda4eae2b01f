import MrBoxington.Protocol.Digest

/-!
# Contents that match a digest

A digest promises a hash and a length. The hash functions come from libraries and
are a parameter here.
-/

namespace MrBoxington.Protocol

/-- The hash functions, with results in lowercase hexadecimal digits. -/
abbrev Hasher := DigestAlgorithm → Bytes → String

/-- The algorithm of a well-formed digest. -/
def Digest.validated (digest : Digest) : Except String DigestAlgorithm :=
  match DigestAlgorithm.parse digest.algorithm with
  | none => .error "unsupported remote cache digest algorithm"
  | some algorithm =>
    if isHash digest.hash then .ok algorithm else .error "invalid remote cache digest"

/-- Whether contents have the length and the hash of a digest. -/
def Digest.matchesBytes (hasher : Hasher) (digest : Digest) (bytes : Bytes) : Except String Bool :=
  digest.validated.map fun algorithm =>
    digest.size = bytes.length ∧ digest.hash = hasher algorithm bytes

end MrBoxington.Protocol
