import LayeredPlanning.Canonical.Sha256

/-!
# Content hashes

A content hash names its algorithm: `sha256:` and the digest in hexadecimal.  Data of different
kinds are hashed under different domains, each ending in a zero byte, so that one kind is never
taken for another.
-/

namespace LayeredPlanning

/-- A digest with the name of its algorithm. -/
@[ext]
structure ContentHash where
  /-- The name of the algorithm. -/
  algorithm : String
  /-- The digest, in hexadecimal. -/
  hexDigest : String
deriving DecidableEq

/-- The two hexadecimal digits of a byte, in lower case. -/
def hexByte (b : UInt8) : List Char := [Nat.digitChar (b.toNat / 16), Nat.digitChar (b.toNat % 16)]

namespace ContentHash

/-- The text of a hash: algorithm, colon, digest. -/
def text (h : ContentHash) : String := h.algorithm ++ ":" ++ h.hexDigest

/-- The hash with the given text: the first colon ends the algorithm, and neither part is empty. -/
def parse? (s : String) : Option ContentHash :=
  let algorithm := s.toList.takeWhile (· ≠ ':')
  match s.toList.dropWhile (· ≠ ':') with
  | _ :: c :: rest =>
    if algorithm.isEmpty then none
    else some ⟨String.ofList algorithm, String.ofList (c :: rest)⟩
  | _ => none

/-- The hash of data under a domain. -/
def ofBytes (domain data : List UInt8) : ContentHash :=
  ⟨"sha256", String.ofList ((Sha256.hash (domain ++ data)).flatMap hexByte)⟩

/-- The bytes of a text. -/
def textBytes (s : String) : List UInt8 := s.toUTF8.data.toList

/-- The domain of plans. -/
def planDomain : List UInt8 := textBytes "TANDEM::PLAN::V1\x00"

/-- The domain of reconstruction reports. -/
def reportDomain : List UInt8 := textBytes "TANDEM::RECONSTRUCTION_REPORT::V1\x00"

end ContentHash

end LayeredPlanning
