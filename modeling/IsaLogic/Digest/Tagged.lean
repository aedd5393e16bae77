import IsaLogic.Digest.Sha256

/-!
# Tagged digests

A digest of a tag and a list of parts. Every part is preceded by its length in
eight bytes, least significant first, so two lists of parts never run together.
The hash function is a parameter; `tagged` is the one with SHA-256.
-/

namespace IsaLogic.Digest

/-- The bytes of a text in UTF-8. -/
def textBytes (text : String) : Bytes := text.toUTF8.toList

/-- A length in eight bytes, least significant first. -/
def lengthBytes (n : Nat) : Bytes :=
  (List.range 8).map fun i => UInt8.ofNat (n / Nat.pow 256 i)

/-- The message that stands for a tag and parts. -/
def message (tag : String) (parts : List Bytes) : Bytes :=
  textBytes tag ++ parts.flatMap fun part => lengthBytes part.length ++ part

/-- The digest of a tag and parts under a hash function. -/
def taggedWith (hash : Bytes → Bytes) (tag : String) (parts : List Bytes) : Bytes :=
  hash (message tag parts)

/-- The SHA-256 digest of a tag and parts. -/
def tagged (tag : String) (parts : List Bytes) : Bytes :=
  taggedWith Sha256.digest tag parts

/-- Bytes in lower-case hexadecimal. -/
def hex (bytes : Bytes) : String :=
  String.ofList (bytes.flatMap fun byte =>
    [Nat.digitChar (byte.toNat / 16), Nat.digitChar (byte.toNat % 16)])

end IsaLogic.Digest
