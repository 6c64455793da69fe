import LineaSgxProver.Verifier.Solidity
import LineaSgxProver.Library.Occurrence

namespace LineaSgxProver.Verifier

open Library

/-- The library of strings. `none` is its `NOT_FOUND`. -/
class LibString where
  indexOf : Bytes → Bytes → Option ℕ
  slice : Bytes → ℕ → ℕ → Bytes
  split : Bytes → Bytes → List Bytes
  concat : Bytes → Bytes → Bytes
  eq : Bytes → Bytes → Bool
  toHexStringNoPrefix : Bytes → Bytes

/-- What its documentation says of it. -/
structure LibString.Documented [LibString] : Prop where
  indexOf_some : ∀ before word after : Bytes,
    (∀ before' after', before ++ word ++ after = before' ++ word ++ after' → before.length ≤ before'.length) →
    LibString.indexOf (before ++ word ++ after) word = some before.length
  indexOf_none : ∀ text word : Bytes, (∀ before after, text ≠ before ++ word ++ after) →
    LibString.indexOf text word = none
  slice_eq : ∀ (text : Bytes) (i j : ℕ), LibString.slice text i j = (text.drop i).take (j - i)
  split_eq : ∀ (text : Bytes) (d : UInt8), LibString.split text [d] = text.splitOn d
  concat_eq : ∀ a b : Bytes, LibString.concat a b = a ++ b
  eq_iff : ∀ a b : Bytes, LibString.eq a b = true ↔ a = b

namespace PEMCertChainLib

def dash : UInt8 := 0x2d

def newline : UInt8 := 0x0a

def beginCertificate : Bytes :=
  [0x42, 0x45, 0x47, 0x49, 0x4e, 0x20, 0x43, 0x45, 0x52, 0x54, 0x49, 0x46, 0x49, 0x43, 0x41, 0x54, 0x45]

def endCertificate : Bytes :=
  [0x45, 0x4e, 0x44, 0x20, 0x43, 0x45, 0x52, 0x54, 0x49, 0x46, 0x49, 0x43, 0x41, 0x54, 0x45]

/-- `-----BEGIN CERTIFICATE-----` -/
def header : Bytes := List.replicate 5 dash ++ beginCertificate ++ List.replicate 5 dash

/-- `-----END CERTIFICATE-----` -/
def footer : Bytes := List.replicate 5 dash ++ endCertificate ++ List.replicate 5 dash

def headerLength : ℕ := 27

def footerLength : ℕ := 25

section Split

variable [LibString]

def removeHeadersAndFooters (pemData : Bytes) : Option (Bytes × ℕ) := do
  let beginPos ← LibString.indexOf pemData header
  let endPos ← LibString.indexOf pemData footer
  let contentStart := beginPos + headerLength
  let contentSlice := LibString.slice pemData contentStart endPos
  let split := LibString.split contentSlice [newline]
  let contentStr := split.foldl LibString.concat []
  some (contentStr, endPos + footerLength)

def splitFrom (pemChain : Bytes) : ℕ → ℕ → ℕ → List Bytes → Bool × List Bytes
  | 0, _, _, certs => (true, certs)
  | passes + 1, i, index, certs =>
    let input := if 0 < i then LibString.slice pemChain index (index + pemChain.length) else pemChain
    match removeHeadersAndFooters input with
    | none => (false, certs)
    | some (cert, increment) => splitFrom pemChain passes (i + 1) (index + increment) (certs.set i cert)

def splitCertificateChain (pemChain : Bytes) (size : ℕ) : Checked (Bool × List Bytes) :=
  if size < 2 ^ 64 then .ok (splitFrom pemChain size 0 0 (List.replicate size []))
  else .error .outOfMemory

end Split

structure PemEntry where
  body : Bytes
  wrapped : Bytes
  after : Bytes

def PemEntry.bytes (e : PemEntry) : Bytes := header ++ e.wrapped ++ footer ++ e.after

def pemChain (before : Bytes) (entries : List PemEntry) : Bytes :=
  before ++ (entries.map PemEntry.bytes).flatten

section Occurrences

variable {text wrapped rest before after : Bytes}

end Occurrences

section Documented

variable [LibString] (hlib : LibString.Documented)

include hlib

end Documented

section Sample

def findWord (word : Bytes) : Bytes → Option ℕ
  | [] => if word = [] then some 0 else none
  | b :: text => if (b :: text).take word.length = word then some 0 else (findWord word text).map (· + 1)

def hexDigit (n : UInt8) : UInt8 := if n < 10 then 0x30 + n else 0x57 + n

abbrev plainLibString : LibString where
  indexOf text word := findWord word text
  slice text i j := (text.drop i).take (j - i)
  split text delimiter := (delimiter.head?.map text.splitOn).getD [text]
  concat a b := a ++ b
  eq a b := a == b
  toHexStringNoPrefix b := b.flatMap fun x => [hexDigit (x / 16), hexDigit (x % 16)]

end Sample

end PEMCertChainLib

end LineaSgxProver.Verifier
