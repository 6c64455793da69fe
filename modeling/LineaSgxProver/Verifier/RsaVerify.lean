import LineaSgxProver.Library.Pkcs1
import LineaSgxProver.Verifier.Asn1Decode
import LineaSgxProver.Verifier.SHA1Digest

namespace LineaSgxProver.Verifier

open Library Der Pkcs1

/-- The precompile at address 5; none for a call that fails. -/
class ModExp where
  modexp : Bytes → Option Bytes

namespace RsaVerify

def sha256ExplicitNullParam : Bytes :=
  [0x30, 0x31, 0x30, 0x0d, 0x06, 0x09, 0x60, 0x86, 0x48, 0x01, 0x65, 0x03, 0x04, 0x02, 0x01, 0x05, 0x00]

def sha256ImplicitNullParam : Bytes :=
  [0x30, 0x2f, 0x30, 0x0b, 0x06, 0x09, 0x60, 0x86, 0x48, 0x01, 0x65, 0x03, 0x04, 0x02, 0x01]

def sha1Prefix : Bytes := [0x30, 0x21, 0x30, 0x09, 0x06, 0x05, 0x2b, 0x0e, 0x03, 0x02, 0x1a, 0x05, 0x00, 0x04, 0x14]

/-- A loop over bytes that returns at the first one that is not as expected. -/
def compareFrom (b : Bytes) : ℕ → Bytes → Checked Bool
  | _, [] => .ok true
  | i, x :: expected => do
    let y ← index b i
    if y ≠ x then .ok false else compareFrom b (i + 1) expected

/-- The checks of a decipher, each from where the one before it ends. -/
def compareParts (b : Bytes) : ℕ → List Bytes → Checked Bool
  | _, [] => .ok true
  | i, part :: parts => do
    if ← compareFrom b i part then compareParts b (i + part.length) parts else .ok false

section ModExp

variable [ModExp]

def input (s e m : Bytes) : Bytes :=
  BigEndian.encode 32 s.length ++ BigEndian.encode 32 e.length ++ BigEndian.encode 32 m.length ++ s ++ e ++ m

/-- The zeros of a new array where the precompile writes nothing over them. -/
def decipher (s e m : Bytes) : Bytes :=
  (((ModExp.modexp (input s e m)).getD []) ++ List.replicate m.length 0).take m.length

def digestAlgoWithParam (decipher : Bytes) : Checked (Option Bytes) := do
  let first ← checkedSub decipher.length 50
  if (← index decipher first) = 0x31 then .ok (some sha256ExplicitNullParam)
  else do
    let first ← checkedSub decipher.length 48
    if (← index decipher first) = 0x2f then .ok (some sha256ImplicitNullParam) else .ok none

def pkcs1Sha256 (sha256 : SH256) (s e m : Bytes) : Checked Bool := do
  let decipher := decipher s e m
  match ← digestAlgoWithParam decipher with
  | none => .ok false
  | some digestAlgo => do
    let paddingLen ← checkedSub decipher.length 5
    let paddingLen ← checkedSub paddingLen digestAlgo.length
    let paddingLen ← checkedSub paddingLen 32
    compareParts decipher 0
      [[0x00, 0x01], List.replicate paddingLen 0xff, [0x00], digestAlgo, [0x04, 0x20], sha256.bytes]

def pkcs1Sha256Raw [Precompiles] (data s e m : Bytes) : Checked Bool :=
  pkcs1Sha256 (Precompiles.sha256 data) s e m

def pkcs1Sha1 (sha1 : BitVec 160) (s e m : Bytes) : Checked Bool := do
  let decipher := decipher s e m
  let paddingLen ← checkedSub decipher.length 3
  let paddingLen ← checkedSub paddingLen sha1Prefix.length
  let paddingLen ← checkedSub paddingLen 20
  compareParts decipher 0
    [[0x00, 0x01], List.replicate paddingLen 0xff, [0x00], sha1Prefix, BigEndian.encode 20 sha1.toNat]

end ModExp

section Compare

variable {b expected : Bytes} {i : ℕ}

theorem compareFrom_total (h : i + expected.length ≤ b.length) : ∃ r, compareFrom b i expected = .ok r := by
  induction expected generalizing i with
  | nil => exact ⟨true, rfl⟩
  | cons x expected ih =>
    rw [List.length_cons] at h
    have hindex : index b i = .ok (b.get ⟨i, by omega⟩) :=
      index_eq_ok.mpr (List.getElem?_eq_getElem (by omega))
    rw [compareFrom, hindex, ok_bind]
    split_ifs
    · exact ⟨false, rfl⟩
    · exact ih (by omega)

theorem compareFrom_iff : compareFrom b i expected = .ok true ↔ Holds b i expected := by
  induction expected generalizing i with
  | nil => exact iff_of_true rfl (Holds.nil b i)
  | cons x expected ih =>
    rw [compareFrom]
    constructor
    · intro h
      obtain ⟨y, hy, h⟩ := bind_eq_ok.mp h
      split_ifs at h with hxy
      · cases h
      · rw [not_not] at hxy
        rw [index_eq_ok, hxy] at hy
        obtain ⟨rest, hrest⟩ := ih.mp h
        exact ⟨rest, by rw [List.drop_eq_getElem?_toList_append, hy, hrest]; rfl⟩
    · intro h
      rw [index_eq_ok.mpr h.getElem?, ok_bind, if_neg (by simp)]
      exact ih.mpr h.tail

theorem compareParts_total {parts : List Bytes} (h : i + parts.flatten.length ≤ b.length) :
    ∃ r, compareParts b i parts = .ok r := by
  induction parts generalizing i with
  | nil => exact ⟨true, rfl⟩
  | cons part parts ih =>
    rw [List.flatten_cons, List.length_append] at h
    obtain ⟨r, hr⟩ : ∃ r, compareFrom b i part = .ok r := compareFrom_total (by omega)
    rw [compareParts, hr, ok_bind]
    cases r with
    | false => exact ⟨false, rfl⟩
    | true => exact ih (by omega)

theorem compareParts_iff {parts : List Bytes} : compareParts b i parts = .ok true ↔ Holds b i parts.flatten := by
  induction parts generalizing i with
  | nil => exact iff_of_true rfl (Holds.nil b i)
  | cons part parts ih =>
    rw [compareParts, List.flatten_cons, Holds.append_iff, ← ih, ← compareFrom_iff]
    constructor
    · intro h
      obtain ⟨r, hr, h⟩ := bind_eq_ok.mp h
      cases r with
      | false => cases h
      | true => exact ⟨hr, h⟩
    · rintro ⟨hpart, hparts⟩
      rw [hpart, ok_bind]
      exact hparts

/-- When the parts have the length of the array they are all of it. -/
theorem compareParts_all {parts : List Bytes} (h : parts.flatten.length = b.length) :
    compareParts b 0 parts = .ok true ↔ b = parts.flatten := by
  rw [compareParts_iff]
  constructor
  · intro hholds
    have hall := hholds.section_eq
    rwa [List.drop_zero, h, List.take_length] at hall
  · rintro rfl
    exact Holds.self _

end Compare

section Encoding

def sha256Oid : Bytes := [0x60, 0x86, 0x48, 0x01, 0x65, 0x03, 0x04, 0x02, 0x01]

def sha1Oid : Bytes := [0x2b, 0x0e, 0x03, 0x02, 0x1a]

def parts (k : ℕ) (digestAlgo digest : Bytes) : List Bytes :=
  [[0x00, 0x01], List.replicate k 0xff, [0x00], digestAlgo, [0x04, 0x20], digest]

theorem explicit_bytes {digest : Bytes} (h : digest.length = 32) :
    (digestInfo sha256Oid [null] digest).bytes = sha256ExplicitNullParam ++ 0x04 :: 0x20 :: digest := by
  simp [digestInfo, sequenceOf, node, Tlv.bytes, lengthOctets, h, null, sha256Oid, sha256ExplicitNullParam]

theorem implicit_bytes {digest : Bytes} (h : digest.length = 32) :
    (digestInfo sha256Oid [] digest).bytes = sha256ImplicitNullParam ++ 0x04 :: 0x20 :: digest := by
  simp [digestInfo, sequenceOf, node, Tlv.bytes, lengthOctets, h, sha256Oid, sha256ImplicitNullParam]

theorem sha1_bytes {digest : Bytes} (h : digest.length = 20) :
    (digestInfo sha1Oid [null] digest).bytes = sha1Prefix ++ digest := by
  simp [digestInfo, sequenceOf, node, Tlv.bytes, lengthOctets, h, null, sha1Oid, sha1Prefix]

theorem explicit_parts {digest : Bytes} (h : digest.length = 32) (k : ℕ) :
    (parts k sha256ExplicitNullParam digest).flatten = encoding k (digestInfo sha256Oid [null] digest) := by
  rw [encoding, explicit_bytes h]
  simp [parts]

theorem implicit_parts {digest : Bytes} (h : digest.length = 32) (k : ℕ) :
    (parts k sha256ImplicitNullParam digest).flatten = encoding k (digestInfo sha256Oid [] digest) := by
  rw [encoding, implicit_bytes h]
  simp [parts]

theorem sha1_parts {digest : Bytes} (h : digest.length = 20) (k : ℕ) :
    [[0x00, 0x01], List.replicate k 0xff, [0x00], sha1Prefix, digest].flatten =
      encoding k (digestInfo sha1Oid [null] digest) := by
  rw [encoding, sha1_bytes h]
  simp

theorem sha1_parts_length (k : ℕ) {digest : Bytes} (h : digest.length = 20) :
    [[0x00, 0x01], List.replicate k 0xff, [0x00], sha1Prefix, digest].flatten.length = k + 38 := by
  simp [h, sha1Prefix]

theorem parts_length {digest : Bytes} (h : digest.length = 32) (k : ℕ) (digestAlgo : Bytes) :
    (parts k digestAlgo digest).flatten.length = k + digestAlgo.length + 37 := by
  simp [parts, h]
  omega

theorem parts_getElem? (k : ℕ) (tag marker : UInt8) (rest digest : Bytes) :
    (parts k (tag :: marker :: rest) digest).flatten[k + 2]? = some 0x00 ∧
      (parts k (tag :: marker :: rest) digest).flatten[k + 4]? = some marker := by
  obtain ⟨d, hd⟩ : ∃ d, d = (parts k (tag :: marker :: rest) digest).flatten := ⟨_, rfl⟩
  have h : Holds d 0 (parts k (tag :: marker :: rest) digest).flatten := hd ▸ Holds.self d
  rw [← hd]
  simp only [parts, List.flatten_cons, Holds.append_iff, List.length_cons, List.length_nil,
    List.length_replicate] at h
  obtain ⟨-, -, hzero, halgo, -⟩ := h
  have hfirst : 0 + (0 + 1 + 1) + k = k + 2 := by omega
  have hsecond : k + 2 + (0 + 1) + 1 = k + 4 := by omega
  rw [hfirst] at hzero halgo
  rw [← hsecond]
  exact ⟨hzero.getElem?, halgo.tail.getElem?⟩

end Encoding

section Digest

variable {d : Bytes}

theorem digestAlgoWithParam_eq (h50 : 50 ≤ d.length) {x y : UInt8} (hx : d[d.length - 50]? = some x)
    (hy : d[d.length - 48]? = some y) : digestAlgoWithParam d = .ok
      (if x = 0x31 then some sha256ExplicitNullParam else if y = 0x2f then some sha256ImplicitNullParam
        else none) := by
  have hfirst : checkedSub d.length 50 = .ok (d.length - 50) := checkedSub_eq_ok.mpr ⟨h50, rfl⟩
  have hsecond : checkedSub d.length 48 = .ok (d.length - 48) := checkedSub_eq_ok.mpr ⟨by omega, rfl⟩
  rw [digestAlgoWithParam, hfirst, ok_bind, index_eq_ok.mpr hx, ok_bind]
  by_cases h31 : x = 0x31
  · rw [if_pos h31, if_pos h31]
  · rw [if_neg h31, if_neg h31, hsecond, ok_bind, index_eq_ok.mpr hy, ok_bind]
    by_cases h2f : y = 0x2f
    · rw [if_pos h2f, if_pos h2f]
    · rw [if_neg h2f, if_neg h2f]

theorem exists_digestAlgo (h50 : 50 ≤ d.length) : ∃ r, digestAlgoWithParam d = .ok r ∧
    ∀ a ∈ r, a = sha256ExplicitNullParam ∨ a = sha256ImplicitNullParam := by
  have hx : d[d.length - 50]? = some (d.get ⟨d.length - 50, by omega⟩) := List.getElem?_eq_getElem (by omega)
  have hy : d[d.length - 48]? = some (d.get ⟨d.length - 48, by omega⟩) := List.getElem?_eq_getElem (by omega)
  refine ⟨_, digestAlgoWithParam_eq h50 hx hy, ?_⟩
  intro a ha
  split_ifs at ha
  · exact Or.inl (Option.some.inj ha).symm
  · exact Or.inr (Option.some.inj ha).symm
  · cases ha

/-- The separator is where the marker of the longer form would be, so that the forms are not confused. -/
theorem digestAlgoWithParam_parts {digest : Bytes} (h : digest.length = 32) (k : ℕ) {a : Bytes}
    (ha : a = sha256ExplicitNullParam ∨ a = sha256ImplicitNullParam) :
    digestAlgoWithParam (parts k a digest).flatten = .ok (some a) := by
  have hlen := parts_length h k a
  obtain rfl | rfl := ha
  · obtain ⟨-, hmarker⟩ := parts_getElem? k 0x30 0x31 (sha256ExplicitNullParam.drop 2) digest
    have hfirst : (parts k sha256ExplicitNullParam digest).flatten.length - 50 = k + 4 := by
      rw [hlen]
      rfl
    have hsecond : (parts k sha256ExplicitNullParam digest).flatten.length - 48 < 
        (parts k sha256ExplicitNullParam digest).flatten.length := by omega
    rw [digestAlgoWithParam_eq (by rw [hlen]; simp [sha256ExplicitNullParam]) (by rw [hfirst]; exact hmarker)
      (List.getElem?_eq_getElem hsecond), if_pos rfl]
  · obtain ⟨hzero, hmarker⟩ := parts_getElem? k 0x30 0x2f (sha256ImplicitNullParam.drop 2) digest
    have hfirst : (parts k sha256ImplicitNullParam digest).flatten.length - 50 = k + 2 := by
      rw [hlen]
      rfl
    have hsecond : (parts k sha256ImplicitNullParam digest).flatten.length - 48 = k + 4 := by
      rw [hlen]
      rfl
    rw [digestAlgoWithParam_eq (by rw [hlen]; simp [sha256ImplicitNullParam]) (by rw [hfirst]; exact hzero)
      (by rw [hsecond]; exact hmarker)]
    rfl

end Digest

theorem checkedSub_three {n a b c : ℕ} {f : ℕ → Checked Bool} :
    (checkedSub n a >>= fun p => checkedSub p b >>= fun p => checkedSub p c >>= f) =
      if a + b + c ≤ n then f (n - (a + b + c)) else .error .overflow := by
  unfold checkedSub
  by_cases h : a + b + c ≤ n
  · have hrest : n - a - b - c = n - (a + b + c) := by omega
    rw [if_pos h, if_pos (by omega), ok_bind, if_pos (by omega), ok_bind, if_pos (by omega), ok_bind, hrest]
  · rw [if_neg h]
    by_cases h₁ : a ≤ n
    · rw [if_pos h₁, ok_bind]
      by_cases h₂ : b ≤ n - a
      · rw [if_pos h₂, ok_bind, if_neg (by omega)]
        rfl
      · rw [if_neg h₂]
        rfl
    · rw [if_neg h₁]
      rfl

section Pkcs1

variable [ModExp] {s e m : Bytes}

theorem decipher_length : (decipher s e m).length = m.length := by
  simp [decipher]

theorem decipher_eq (h : ModExp.modexp (input s e m) = some (power s e m)) : decipher s e m = power s e m := by
  have hlen := power_length s e m
  rw [decipher, h, Option.getD_some, List.take_append_of_le_length (by omega), List.take_of_length_le (by omega)]

theorem pkcs1Sha256_of_algo {sha256 : SH256} {a : Bytes}
    (h : digestAlgoWithParam (decipher s e m) = .ok (some a)) : pkcs1Sha256 sha256 s e m =
      if 5 + a.length + 32 ≤ m.length then
        compareParts (decipher s e m) 0 (parts (m.length - (5 + a.length + 32)) a sha256.bytes)
      else .error .overflow := by
  rw [pkcs1Sha256, h, ok_bind]
  simp only [decipher_length]
  exact checkedSub_three

theorem decipher_eq_parts_iff (sha256 : SH256) {a : Bytes}
    (ha : a = sha256ExplicitNullParam ∨ a = sha256ImplicitNullParam) :
    (∃ k, decipher s e m = (parts k a sha256.bytes).flatten) ↔
      digestAlgoWithParam (decipher s e m) = .ok (some a) ∧ pkcs1Sha256 sha256 s e m = .ok true := by
  constructor
  · rintro ⟨k, hk⟩
    have halgo := digestAlgoWithParam_parts sha256.bytes_length k ha
    have hlen := parts_length sha256.bytes_length k a
    rw [← hk] at halgo hlen
    rw [decipher_length] at hlen
    have hrest : m.length - (5 + a.length + 32) = k := by omega
    refine ⟨halgo, ?_⟩
    rw [pkcs1Sha256_of_algo halgo, if_pos (by omega), hrest, compareParts_all]
    · exact hk
    · rw [← hk]
  · rintro ⟨halgo, haccepted⟩
    rw [pkcs1Sha256_of_algo halgo] at haccepted
    split_ifs at haccepted with hroom
    refine ⟨m.length - (5 + a.length + 32), ?_⟩
    rwa [compareParts_all] at haccepted
    rw [parts_length sha256.bytes_length, decipher_length]
    omega

theorem pkcs1Sha256_iff (sha256 : SH256) : pkcs1Sha256 sha256 s e m = .ok true ↔
    ∃ k, ∃ parameters ∈ [[null], []],
      decipher s e m = encoding k (digestInfo sha256Oid parameters sha256.bytes) := by
  have hexplicit := decipher_eq_parts_iff (s := s) (e := e) (m := m) sha256
    (Or.inl rfl : sha256ExplicitNullParam = _ ∨ _)
  have himplicit := decipher_eq_parts_iff (s := s) (e := e) (m := m) sha256
    (Or.inr rfl : sha256ImplicitNullParam = _ ∨ _)
  simp only [explicit_parts sha256.bytes_length] at hexplicit
  simp only [implicit_parts sha256.bytes_length] at himplicit
  constructor
  · intro h
    have h50 : 50 ≤ (decipher s e m).length := by
      by_contra hshort
      rw [pkcs1Sha256, digestAlgoWithParam, checkedSub, if_neg hshort] at h
      cases h
    obtain ⟨r, hr, halgo⟩ := exists_digestAlgo h50
    cases r with
    | none =>
      rw [pkcs1Sha256, hr] at h
      cases h
    | some a =>
      obtain rfl | rfl := halgo a rfl
      · obtain ⟨k, hk⟩ := hexplicit.mpr ⟨hr, h⟩
        exact ⟨k, [null], by simp, hk⟩
      · obtain ⟨k, hk⟩ := himplicit.mpr ⟨hr, h⟩
        exact ⟨k, [], by simp, hk⟩
  · rintro ⟨k, parameters, hparameters, hk⟩
    simp only [List.mem_cons, List.not_mem_nil, or_false] at hparameters
    obtain rfl | rfl := hparameters
    · exact (hexplicit.mp ⟨k, hk⟩).2
    · exact (himplicit.mp ⟨k, hk⟩).2

theorem pkcs1Sha256_total (sha256 : SH256) (h : 54 ≤ m.length) : ∃ r, pkcs1Sha256 sha256 s e m = .ok r := by
  obtain ⟨r, hr, halgo⟩ := exists_digestAlgo (d := decipher s e m) (by rw [decipher_length]; omega)
  cases r with
  | none =>
    refine ⟨false, ?_⟩
    rw [pkcs1Sha256, hr]
    rfl
  | some a =>
    have hlen : a.length ≤ 17 := by
      obtain rfl | rfl := halgo a rfl
      · exact le_rfl
      · decide
    rw [pkcs1Sha256_of_algo hr, if_pos (by omega)]
    apply compareParts_total
    rw [parts_length sha256.bytes_length, decipher_length]
    omega

theorem pkcs1Sha1_eq (sha1 : BitVec 160) : pkcs1Sha1 sha1 s e m =
    if 38 ≤ m.length then
      compareParts (decipher s e m) 0 [[0x00, 0x01], List.replicate (m.length - 38) 0xff, [0x00], sha1Prefix,
        BigEndian.encode 20 sha1.toNat]
    else .error .overflow := by
  rw [pkcs1Sha1]
  simp only [decipher_length]
  exact checkedSub_three

theorem pkcs1Sha1_iff (sha1 : BitVec 160) : pkcs1Sha1 sha1 s e m = .ok true ↔
    ∃ k, decipher s e m = encoding k (digestInfo sha1Oid [null] (BigEndian.encode 20 sha1.toNat)) := by
  have hdigest : (BigEndian.encode 20 sha1.toNat).length = 20 := BigEndian.encode_length _ _
  have hlen := decipher_length (s := s) (e := e) (m := m)
  rw [pkcs1Sha1_eq]
  constructor
  · intro h
    split_ifs at h with hroom
    rw [compareParts_all (by rw [sha1_parts_length _ hdigest]; omega), sha1_parts hdigest] at h
    exact ⟨_, h⟩
  · rintro ⟨k, hk⟩
    have hparts := sha1_parts_length k hdigest
    rw [sha1_parts hdigest, ← hk] at hparts
    have hrest : m.length - 38 = k := by omega
    rw [if_pos (by omega), hrest, compareParts_all, sha1_parts hdigest]
    · exact hk
    · rw [sha1_parts hdigest, ← hk]

theorem pkcs1Sha1_total (sha1 : BitVec 160) (h : 38 ≤ m.length) : ∃ r, pkcs1Sha1 sha1 s e m = .ok r := by
  rw [pkcs1Sha1_eq, if_pos h]
  apply compareParts_total
  rw [sha1_parts_length _ (BigEndian.encode_length _ _), decipher_length]
  omega

end Pkcs1

end RsaVerify

end LineaSgxProver.Verifier
