import LineaSgxProver.Verifier.BytesMemory
import LineaSgxProver.Verifier.CertSignature
import LineaSgxProver.Verifier.QuoteGrammar
import LineaSgxProver.Verifier.RsaVerify

namespace LineaSgxProver.Verifier

open Library Pkcs1 BytesUtils.InMemory

inductive KeyType where
  | RSA
  | ECDSA
  deriving DecidableEq

/-- An RSA key has its exponent in three bytes and then its modulus. -/
structure PublicKey where
  keyType : KeyType
  pubKey : Bytes
  deriving DecidableEq

inductive CertSigAlgorithm where
  | Sha256WithRSAEncryption
  | Sha1WithRSAEncryption
  deriving DecidableEq

inductive Algorithm where
  | RS256
  | ES256
  | RS1
  deriving DecidableEq

namespace RsaVerify

def pkcs1Sha1Raw [ModExp] (data s e m : Bytes) : Checked Bool :=
  pkcs1Sha1 (SHA1.sha1 (memoryOf data) 0x80) s e m

theorem sha1_memoryOf {data : Bytes} (h : data.length < 2 ^ 61) :
    SHA1.sha1 (memoryOf data) 0x80 = Sha1.hash data := by
  have hholds := memoryOf_holds (show data.length < 2 ^ 62 by omega)
  apply SHA1.Holds.sha1
  exact ⟨hholds.length, hholds.bytes, hholds.allocated, h⟩

end RsaVerify

namespace SigVerifyLib

theorem keyParts {publicKey : Bytes} (f : Bytes → Bytes → Checked Bool) :
    (do
      let exponent ← substring publicKey 0 3
      let modulusLen ← checkedSub publicKey.length 3
      let modulus ← substring publicKey 3 modulusLen
      f exponent modulus) =
    if 3 ≤ publicKey.length then f (publicKey.take 3) (publicKey.drop 3) else .error (.reason "") := by
  split_ifs with h
  · have hlen : checkedSub publicKey.length 3 = .ok (publicKey.length - 3) := checkedSub_eq_ok.mpr ⟨h, rfl⟩
    rw [substring_of_le (by omega), ok_bind, hlen, ok_bind, substring_of_le (by omega), ok_bind, List.drop_zero,
      List.take_of_length_le (List.length_drop ..).le]
  · rw [substring_of_lt (by omega)]
    rfl

section Infos

def oid : CertSigAlgorithm → Bytes
  | .Sha256WithRSAEncryption => RsaVerify.sha256Oid
  | .Sha1WithRSAEncryption => RsaVerify.sha1Oid

/-- The parameters may be left out of the longer digest only. -/
def parameters : CertSigAlgorithm → List (List Der.Tlv)
  | .Sha256WithRSAEncryption => [[null], []]
  | .Sha1WithRSAEncryption => [[null]]

def prefixes : CertSigAlgorithm → List Bytes
  | .Sha256WithRSAEncryption =>
    [RsaVerify.sha256ExplicitNullParam ++ [0x04, 0x20], RsaVerify.sha256ImplicitNullParam ++ [0x04, 0x20]]
  | .Sha1WithRSAEncryption => [RsaVerify.sha1Prefix]

theorem prefixes_injective {alg alg' : CertSigAlgorithm} : ∀ start ∈ prefixes alg, ∀ start' ∈ prefixes alg',
    start.take 2 = start'.take 2 → alg = alg' ∧ start = start' := by
  cases alg <;> cases alg' <;> decide

theorem two_le_prefixes {alg : CertSigAlgorithm} : ∀ start ∈ prefixes alg, 2 ≤ start.length := by
  cases alg <;> decide

variable [Precompiles]

def digest (tbs : Bytes) : CertSigAlgorithm → Bytes
  | .Sha256WithRSAEncryption => (Precompiles.sha256 tbs).bytes
  | .Sha1WithRSAEncryption => BigEndian.encode 20 (Sha1.hash tbs).toNat

/-- What a signature with an algorithm may be of. -/
def infos (tbs : Bytes) (alg : CertSigAlgorithm) : List Der.Tlv :=
  (parameters alg).map fun p => digestInfo (oid alg) p (digest tbs alg)

theorem infos_bytes {tbs : Bytes} {alg : CertSigAlgorithm} {info : Der.Tlv} (h : info ∈ infos tbs alg) :
    ∃ start ∈ prefixes alg, info.bytes = start ++ digest tbs alg := by
  cases alg with
  | Sha256WithRSAEncryption =>
    have hlen : (Precompiles.sha256 tbs).bytes.length = 32 := SH256.bytes_length _
    simp only [infos, parameters, List.map_cons, List.map_nil, List.mem_cons, List.not_mem_nil, or_false] at h
    obtain rfl | rfl := h
    · exact ⟨_, List.mem_cons_self, by simp [oid, digest, RsaVerify.explicit_bytes hlen]⟩
    · exact ⟨_, List.mem_cons_of_mem _ List.mem_cons_self, by simp [oid, digest, RsaVerify.implicit_bytes hlen]⟩
  | Sha1WithRSAEncryption =>
    obtain rfl := List.mem_singleton.mp h
    exact ⟨_, List.mem_singleton_self _, RsaVerify.sha1_bytes (BigEndian.encode_length _ _)⟩

/-- The second byte tells the forms from each other, and the last ones are the digest. -/
theorem infos_injective {tbs tbs' : Bytes} {alg alg' : CertSigAlgorithm} {info info' : Der.Tlv}
    (h : info ∈ infos tbs alg) (h' : info' ∈ infos tbs' alg') (hbytes : info.bytes = info'.bytes) :
    alg = alg' ∧ digest tbs alg = digest tbs' alg' := by
  obtain ⟨start, hstart, hinfo⟩ := infos_bytes h
  obtain ⟨start', hstart', hinfo'⟩ := infos_bytes h'
  rw [hinfo, hinfo'] at hbytes
  have htwo := congrArg (List.take 2) hbytes
  rw [List.take_append_of_le_length (two_le_prefixes _ hstart),
    List.take_append_of_le_length (two_le_prefixes _ hstart')] at htwo
  obtain ⟨halg, rfl⟩ := prefixes_injective _ hstart _ hstart' htwo
  exact ⟨halg, List.append_cancel_left hbytes⟩

end Infos

section Verify

variable [Precompiles] [ModExp]

def verifyRS256Signature (tbs signature publicKey : Bytes) : Checked Bool := do
  let exponent ← substring publicKey 0 3
  let modulusLen ← checkedSub publicKey.length 3
  let modulus ← substring publicKey 3 modulusLen
  RsaVerify.pkcs1Sha256Raw tbs signature exponent modulus

def verifyRS1Signature (tbs signature publicKey : Bytes) : Checked Bool := do
  let exponent ← substring publicKey 0 3
  let modulusLen ← checkedSub publicKey.length 3
  let modulus ← substring publicKey 3 modulusLen
  RsaVerify.pkcs1Sha1Raw tbs signature exponent modulus

def verifyCertificateSignature (tbs signature : Bytes) (publicKey : PublicKey) (alg : CertSigAlgorithm) :
    Checked Bool :=
  match alg with
  | .Sha256WithRSAEncryption =>
    if publicKey.keyType ≠ .RSA then .ok false
    else verifyRS256Signature tbs signature publicKey.pubKey
  | .Sha1WithRSAEncryption =>
    if publicKey.keyType ≠ .RSA then .ok false
    else verifyRS1Signature tbs signature publicKey.pubKey

def attStmtAlgorithm : CertSigAlgorithm → Algorithm
  | .Sha256WithRSAEncryption => .RS256
  | .Sha1WithRSAEncryption => .RS1

def verifyAttStmtSignature [EllipticCurveLib] (tbs signature : Bytes) (publicKey : PublicKey)
    (alg : Algorithm) : Checked Bool :=
  match alg with
  | .RS256 =>
    if publicKey.keyType ≠ .RSA then .ok false
    else verifyRS256Signature tbs signature publicKey.pubKey
  | .ES256 =>
    if publicKey.keyType ≠ .ECDSA then .ok false
    else verifyES256Signature tbs signature publicKey.pubKey
  | .RS1 =>
    if publicKey.keyType ≠ .RSA then .ok false
    else verifyRS1Signature tbs signature publicKey.pubKey

theorem verifyAttStmtSignature_rsa [EllipticCurveLib] (tbs signature : Bytes) (publicKey : PublicKey)
    (alg : CertSigAlgorithm) :
    verifyAttStmtSignature tbs signature publicKey (attStmtAlgorithm alg) =
      verifyCertificateSignature tbs signature publicKey alg := by
  cases alg <;> rfl

/-- A signature of one of the encodings under an RSA key. -/
structure Signs (tbs signature : Bytes) (publicKey : PublicKey) (alg : CertSigAlgorithm) : Prop where
  keyType : publicKey.keyType = .RSA
  exponent : 3 ≤ publicKey.pubKey.length
  encoded : ∃ k, ∃ info ∈ infos tbs alg,
    power signature (publicKey.pubKey.take 3) (publicKey.pubKey.drop 3) = encoding k info

variable {tbs signature publicKey : Bytes}

/-- The decipher under a key is an encoding of one of the forms. -/
def Deciphers (tbs signature publicKey : Bytes) (alg : CertSigAlgorithm) : Prop :=
  ∃ k, ∃ info ∈ infos tbs alg,
    RsaVerify.decipher signature (publicKey.take 3) (publicKey.drop 3) = encoding k info

theorem verifyRS256Signature_iff : verifyRS256Signature tbs signature publicKey = .ok true ↔
    3 ≤ publicKey.length ∧ Deciphers tbs signature publicKey .Sha256WithRSAEncryption := by
  rw [verifyRS256Signature, keyParts]
  split_ifs with h
  · rw [RsaVerify.pkcs1Sha256Raw, RsaVerify.pkcs1Sha256_iff]
    simp [h, Deciphers, infos, parameters, oid, digest]
  · simp [h]

theorem verifyRS1Signature_iff (hsize : tbs.length < 2 ^ 61) :
    verifyRS1Signature tbs signature publicKey = .ok true ↔
      3 ≤ publicKey.length ∧ Deciphers tbs signature publicKey .Sha1WithRSAEncryption := by
  rw [verifyRS1Signature, keyParts]
  split_ifs with h
  · rw [RsaVerify.pkcs1Sha1Raw, RsaVerify.sha1_memoryOf hsize, RsaVerify.pkcs1Sha1_iff]
    simp [h, Deciphers, infos, parameters, oid, digest]
  · simp [h]

theorem verifyCertificateSignature_of_keyType {tbs signature : Bytes} {publicKey : PublicKey}
    (h : publicKey.keyType = .RSA) (alg : CertSigAlgorithm) :
    verifyCertificateSignature tbs signature publicKey alg =
      match alg with
      | .Sha256WithRSAEncryption => verifyRS256Signature tbs signature publicKey.pubKey
      | .Sha1WithRSAEncryption => verifyRS1Signature tbs signature publicKey.pubKey := by
  cases alg
  · exact if_neg (by simp [h])
  · exact if_neg (by simp [h])

theorem verifyCertificateSignature_total (tbs signature : Bytes) (publicKey : PublicKey) (alg : CertSigAlgorithm)
    (h : 57 ≤ publicKey.pubKey.length) : ∃ r, verifyCertificateSignature tbs signature publicKey alg = .ok r := by
  have h3 : 3 ≤ publicKey.pubKey.length := by omega
  have hmodulus : 54 ≤ (publicKey.pubKey.drop 3).length := by
    rw [List.length_drop]
    omega
  by_cases hkey : publicKey.keyType = .RSA
  · rw [verifyCertificateSignature_of_keyType hkey]
    cases alg with
    | Sha256WithRSAEncryption =>
      simp only
      rw [verifyRS256Signature, keyParts, if_pos h3]
      exact RsaVerify.pkcs1Sha256_total _ hmodulus
    | Sha1WithRSAEncryption =>
      simp only
      rw [verifyRS1Signature, keyParts, if_pos h3]
      exact RsaVerify.pkcs1Sha1_total _ (by omega)
  · refine ⟨false, ?_⟩
    cases alg
    · exact if_pos hkey
    · exact if_pos hkey

theorem accepts_iff {tbs signature : Bytes} {publicKey : PublicKey} {alg : CertSigAlgorithm}
    (hsize : tbs.length < 2 ^ 61) : verifyCertificateSignature tbs signature publicKey alg = .ok true ↔
      publicKey.keyType = .RSA ∧ 3 ≤ publicKey.pubKey.length ∧ Deciphers tbs signature publicKey.pubKey alg := by
  by_cases hkey : publicKey.keyType = .RSA
  · rw [verifyCertificateSignature_of_keyType hkey, and_iff_right hkey]
    cases alg with
    | Sha256WithRSAEncryption => exact verifyRS256Signature_iff
    | Sha1WithRSAEncryption => exact verifyRS1Signature_iff hsize
  · apply iff_of_false
    · intro h
      cases alg
      · cases (if_pos hkey).symm.trans h
      · cases (if_pos hkey).symm.trans h
    · exact fun h => hkey h.1

theorem verifyCertificateSignature_iff (tbs signature : Bytes) (publicKey : PublicKey) (alg : CertSigAlgorithm)
    (hpower : ModExp.modexp (RsaVerify.input signature (publicKey.pubKey.take 3) (publicKey.pubKey.drop 3)) =
      some (power signature (publicKey.pubKey.take 3) (publicKey.pubKey.drop 3)))
    (hsize : tbs.length < 2 ^ 61) :
    (verifyCertificateSignature tbs signature publicKey alg = .ok true ↔ Signs tbs signature publicKey alg) ∧
      (57 ≤ publicKey.pubKey.length → ∃ r, verifyCertificateSignature tbs signature publicKey alg = .ok r) := by
  refine ⟨?_, verifyCertificateSignature_total tbs signature publicKey alg⟩
  rw [accepts_iff hsize, Deciphers, RsaVerify.decipher_eq hpower]
  exact ⟨fun ⟨hkey, h3, hencoded⟩ => ⟨hkey, h3, hencoded⟩, fun h => ⟨h.keyType, h.exponent, h.encoded⟩⟩

end Verify

section Samples

/-- The precompile without its gas. -/
abbrev sampleModExp : ModExp where
  modexp input :=
    let s := BigEndian.decode (input.take 32)
    let e := BigEndian.decode ((input.drop 32).take 32)
    let m := BigEndian.decode ((input.drop 64).take 32)
    some (power ((input.drop 96).take s) ((input.drop (96 + s)).take e) ((input.drop (96 + s + e)).take m))

abbrev sampleHashes : Precompiles := ⟨fun _ => 0, fun _ => 0, fun _ _ _ _ => 0⟩

/-- A signature under the exponent 1. -/
def sampleSignature : Bytes := encoding 8 (digestInfo RsaVerify.sha256Oid [] (List.replicate 32 0))

def samplePublicKey : PublicKey := ⟨.RSA, [0, 0, 1] ++ List.replicate 60 0xff⟩

theorem sampleSignature_power :
    power sampleSignature (samplePublicKey.pubKey.take 3) (samplePublicKey.pubKey.drop 3) = sampleSignature := by
  decide +kernel

theorem sampleSignature_info (tbs : Bytes) : digestInfo RsaVerify.sha256Oid [] (List.replicate 32 0) ∈
    @infos sampleHashes tbs .Sha256WithRSAEncryption := by
  have hdigest : (0 : SH256).bytes = List.replicate 32 0 := by decide +kernel
  rw [← hdigest]
  exact List.mem_cons_of_mem _ List.mem_cons_self

theorem verifyCertificateSignature_iff_sample :
    @verifyCertificateSignature sampleHashes sampleModExp [] sampleSignature samplePublicKey
      .Sha256WithRSAEncryption = .ok true := by
  have hiff := @verifyCertificateSignature_iff sampleHashes sampleModExp [] sampleSignature samplePublicKey
    .Sha256WithRSAEncryption (by decide +kernel) (by decide)
  exact hiff.1.mpr (@Signs.mk sampleHashes _ _ _ _ rfl (by decide)
    ⟨8, _, sampleSignature_info [], sampleSignature_power⟩)

end Samples

section Verify

variable [Precompiles] [ModExp]

/-- Whatever the precompile does. -/
theorem accepted_digest_unique (tbs tbs' signature : Bytes) (publicKey : PublicKey) (alg alg' : CertSigAlgorithm)
    (hsize : tbs.length < 2 ^ 61) (hsize' : tbs'.length < 2 ^ 61)
    (h : verifyCertificateSignature tbs signature publicKey alg = .ok true)
    (h' : verifyCertificateSignature tbs' signature publicKey alg' = .ok true) :
    alg = alg' ∧ digest tbs alg = digest tbs' alg' := by
  obtain ⟨-, -, k, info, hinfo, hk⟩ := (accepts_iff hsize).mp h
  obtain ⟨-, -, k', info', hinfo', hk'⟩ := (accepts_iff hsize').mp h'
  exact infos_injective hinfo hinfo' (encoding_injective (hk.symm.trans hk'))

end Verify

section Samples

theorem sampleSignature_accepted {tbs : Bytes} (h : tbs.length < 2 ^ 61) :
    @verifyCertificateSignature sampleHashes sampleModExp tbs sampleSignature samplePublicKey
      .Sha256WithRSAEncryption = .ok true := by
  have hdecipher := @RsaVerify.decipher_eq sampleModExp sampleSignature (samplePublicKey.pubKey.take 3)
    (samplePublicKey.pubKey.drop 3) (by decide +kernel)
  exact (@accepts_iff sampleHashes sampleModExp _ _ _ _ h).mpr
    ⟨rfl, by decide, 8, _, sampleSignature_info tbs, hdecipher.trans sampleSignature_power⟩

theorem accepted_digest_unique_sample :
    @digest sampleHashes [] .Sha256WithRSAEncryption = @digest sampleHashes [1] .Sha256WithRSAEncryption :=
  (@accepted_digest_unique sampleHashes sampleModExp [] [1] sampleSignature samplePublicKey
    .Sha256WithRSAEncryption .Sha256WithRSAEncryption (by decide) (by decide)
    (sampleSignature_accepted (by decide)) (sampleSignature_accepted (by decide))).2

end Samples

end SigVerifyLib

end LineaSgxProver.Verifier
