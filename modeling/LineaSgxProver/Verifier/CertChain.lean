import Mathlib
import LineaSgxProver.Verifier.QuoteVerification

namespace LineaSgxProver.Verifier

open Library

namespace AutomataDcapV3Attestation

/-- The flags of `_verifyCertChain`, which outlive a pass of its loop. -/
structure ChainFlags where
  certRevoked : Bool
  certNotExpired : Bool
  verified : Bool
  certChainCanBeTrusted : Bool

def ChainFlags.verdict (flags : ChainFlags) : Bool :=
  ! flags.certRevoked && flags.certNotExpired && flags.verified && flags.certChainCanBeTrusted

def chainIssuer (certs : List ECSha256Certificate) (i : ℕ) : Checked ECSha256Certificate :=
  if i = certs.length - 1 then index certs i else index certs (i + 1)

section Loop

variable [Precompiles]

/-- The revocation flag at a certificate: the root has none looked up, nor has a certificate below the
last but one that is no PCK's. -/
def chainRevoked (c : AutomataDcapV3Attestation) (certs : List ECSha256Certificate) (i : ℕ)
    (cert : ECSha256Certificate) (certRevoked : Bool) : Bool :=
  if i = certs.length - 1 then certRevoked
  else if i = certs.length - 2 then c.serialNumIsRevoked .root cert.serialNumber
  else if cert.isPck then c.serialNumIsRevoked .pck cert.serialNumber
  else certRevoked

def chainPass (c : AutomataDcapV3Attestation) (now : SU256) (certs : List ECSha256Certificate) (i : ℕ)
    (flags : ChainFlags) : Checked (Bool × ChainFlags) := do
  let cert ← index certs i
  let issuer ← chainIssuer certs i
  let flags := { flags with certRevoked := c.chainRevoked certs i cert flags.certRevoked }
  if i ≠ certs.length - 1 ∧ flags.certRevoked = true then .ok (false, flags) else do
  let flags := { flags with certNotExpired := cert.notBefore < now ∧ now < cert.notAfter }
  if ! flags.certNotExpired then .ok (false, flags) else do
  let verified ← c.sigVerifyLib.verifyES256Signature cert.tbsCertificate cert.signature issuer.pubKey
  let flags := { flags with verified := verified }
  if ! flags.verified then .ok (false, flags)
  else if Precompiles.keccak256 issuer.pubKey = rootcaPubkeyHash then
    .ok (false, { flags with certChainCanBeTrusted := true })
  else .ok (true, flags)

def chainLoop (c : AutomataDcapV3Attestation) (now : SU256) (certs : List ECSha256Certificate) :
    ℕ → ℕ → ChainFlags → Checked ChainFlags
  | 0, _, flags => .ok flags
  | passes + 1, i, flags => do
    let (goOn, flags) ← c.chainPass now certs i flags
    if goOn then c.chainLoop now certs passes (i + 1) flags else .ok flags

/-- `_verifyCertChain`, flag by flag. -/
def verifyCertChainLoop (c : AutomataDcapV3Attestation) (now : SU256) (certs : List ECSha256Certificate) :
    Checked Bool := do
  let flags ← c.chainLoop now certs certs.length 0 ⟨false, false, false, false⟩
  .ok flags.verdict

variable {c : AutomataDcapV3Attestation} {now : SU256}

def revokedBelow (c : AutomataDcapV3Attestation) (cert : ECSha256Certificate) :
    List ECSha256Certificate → Bool
  | [] => false
  | [_] => c.serialNumIsRevoked .root cert.serialNumber
  | _ :: _ :: _ => cert.isPck && c.serialNumIsRevoked .pck cert.serialNumber

theorem verifyCertChain_cons (cert : ECSha256Certificate) (rest : List ECSha256Certificate) :
    c.verifyCertChain now (cert :: rest) =
      if c.revokedBelow cert rest then .ok false
      else if ! decide (cert.notBefore < now ∧ now < cert.notAfter) then .ok false
      else
        c.sigVerifyLib.verifyES256Signature cert.tbsCertificate cert.signature (rest.headD cert).pubKey
          >>= fun verified =>
            if ! verified then .ok false
            else if Precompiles.keccak256 (rest.headD cert).pubKey = rootcaPubkeyHash then .ok true
            else c.verifyCertChain now rest := by
  rcases rest with _ | ⟨issuer, _ | ⟨root, rest⟩⟩ <;> rfl

omit [Precompiles] in
theorem chainRevoked_eq (pre rest : List ECSha256Certificate) (cert : ECSha256Certificate) :
    c.chainRevoked (pre ++ cert :: rest) pre.length cert false = c.revokedBelow cert rest := by
  have hlen : (pre ++ cert :: rest).length = pre.length + (rest.length + 1) := by simp
  unfold chainRevoked
  rw [hlen]
  rcases rest with _ | ⟨issuer, _ | ⟨root, rest⟩⟩
  · rw [if_pos (by simp)]
    rfl
  · rw [if_neg (by simp), if_pos (by simp)]
    rfl
  · rw [if_neg (by simp), if_neg (by simp only [List.length_cons]; omega)]
    unfold revokedBelow
    cases cert.isPck <;> rfl

omit [Precompiles] in
theorem chainIssuer_eq (pre rest : List ECSha256Certificate) (cert : ECSha256Certificate) :
    chainIssuer (pre ++ cert :: rest) pre.length = .ok (rest.headD cert) := by
  unfold chainIssuer
  cases rest with
  | nil =>
    rw [if_pos (by simp)]
    exact index_eq_ok.mpr (by simp)
  | cons issuer rest =>
    rw [if_neg (by simp)]
    exact index_eq_ok.mpr (by simp)

omit [Precompiles] in
theorem revokedBelow_ne_last {pre rest : List ECSha256Certificate} {cert : ECSha256Certificate}
    (h : c.revokedBelow cert rest = true) : pre.length ≠ (pre ++ cert :: rest).length - 1 := by
  cases rest with
  | nil => cases h
  | cons issuer rest => simp

theorem chainLoop_verdict (pre rest : List ECSha256Certificate) (flags : ChainFlags)
    (hrevoked : flags.certRevoked = false) (htrusted : flags.certChainCanBeTrusted = false) :
    (do
      let flags ← c.chainLoop now (pre ++ rest) rest.length pre.length flags
      .ok flags.verdict) = c.verifyCertChain now rest := by
  induction rest generalizing pre flags with
  | nil =>
    change Except.ok flags.verdict = .ok false
    rw [ChainFlags.verdict, htrusted, Bool.and_false]
  | cons cert rest ih =>
    have hcert : index (pre ++ cert :: rest) pre.length = .ok cert := index_eq_ok.mpr (by simp)
    have hnext : pre ++ cert :: rest = (pre ++ [cert]) ++ rest := by simp
    have hlen : pre.length + 1 = (pre ++ [cert]).length := by simp
    rw [verifyCertChain_cons, List.length_cons, chainLoop, chainPass, hcert, ok_bind, chainIssuer_eq,
      ok_bind, hrevoked, chainRevoked_eq]
    by_cases hlisted : c.revokedBelow cert rest = true
    · rw [if_pos ⟨revokedBelow_ne_last hlisted, hlisted⟩, if_pos hlisted]
      simp [ChainFlags.verdict, hlisted]
    · rw [if_neg (fun h => hlisted h.2), if_neg hlisted]
      generalize rest.headD cert = issuer
      by_cases hvalid : cert.notBefore < now ∧ now < cert.notAfter
      · cases hverify : c.sigVerifyLib.verifyES256Signature cert.tbsCertificate cert.signature
            issuer.pubKey with
        | error e => simp [hvalid, error_bind]
        | ok verified =>
          cases verified with
          | false => simp [hvalid, ChainFlags.verdict]
          | true =>
            by_cases hroot : Precompiles.keccak256 issuer.pubKey = rootcaPubkeyHash
            · simp [hvalid, hroot, hlisted, ChainFlags.verdict]
            · simp only [hvalid, hroot, and_self, decide_true, Bool.not_true, Bool.false_eq_true,
                if_false, ok_bind, if_true, hnext, hlen]
              apply ih
              · simpa using hlisted
              · exact htrusted
      · simp [hvalid, ChainFlags.verdict]

theorem verifyCertChainLoop_eq (certs : List ECSha256Certificate) :
    c.verifyCertChainLoop now certs = c.verifyCertChain now certs :=
  chainLoop_verdict [] certs _ rfl rfl

def issuerAt (certs : List ECSha256Certificate) (i : ℕ) : Option ECSha256Certificate :=
  if i + 1 = certs.length then certs[i]? else certs[i + 1]?

structure CertPasses (c : AutomataDcapV3Attestation) (now : SU256) (certs : List ECSha256Certificate)
    (i : ℕ) (cert issuer : ECSha256Certificate) : Prop where
  notBefore : cert.notBefore < now
  notAfter : now < cert.notAfter
  signed : c.sigVerifyLib.verifyES256Signature cert.tbsCertificate cert.signature issuer.pubKey = .ok true
  rootList : i + 2 = certs.length → c.serialNumIsRevoked .root cert.serialNumber = false
  pckList : i + 2 < certs.length → cert.isPck = true → c.serialNumIsRevoked .pck cert.serialNumber = false

/-- Every certificate up to one passes, and the root's key signed that one. -/
def Trusted (c : AutomataDcapV3Attestation) (now : SU256) (certs : List ECSha256Certificate) : Prop :=
  ∃ j < certs.length,
    (∀ i ≤ j, ∃ cert issuer, certs[i]? = some cert ∧ issuerAt certs i = some issuer ∧
      CertPasses c now certs i cert issuer) ∧
    ∃ issuer, issuerAt certs j = some issuer ∧ Precompiles.keccak256 issuer.pubKey = rootcaPubkeyHash

omit [Precompiles] in
theorem issuerAt_zero (cert : ECSha256Certificate) (rest : List ECSha256Certificate) :
    issuerAt (cert :: rest) 0 = some (rest.headD cert) := by
  cases rest <;> simp [issuerAt]

omit [Precompiles] in
theorem issuerAt_succ (cert : ECSha256Certificate) (rest : List ECSha256Certificate) (i : ℕ) :
    issuerAt (cert :: rest) (i + 1) = issuerAt rest i := by
  simp [issuerAt]

omit [Precompiles] in
theorem certPasses_succ (cert x issuer : ECSha256Certificate) (rest : List ECSha256Certificate) (i : ℕ) :
    CertPasses c now (cert :: rest) (i + 1) x issuer ↔ CertPasses c now rest i x issuer := by
  have hlen : (cert :: rest).length = rest.length + 1 := rfl
  constructor
  · intro h
    exact ⟨h.notBefore, h.notAfter, h.signed, fun hi => h.rootList (by omega), fun hi => h.pckList (by omega)⟩
  · intro h
    exact ⟨h.notBefore, h.notAfter, h.signed, fun hi => h.rootList (by omega), fun hi => h.pckList (by omega)⟩

omit [Precompiles] in
theorem certPasses_zero (cert issuer : ECSha256Certificate) (rest : List ECSha256Certificate) :
    CertPasses c now (cert :: rest) 0 cert issuer ↔
      c.revokedBelow cert rest = false ∧ (cert.notBefore < now ∧ now < cert.notAfter) ∧
      c.sigVerifyLib.verifyES256Signature cert.tbsCertificate cert.signature issuer.pubKey = .ok true := by
  constructor
  · intro h
    refine ⟨?_, ⟨h.notBefore, h.notAfter⟩, h.signed⟩
    cases rest with
    | nil => rfl
    | cons x rest =>
      cases rest with
      | nil => exact h.rootList rfl
      | cons y rest =>
        have hpck := h.pckList (by simp)
        cases hisPck : cert.isPck with
        | false => simp [revokedBelow, hisPck]
        | true => simpa [revokedBelow, hisPck] using hpck hisPck
  · rintro ⟨hrevoked, ⟨hbefore, hafter⟩, hsigned⟩
    refine ⟨hbefore, hafter, hsigned, ?_, ?_⟩
    · intro hlen
      obtain ⟨x, rfl⟩ := List.length_eq_one_iff.mp (show rest.length = 1 by simp at hlen; omega)
      exact hrevoked
    · intro hlen hisPck
      rcases rest with _ | ⟨x, _ | ⟨y, rest⟩⟩
      · simp at hlen
      · simp at hlen
      · simpa [revokedBelow, hisPck] using hrevoked

theorem trusted_cons (cert : ECSha256Certificate) (rest : List ECSha256Certificate) :
    c.Trusted now (cert :: rest) ↔
      CertPasses c now (cert :: rest) 0 cert (rest.headD cert) ∧
      (Precompiles.keccak256 (rest.headD cert).pubKey = rootcaPubkeyHash ∨ c.Trusted now rest) := by
  constructor
  · rintro ⟨j, hj, hpasses, issuer, hissuer, hroot⟩
    constructor
    · obtain ⟨x, y, hx, hy, h⟩ := hpasses 0 (Nat.zero_le j)
      rw [issuerAt_zero] at hy
      cases hx
      cases hy
      exact h
    · cases j with
      | zero =>
        rw [issuerAt_zero] at hissuer
        cases hissuer
        exact Or.inl hroot
      | succ j =>
        refine Or.inr ⟨j, by simpa using hj, ?_, issuer, by rwa [issuerAt_succ] at hissuer, hroot⟩
        intro i hi
        obtain ⟨x, y, hx, hy, h⟩ := hpasses (i + 1) (by omega)
        rw [issuerAt_succ] at hy
        exact ⟨x, y, by simpa using hx, hy, (certPasses_succ cert x y rest i).mp h⟩
  · rintro ⟨hfirst, hroot | ⟨j, hj, hpasses, issuer, hissuer, hroot⟩⟩
    · refine ⟨0, by simp, ?_, rest.headD cert, issuerAt_zero cert rest, hroot⟩
      intro i hi
      obtain rfl : i = 0 := by omega
      exact ⟨cert, rest.headD cert, rfl, issuerAt_zero cert rest, hfirst⟩
    · refine ⟨j + 1, by simpa using hj, ?_, issuer, by rwa [issuerAt_succ], hroot⟩
      intro i hi
      cases i with
      | zero => exact ⟨cert, rest.headD cert, rfl, issuerAt_zero cert rest, hfirst⟩
      | succ i =>
        obtain ⟨x, y, hx, hy, h⟩ := hpasses i (by omega)
        exact ⟨x, y, by simpa using hx, by rwa [issuerAt_succ], (certPasses_succ cert x y rest i).mpr h⟩

theorem verifyCertChain_trusted (hverify : ∀ message signature key, ∃ verified,
      c.sigVerifyLib.verifyES256Signature message signature key = .ok verified)
    (certs : List ECSha256Certificate) :
    ∃ trusted, c.verifyCertChain now certs = .ok trusted ∧ (trusted = true ↔ c.Trusted now certs) := by
  induction certs with
  | nil =>
    refine ⟨false, rfl, ?_⟩
    simp [Trusted]
  | cons cert rest ih =>
    obtain ⟨trusted, hrest, htrusted⟩ := ih
    obtain ⟨verified, hverified⟩ := hverify cert.tbsCertificate cert.signature (rest.headD cert).pubKey
    rw [verifyCertChain_cons, trusted_cons, certPasses_zero, hverified, ok_bind, hrest]
    generalize rest.headD cert = issuer
    by_cases hrevoked : c.revokedBelow cert rest = true
    · refine ⟨false, if_pos hrevoked, ?_⟩
      simp [hrevoked]
    · by_cases hvalid : cert.notBefore < now ∧ now < cert.notAfter
      · cases verified with
        | false => exact ⟨false, by simp [hrevoked, hvalid], by simp⟩
        | true =>
          by_cases hroot : Precompiles.keccak256 issuer.pubKey = rootcaPubkeyHash
          · exact ⟨true, by rw [if_neg hrevoked]; simp [hvalid, hroot], by simp [hrevoked, hvalid, hroot]⟩
          · refine ⟨trusted, by rw [if_neg hrevoked, if_neg (by simpa using hvalid), if_neg hroot]; rfl, ?_⟩
            simp [hrevoked, hvalid, hroot, htrusted]
      · exact ⟨false, by simp [hrevoked, hvalid], by simp [hvalid]⟩

theorem verifyCertChainLoop_eq_trusted (hverify : ∀ message signature key, ∃ verified,
      c.sigVerifyLib.verifyES256Signature message signature key = .ok verified)
    (certs : List ECSha256Certificate) :
    ∃ trusted, c.verifyCertChainLoop now certs = .ok trusted ∧ (trusted = true ↔ c.Trusted now certs) := by
  rw [verifyCertChainLoop_eq]
  exact verifyCertChain_trusted hverify certs

end Loop

theorem verifyCertChainLoop_eq_trusted_sample :
    letI := trustingPrecompiles
    ∃ trusted, sampleContract.verifyCertChainLoop 5 [sampleCert, sampleCert, sampleCert] = .ok trusted ∧
      (trusted = true ↔ sampleContract.Trusted 5 [sampleCert, sampleCert, sampleCert]) := by
  let := trustingPrecompiles
  exact verifyCertChainLoop_eq_trusted (fun _ _ _ => ⟨true, rfl⟩) _

end AutomataDcapV3Attestation

end LineaSgxProver.Verifier
