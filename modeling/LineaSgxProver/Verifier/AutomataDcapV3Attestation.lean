import LineaSgxProver.Verifier.V3Parser
import LineaSgxProver.Verifier.SGXVerifier

namespace LineaSgxProver.Verifier

open Library
open V3Struct (EnclaveReport ECDSAQuoteV3AuthData)

namespace EnclaveIdStruct

inductive EnclaveIdStatus where
  | ok
  | sgxEnclaveReportIsvsvnRevoked
  deriving DecidableEq

structure TcbLevel where
  isvsvn : UInt16
  tcbStatus : EnclaveIdStatus

structure EnclaveId where
  miscselect : BitVec 32
  miscselectMask : BitVec 32
  isvprodid : UInt16
  attributes : BitVec 128
  attributesMask : BitVec 128
  mrsigner : SH256
  tcbLevels : List TcbLevel

end EnclaveIdStruct

namespace TCBInfoStruct

inductive TCBStatus where
  | ok
  | tcbSwHardeningNeeded
  | tcbConfigurationAndSwHardeningNeeded
  | tcbConfigurationNeeded
  | tcbOutOfDate
  | tcbOutOfDateConfigurationNeeded
  | tcbRevoked
  | tcbUnrecognized
  deriving DecidableEq

structure TCBLevelObj where
  pcesvn : SU256
  sgxTcbCompSvnArr : List SU256
  status : TCBStatus

structure TCBInfo where
  pceid : Bytes
  fmspc : Bytes
  tcbLevels : List TCBLevelObj

end TCBInfoStruct

open EnclaveIdStruct TCBInfoStruct

structure PCKTCBInfo where
  pceid : Bytes
  fmspc : Bytes
  pcesvn : SU256
  sgxTcbCompSvnArr : List SU256

structure PCKCertificateField where
  commonName : Bytes
  issuerName : Bytes
  sgxExtension : PCKTCBInfo

structure ECSha256Certificate where
  notBefore : SU256
  notAfter : SU256
  serialNumber : Bytes
  tbsCertificate : Bytes
  pubKey : Bytes
  signature : Bytes
  isPck : Bool
  pck : PCKCertificateField

inductive CRL where
  | pck
  | root

structure IPEMCertChainLib where
  splitCertificateChain : Bytes → ℕ → Checked (Bool × List Bytes)
  decodeCert : Bytes → Bool → Checked (Bool × ECSha256Certificate)

structure ISigVerifyLib where
  verifyES256Signature : Bytes → Bytes → Bytes → Checked Bool

class Solady where
  base64Decode : Bytes → Bytes
  eq : Bytes → Bytes → Bool

structure AutomataDcapV3Attestation where
  sigVerifyLib : ISigVerifyLib
  pemCertLib : IPEMCertChainLib
  checkLocalEnclaveReport : Bool
  trustedUserMrEnclave : SH256 → Bool
  trustedUserMrSigner : SH256 → Bool
  serialNumIsRevoked : CRL → Bytes → Bool
  tcbInfo : Bytes → TCBInfo
  qeIdentity : EnclaveId

namespace AutomataDcapV3Attestation

def cpusvnLength : ℕ := 16

def rootcaPubkeyHash : SH256 := 0x89f72d7c488e5b53a77c23ebcb36970ef7eb5bcf6658e9b8292cfbe4703a8473

def attestationTcbIsValid (status : TCBStatus) : Bool := status = .ok || status = .tcbSwHardeningNeeded

def verifyMrEnclave (c : AutomataDcapV3Attestation) (mrEnclave : SH256) : Bool :=
  c.trustedUserMrEnclave mrEnclave

def verifyMrSigner (c : AutomataDcapV3Attestation) (mrSigner : SH256) : Bool :=
  c.trustedUserMrSigner mrSigner

def verifyQEReportWithIdentity (c : AutomataDcapV3Attestation) (quoteEnclaveReport : EnclaveReport) :
    Bool × EnclaveIdStatus :=
  let enclaveId := c.qeIdentity
  let miscselectMatched := quoteEnclaveReport.miscSelect &&& enclaveId.miscselectMask == enclaveId.miscselect
  let attributesMatched := quoteEnclaveReport.attributes &&& enclaveId.attributesMask == enclaveId.attributes
  let mrsignerMatched := quoteEnclaveReport.mrSigner == enclaveId.mrsigner
  let isvprodidMatched := quoteEnclaveReport.isvProdId == enclaveId.isvprodid
  match enclaveId.tcbLevels.find? fun tcb => tcb.isvsvn ≤ quoteEnclaveReport.isvSvn with
  | some tcb =>
    (miscselectMatched && attributesMatched && mrsignerMatched && isvprodidMatched, tcb.tcbStatus)
  | none => (false, .ok)

def isCpuSvnHigherOrGreater (pckCpuSvns tcbCpuSvns : List SU256) : Bool :=
  if pckCpuSvns.length ≠ cpusvnLength ∨ tcbCpuSvns.length ≠ cpusvnLength then false
  else (pckCpuSvns.zip tcbCpuSvns).all fun svns => ! (svns.1 < svns.2 : Bool)

def checkTcbLevels (pck : PCKCertificateField) (levels : List TCBLevelObj) : Bool × TCBStatus :=
  match levels with
  | [] => (true, .tcbUnrecognized)
  | current :: rest =>
    if current.pcesvn ≤ pck.sgxExtension.pcesvn ∧
        isCpuSvnHigherOrGreater pck.sgxExtension.sgxTcbCompSvnArr current.sgxTcbCompSvnArr = true then
      (current.status ≠ .tcbRevoked, current.status)
    else checkTcbLevels pck rest

section Signatures

variable [Precompiles]

/-- The certificates from one on, each with the next one for its issuer, up to the root. -/
def verifyCertChain (c : AutomataDcapV3Attestation) (now : SU256) : List ECSha256Certificate → Checked Bool
  | [] => .ok false
  | cert :: rest => do
    let issuer := rest.headD cert
    let certRevoked :=
      match rest with
      | [] => false
      | [_] => c.serialNumIsRevoked .root cert.serialNumber
      | _ => cert.isPck && c.serialNumIsRevoked .pck cert.serialNumber
    let certNotExpired : Bool := cert.notBefore < now ∧ now < cert.notAfter
    if certRevoked then .ok false
    else if ! certNotExpired then .ok false
    else do
      let verified ← c.sigVerifyLib.verifyES256Signature cert.tbsCertificate cert.signature issuer.pubKey
      if ! verified then .ok false
      else if Precompiles.keccak256 issuer.pubKey = rootcaPubkeyHash then .ok true
      else c.verifyCertChain now rest

def enclaveReportSigVerification (c : AutomataDcapV3Attestation) (pckCertPubKey signedQuoteData : Bytes)
    (authDataV3 : ECDSAQuoteV3AuthData) (qeEnclaveReport : EnclaveReport) : Checked Bool := do
  let expectedAuthDataHash ← bytesN 32 <$> substring qeEnclaveReport.reportData 0 32
  let computedAuthDataHash :=
    Precompiles.sha256 (authDataV3.ecdsaAttestationKey ++ authDataV3.qeAuthData.data)
  if expectedAuthDataHash = computedAuthDataHash then do
    let qeSigVerified ← c.sigVerifyLib.verifyES256Signature authDataV3.rawQeReport
      authDataV3.qeReportSignature pckCertPubKey
    let quoteSigVerified ← c.sigVerifyLib.verifyES256Signature signedQuoteData
      authDataV3.ecdsa256BitSignature authDataV3.ecdsaAttestationKey
    .ok (qeSigVerified && quoteSigVerified)
  else .ok false

variable [Solady]

/-- The certificates at some places of the chain, or none where one does not decode. -/
def decodeCerts (c : AutomataDcapV3Attestation) (quoteCerts : List Bytes) :
    List ℕ → Checked (Option (List ECSha256Certificate))
  | [] => .ok (some [])
  | i :: is => do
    let quoteCert ← index quoteCerts i
    let (certDecodedSuccessfully, cert) ←
      c.pemCertLib.decodeCert (Solady.base64Decode quoteCert) (i == 0)
    if ! certDecodedSuccessfully then .ok none
    else do
      let certs ← c.decodeCerts quoteCerts is
      .ok (certs.map (cert :: ·))

/-- The steps of `_verify` on the decoded certificates. -/
def verifyCollateral (c : AutomataDcapV3Attestation) (now : SU256) (parsed : V3Parser.Parsed)
    (qeEnclaveReport : EnclaveReport) (parsedQuoteCerts : List ECSha256Certificate) :
    Checked (Bool × Bytes) := do
  let reportData := parsed.localEnclaveReport.reportData
  let pckCert ← index parsedQuoteCerts 0
  let parsedFmspc := pckCert.pck.sgxExtension.fmspc
  let fetchedTcbInfo := c.tcbInfo parsedFmspc
  let tcbConfigured := Solady.eq parsedFmspc fetchedTcbInfo.fmspc
  if ! tcbConfigured then .ok (false, reportData) else
  let pceidMatched := Solady.eq pckCert.pck.sgxExtension.pceid fetchedTcbInfo.pceid
  if ! pceidMatched then .ok (false, reportData) else
  let (tcbVerified, tcbStatus) := checkTcbLevels pckCert.pck fetchedTcbInfo.tcbLevels
  if ! tcbVerified then .ok (false, reportData) else do
  let pckCertChainVerified ← c.verifyCertChain now parsedQuoteCerts
  if ! pckCertChainVerified then .ok (false, reportData) else do
  let enclaveReportSigsVerified ← c.enclaveReportSigVerification pckCert.pubKey parsed.signedQuoteData
    parsed.authDataV3 qeEnclaveReport
  if ! enclaveReportSigsVerified then .ok (false, reportData) else
  .ok (attestationTcbIsValid tcbStatus, reportData)

def verify (c : AutomataDcapV3Attestation) (now : SU256) (quote : Bytes) : Checked (Bool × Bytes) := do
  match ← V3Parser.parseInput quote with
  | none => .ok (false, List.replicate 64 0)
  | some parsed =>
    let reportData := parsed.localEnclaveReport.reportData
    let mrEnclaveIsTrusted := c.trustedUserMrEnclave parsed.localEnclaveReport.mrEnclave
    let mrSignerIsTrusted := c.trustedUserMrSigner parsed.localEnclaveReport.mrSigner
    if c.checkLocalEnclaveReport && (! mrEnclaveIsTrusted || ! mrSignerIsTrusted) then
      .ok (false, reportData) else do
    let qeEnclaveReport ← V3Parser.parseEnclaveReport parsed.authDataV3.rawQeReport
    let (verifiedEnclaveIdSuccessfully, qeTcbStatus) := c.verifyQEReportWithIdentity qeEnclaveReport
    if ! verifiedEnclaveIdSuccessfully || qeTcbStatus = .sgxEnclaveReportIsvsvnRevoked then
      .ok (false, reportData) else do
    let (certParsedSuccessfully, quoteCerts) ←
      c.pemCertLib.splitCertificateChain parsed.authDataV3.certification.certData 3
    if ! certParsedSuccessfully then .ok (false, reportData) else do
    match ← c.decodeCerts quoteCerts [0, 1, 2] with
    | none => .ok (false, reportData)
    | some parsedQuoteCerts => c.verifyCollateral now parsed qeEnclaveReport parsedQuoteCerts

def verifyAttestation (c : AutomataDcapV3Attestation) (now : SU256) (data : Bytes) :
    Checked (Bool × Bytes) := c.verify now data

def answers (c : AutomataDcapV3Attestation) (now : SU256) : IAttestation where
  verifyAttestation data := c.verifyAttestation now data
  verifyMrEnclave mrEnclave := .ok (c.verifyMrEnclave mrEnclave)
  verifyMrSigner mrSigner := .ok (c.verifyMrSigner mrSigner)

end Signatures

end AutomataDcapV3Attestation

end LineaSgxProver.Verifier
