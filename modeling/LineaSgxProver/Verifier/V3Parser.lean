import LineaSgxProver.Verifier.Solidity

namespace LineaSgxProver.Verifier

open Library

/-- `bytesN(b)`, of an array of `n` bytes. -/
def bytesN (n : ℕ) (b : Bytes) : BitVec (8 * n) := BitVec.ofNat (8 * n) (BigEndian.decode b)

/-- `BytesUtils.substring` -/
def substring (b : Bytes) (offset len : ℕ) : Checked Bytes := do
  require (offset + len ≤ b.length) ""
  .ok ((b.drop offset).take len)

theorem substring_eq_ok {b w : Bytes} {offset len : ℕ} :
    substring b offset len = .ok w ↔ offset + len ≤ b.length ∧ w = (b.drop offset).take len := by
  unfold substring
  rw [bind_eq_ok]
  constructor
  · rintro ⟨_, hlen, ⟨⟩⟩
    exact ⟨require_eq_ok.mp hlen, rfl⟩
  · rintro ⟨hlen, rfl⟩
    exact ⟨(), require_eq_ok.mpr hlen, rfl⟩

theorem substring_of_le {b : Bytes} {offset len : ℕ} (h : offset + len ≤ b.length) :
    substring b offset len = .ok ((b.drop offset).take len) :=
  substring_eq_ok.mpr ⟨h, rfl⟩

namespace V3Struct

structure Header where
  version : BitVec 16
  attestationKeyType : BitVec 16
  teeType : BitVec 32
  qeSvn : BitVec 16
  pceSvn : BitVec 16
  qeVendorId : BitVec 128
  userData : BitVec 160
  deriving DecidableEq

structure EnclaveReport where
  cpuSvn : BitVec 128
  miscSelect : BitVec 32
  reserved1 : BitVec 224
  attributes : BitVec 128
  mrEnclave : SH256
  reserved2 : SH256
  mrSigner : SH256
  reserved3 : Bytes
  isvProdId : UInt16
  isvSvn : UInt16
  reserved4 : Bytes
  reportData : Bytes
  deriving DecidableEq

structure QEAuthData where
  parsedDataSize : ℕ
  data : Bytes
  deriving DecidableEq

structure CertificationData where
  certType : ℕ
  certDataSize : ℕ
  certData : Bytes
  deriving DecidableEq

structure ECDSAQuoteV3AuthData where
  ecdsa256BitSignature : Bytes
  ecdsaAttestationKey : Bytes
  rawQeReport : Bytes
  qeReportSignature : Bytes
  qeAuthData : QEAuthData
  certification : CertificationData
  deriving DecidableEq

end V3Struct

namespace V3Parser

open V3Struct

def minimumQuoteLength : ℕ := 1020

def supportedQuoteVersion : BitVec 16 := 0x0300

def supportedAttestationKeyType : BitVec 16 := 0x0200

def supportedTeeType : BitVec 32 := 0

def validQeVendorId : BitVec 128 := 0x939a7233f79c4ca9940a0db3957f0607

/-- The digits of the `i`-th byte and of those after it. -/
def littleEndianFrom (i : ℕ) : Bytes → ℕ
  | [] => 0
  | b :: bs =>
    b.toNat % 16 * 16 ^ (2 * i) + b.toNat / 16 * 16 ^ (2 * i + 1) + littleEndianFrom (i + 1) bs

def littleEndianDecode (encoded : Bytes) : ℕ := littleEndianFrom 0 encoded

def parseEnclaveReport (raw : Bytes) : Checked EnclaveReport := do
  let cpuSvn ← substring raw 0 16
  let miscSelect ← substring raw 16 4
  let reserved1 ← substring raw 20 28
  let attributes ← substring raw 48 16
  let mrEnclave ← substring raw 64 32
  let reserved2 ← substring raw 96 32
  let mrSigner ← substring raw 128 32
  let reserved3 ← substring raw 160 96
  let isvProdId ← substring raw 256 2
  let isvSvn ← substring raw 258 2
  let reserved4 ← substring raw 260 60
  let reportData ← substring raw 320 64
  .ok
    { cpuSvn := bytesN 16 cpuSvn
      miscSelect := bytesN 4 miscSelect
      reserved1 := bytesN 28 reserved1
      attributes := bytesN 16 attributes
      mrEnclave := bytesN 32 mrEnclave
      reserved2 := bytesN 32 reserved2
      mrSigner := bytesN 32 mrSigner
      reserved3 := reserved3
      isvProdId := UInt16.ofNat (littleEndianDecode isvProdId)
      isvSvn := UInt16.ofNat (littleEndianDecode isvSvn)
      reserved4 := reserved4
      reportData := reportData }

def parseAndVerifyHeader (raw : Bytes) : Checked (Option Header) := do
  let version ← bytesN 2 <$> substring raw 0 2
  if version ≠ supportedQuoteVersion then .ok none else do
  let attestationKeyType ← bytesN 2 <$> substring raw 2 2
  if attestationKeyType ≠ supportedAttestationKeyType then .ok none else do
  let teeType ← bytesN 4 <$> substring raw 4 4
  if teeType ≠ supportedTeeType then .ok none else do
  let qeVendorId ← bytesN 16 <$> substring raw 12 16
  if qeVendorId ≠ validQeVendorId then .ok none else do
  let qeSvn ← bytesN 2 <$> substring raw 8 2
  let pceSvn ← bytesN 2 <$> substring raw 10 2
  let userData ← bytesN 20 <$> substring raw 28 20
  .ok (some ⟨version, attestationKeyType, teeType, qeSvn, pceSvn, qeVendorId, userData⟩)

def parseAuthDataAndVerifyCertType (raw : Bytes) : Checked (Option ECDSAQuoteV3AuthData) := do
  let parsedDataSize ← littleEndianDecode <$> substring raw 576 2
  let data ← substring raw 578 parsedDataSize
  let offset := 578 + parsedDataSize
  let certType ← littleEndianDecode <$> substring raw offset 2
  if certType < 1 ∨ 5 < certType then .ok none else do
  let certDataSize ← littleEndianDecode <$> substring raw (offset + 2) 4
  let certData ← substring raw (offset + 6) certDataSize
  let ecdsa256BitSignature ← substring raw 0 64
  let ecdsaAttestationKey ← substring raw 64 64
  let rawQeReport ← substring raw 128 384
  let qeReportSignature ← substring raw 512 64
  .ok (some ⟨ecdsa256BitSignature, ecdsaAttestationKey, rawQeReport, qeReportSignature,
    ⟨parsedDataSize, data⟩, ⟨certType, certDataSize, certData⟩⟩)

structure Parsed where
  header : Header
  localEnclaveReport : EnclaveReport
  signedQuoteData : Bytes
  authDataV3 : ECDSAQuoteV3AuthData
  deriving DecidableEq

def parseInput (quote : Bytes) : Checked (Option Parsed) := do
  if quote.length ≤ minimumQuoteLength then .ok none else do
  let localAuthDataSize ← littleEndianDecode <$> substring quote 432 4
  if quote.length - 436 ≠ localAuthDataSize then .ok none else do
  let rawHeader ← substring quote 0 48
  match ← parseAndVerifyHeader rawHeader with
  | none => .ok none
  | some header =>
    let rawAuthData ← substring quote 436 localAuthDataSize
    match ← parseAuthDataAndVerifyCertType rawAuthData with
    | none => .ok none
    | some authDataV3 =>
      let rawLocalEnclaveReport ← substring quote 48 384
      let localEnclaveReport ← parseEnclaveReport rawLocalEnclaveReport
      .ok (some ⟨header, localEnclaveReport, rawHeader ++ rawLocalEnclaveReport, authDataV3⟩)

theorem parseEnclaveReport_reportData {raw : Bytes} {report : EnclaveReport}
    (h : parseEnclaveReport raw = .ok report) :
    384 ≤ raw.length ∧ report.reportData = (raw.drop 320).take 64 := by
  unfold parseEnclaveReport at h
  iterate 11 obtain ⟨_, _, h⟩ := bind_eq_ok.mp h
  obtain ⟨reportData, hdata, h⟩ := bind_eq_ok.mp h
  obtain rfl := Except.ok.inj h
  exact substring_eq_ok.mp hdata

/-- The signed part of a quote is its first 432 bytes, and the report data the last 64 of these. -/
theorem parseInput_eq_some {quote : Bytes} {parsed : Parsed} (h : parseInput quote = .ok (some parsed)) :
    minimumQuoteLength < quote.length ∧ parsed.signedQuoteData = quote.take 432 ∧
      parsed.localEnclaveReport.reportData = (quote.drop 368).take 64 := by
  unfold parseInput at h
  split_ifs at h with hlen
  · cases h
  obtain ⟨size, _, h⟩ := bind_eq_ok.mp h
  split_ifs at h
  · cases h
  obtain ⟨rawHeader, hheader, h⟩ := bind_eq_ok.mp h
  obtain ⟨header, _, h⟩ := bind_eq_ok.mp h
  cases header with
  | none => cases h
  | some header =>
    obtain ⟨rawAuthData, _, h⟩ := bind_eq_ok.mp h
    obtain ⟨authData, _, h⟩ := bind_eq_ok.mp h
    cases authData with
    | none => cases h
    | some authData =>
      obtain ⟨rawReport, hraw, h⟩ := bind_eq_ok.mp h
      obtain ⟨report, hreport, h⟩ := bind_eq_ok.mp h
      obtain rfl := Option.some.inj (Except.ok.inj h)
      obtain ⟨_, rfl⟩ := substring_eq_ok.mp hheader
      obtain ⟨_, rfl⟩ := substring_eq_ok.mp hraw
      obtain ⟨_, hdata⟩ := parseEnclaveReport_reportData hreport
      refine ⟨by omega, ?_, ?_⟩
      · exact (List.take_add (l := quote) (i := 48) (j := 384)).symm
      · rw [hdata, List.drop_take, List.drop_drop, List.take_take]
        rfl

end V3Parser

end LineaSgxProver.Verifier
