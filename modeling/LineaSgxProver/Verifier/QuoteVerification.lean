import LineaSgxProver.Verifier.AutomataDcapV3Attestation
import LineaSgxProver.Verifier.CommitBatch
import Mathlib.Data.List.Forall2

namespace LineaSgxProver.Verifier

open Library
open V3Struct (EnclaveReport ECDSAQuoteV3AuthData)
open EnclaveIdStruct TCBInfoStruct

def FirstHas {α : Type} (P Q : α → Prop) (l : List α) : Prop :=
  ∃ before x later, l = before ++ x :: later ∧ (∀ y ∈ before, ¬ P y) ∧ P x ∧ Q x

theorem firstHas_nil {α : Type} {P Q : α → Prop} : ¬ FirstHas P Q [] := by
  rintro ⟨before, x, later, h, _⟩
  simp at h

theorem firstHas_cons {α : Type} {P Q : α → Prop} {x : α} {l : List α} :
    FirstHas P Q (x :: l) ↔ P x ∧ Q x ∨ ¬ P x ∧ FirstHas P Q l := by
  constructor
  · rintro ⟨before, y, later, h, hbefore, hP, hQ⟩
    cases before with
    | nil =>
      obtain ⟨rfl, rfl⟩ := List.cons.inj h
      exact Or.inl ⟨hP, hQ⟩
    | cons z before =>
      obtain ⟨rfl, rfl⟩ := List.cons.inj h
      exact Or.inr ⟨hbefore x (List.mem_cons_self ..), before, y, later, rfl,
        fun w hw => hbefore w (List.mem_cons_of_mem _ hw), hP, hQ⟩
  · rintro (⟨hP, hQ⟩ | ⟨hx, before, y, later, rfl, hbefore, hP, hQ⟩)
    · refine ⟨[], x, l, rfl, ?_, hP, hQ⟩
      intro y hy
      cases hy
    · refine ⟨x :: before, y, later, rfl, ?_, hP, hQ⟩
      intro w hw
      rcases List.mem_cons.mp hw with rfl | hw
      · exact hx
      · exact hbefore w hw

theorem firstHas_iff_find {α : Type} {P Q : α → Prop} [DecidablePred P] {l : List α} :
    FirstHas P Q l ↔ ∃ x, l.find? (fun y => P y) = some x ∧ Q x := by
  induction l with
  | nil => simp [firstHas_nil]
  | cons x l ih =>
    rw [firstHas_cons, ih, List.find?_cons]
    by_cases hx : P x <;> simp [hx]

namespace AutomataDcapV3Attestation

/-- The report of the quoting enclave is one that the contract's identity names. -/
structure MatchesIdentity (enclaveId : EnclaveId) (report : EnclaveReport) : Prop where
  miscselect : report.miscSelect &&& enclaveId.miscselectMask = enclaveId.miscselect
  attributes : report.attributes &&& enclaveId.attributesMask = enclaveId.attributes
  mrsigner : report.mrSigner = enclaveId.mrsigner
  isvprodid : report.isvProdId = enclaveId.isvprodid

/-- The certificate has the security versions that a TCB level asks for. -/
structure Dominates (pck : PCKTCBInfo) (level : TCBLevelObj) : Prop where
  pcesvn : level.pcesvn ≤ pck.pcesvn
  length : pck.sgxTcbCompSvnArr.length = cpusvnLength
  components : List.Forall₂ (fun pckSvn levelSvn => levelSvn ≤ pckSvn) pck.sgxTcbCompSvnArr
    level.sgxTcbCompSvnArr

theorem isCpuSvnHigherOrGreater_iff {pckCpuSvns tcbCpuSvns : List SU256} :
    isCpuSvnHigherOrGreater pckCpuSvns tcbCpuSvns = true ↔ pckCpuSvns.length = cpusvnLength ∧
      List.Forall₂ (fun pckSvn levelSvn => levelSvn ≤ pckSvn) pckCpuSvns tcbCpuSvns := by
  unfold isCpuSvnHigherOrGreater
  rw [List.forall₂_iff_zip]
  constructor
  · intro h
    split_ifs at h with hlen
    push Not at hlen
    refine ⟨hlen.1, hlen.1.trans hlen.2.symm, ?_⟩
    intro pckSvn levelSvn hmem
    have hle := List.all_eq_true.mp h _ hmem
    simpa using hle
  · rintro ⟨hpck, hlen, hall⟩
    have hbad : ¬ (pckCpuSvns.length ≠ cpusvnLength ∨ tcbCpuSvns.length ≠ cpusvnLength) := by
      omega
    rw [if_neg hbad, List.all_eq_true]
    rintro ⟨pckSvn, levelSvn⟩ hmem
    simpa using hall hmem

theorem dominates_iff {pck : PCKCertificateField} {level : TCBLevelObj} :
    level.pcesvn ≤ pck.sgxExtension.pcesvn ∧
        isCpuSvnHigherOrGreater pck.sgxExtension.sgxTcbCompSvnArr level.sgxTcbCompSvnArr = true ↔
      Dominates pck.sgxExtension level := by
  rw [isCpuSvnHigherOrGreater_iff]
  constructor
  · rintro ⟨hpcesvn, hlength, hcomponents⟩
    exact ⟨hpcesvn, hlength, hcomponents⟩
  · rintro ⟨hpcesvn, hlength, hcomponents⟩
    exact ⟨hpcesvn, hlength, hcomponents⟩

theorem checkTcbLevels_iff {pck : PCKCertificateField} {levels : List TCBLevelObj} :
    (checkTcbLevels pck levels).1 = true ∧ attestationTcbIsValid (checkTcbLevels pck levels).2 = true ↔
      FirstHas (Dominates pck.sgxExtension)
        (fun level => level.status = .ok ∨ level.status = .tcbSwHardeningNeeded) levels := by
  induction levels with
  | nil =>
    constructor
    · rintro ⟨_, h⟩
      cases h
    · intro h
      exact absurd h firstHas_nil
  | cons level rest ih =>
    rw [firstHas_cons, checkTcbLevels, ← dominates_iff]
    split_ifs with h
    · simp only [h, and_self, true_and, not_true_eq_false, false_and, or_false]
      cases level.status <;> simp [attestationTcbIsValid]
    · simp only [h, false_and, not_false_eq_true, true_and, false_or]
      exact ih

theorem verifyQEReportWithIdentity_iff {c : AutomataDcapV3Attestation} {report : EnclaveReport} :
    (c.verifyQEReportWithIdentity report).1 = true ∧
        (c.verifyQEReportWithIdentity report).2 ≠ .sgxEnclaveReportIsvsvnRevoked ↔
      MatchesIdentity c.qeIdentity report ∧
        FirstHas (fun level => level.isvsvn ≤ report.isvSvn)
          (fun level => level.tcbStatus ≠ .sgxEnclaveReportIsvsvnRevoked) c.qeIdentity.tcbLevels := by
  rw [firstHas_iff_find]
  unfold verifyQEReportWithIdentity
  cases hfind : c.qeIdentity.tcbLevels.find? fun tcb => tcb.isvsvn ≤ report.isvSvn with
  | none =>
    constructor
    · rintro ⟨h, _⟩
      simp [hfind] at h
    · rintro ⟨_, level, h, _⟩
      cases h
  | some level =>
    simp only [hfind]
    constructor
    · rintro ⟨h, hstatus⟩
      simp only [Bool.and_eq_true, beq_iff_eq] at h
      obtain ⟨⟨⟨hmiscselect, hattributes⟩, hmrsigner⟩, hisvprodid⟩ := h
      exact ⟨⟨hmiscselect, hattributes, hmrsigner, hisvprodid⟩, level, rfl, hstatus⟩
    · rintro ⟨⟨hmiscselect, hattributes, hmrsigner, hisvprodid⟩, _, ⟨⟩, hstatus⟩
      simp only [Bool.and_eq_true, beq_iff_eq]
      exact ⟨⟨⟨⟨hmiscselect, hattributes⟩, hmrsigner⟩, hisvprodid⟩, hstatus⟩

theorem identityRefused_iff {c : AutomataDcapV3Attestation} {report : EnclaveReport} :
    (! (c.verifyQEReportWithIdentity report).1 ||
        (c.verifyQEReportWithIdentity report).2 = .sgxEnclaveReportIsvsvnRevoked) = false ↔
      MatchesIdentity c.qeIdentity report ∧
        FirstHas (fun level => level.isvsvn ≤ report.isvSvn)
          (fun level => level.tcbStatus ≠ .sgxEnclaveReportIsvsvnRevoked) c.qeIdentity.tcbLevels := by
  rw [← verifyQEReportWithIdentity_iff]
  simp

section Verify

variable [Precompiles] [Solady] {c : AutomataDcapV3Attestation} {now : SU256} {quote rd : Bytes}

def Decodes (c : AutomataDcapV3Attestation) (quoteCerts : List Bytes) (i : ℕ) (cert : ECSha256Certificate) :
    Prop :=
  ∃ quoteCert, quoteCerts[i]? = some quoteCert ∧
    c.pemCertLib.decodeCert (Solady.base64Decode quoteCert) (i == 0) = .ok (true, cert)

structure Accepts (c : AutomataDcapV3Attestation) (now : SU256) (quote : Bytes) (parsed : V3Parser.Parsed)
    (qeReport : EnclaveReport) (quoteCerts : List Bytes) (pck issuer root : ECSha256Certificate) :
    Prop where
  parses : V3Parser.parseInput quote = .ok (some parsed)
  trusted : c.checkLocalEnclaveReport = true →
    c.trustedUserMrEnclave parsed.localEnclaveReport.mrEnclave = true ∧
      c.trustedUserMrSigner parsed.localEnclaveReport.mrSigner = true
  qeParses : V3Parser.parseEnclaveReport parsed.authDataV3.rawQeReport = .ok qeReport
  qeMatches : MatchesIdentity c.qeIdentity qeReport
  qeLevel : FirstHas (fun level => level.isvsvn ≤ qeReport.isvSvn)
    (fun level => level.tcbStatus ≠ .sgxEnclaveReportIsvsvnRevoked) c.qeIdentity.tcbLevels
  splits : c.pemCertLib.splitCertificateChain parsed.authDataV3.certification.certData 3 =
    .ok (true, quoteCerts)
  decodes : List.Forall₂ (Decodes c quoteCerts) [0, 1, 2] [pck, issuer, root]
  fmspc : (c.tcbInfo pck.pck.sgxExtension.fmspc).fmspc = pck.pck.sgxExtension.fmspc
  pceid : (c.tcbInfo pck.pck.sgxExtension.fmspc).pceid = pck.pck.sgxExtension.pceid
  level : FirstHas (Dominates pck.pck.sgxExtension)
    (fun level => level.status = .ok ∨ level.status = .tcbSwHardeningNeeded)
    (c.tcbInfo pck.pck.sgxExtension.fmspc).tcbLevels
  chain : c.verifyCertChain now [pck, issuer, root] = .ok true
  authData : Precompiles.sha256 (parsed.authDataV3.ecdsaAttestationKey ++ parsed.authDataV3.qeAuthData.data) =
    bytesN 32 (qeReport.reportData.take 32)
  qeSigned : c.sigVerifyLib.verifyES256Signature parsed.authDataV3.rawQeReport
    parsed.authDataV3.qeReportSignature pck.pubKey = .ok true
  quoteSigned : c.sigVerifyLib.verifyES256Signature (quote.take 432)
    parsed.authDataV3.ecdsa256BitSignature parsed.authDataV3.ecdsaAttestationKey = .ok true

omit [Precompiles] in
theorem decodeCerts_eq_some {quoteCerts : List Bytes} {is : List ℕ} {certs : List ECSha256Certificate} :
    c.decodeCerts quoteCerts is = .ok (some certs) ↔ List.Forall₂ (Decodes c quoteCerts) is certs := by
  induction is generalizing certs with
  | nil =>
    rw [decodeCerts, List.forall₂_nil_left_iff]
    constructor
    · rintro ⟨⟩
      rfl
    · rintro rfl
      rfl
  | cons i is ih =>
    rw [decodeCerts, List.forall₂_cons_left_iff]
    constructor
    · intro h
      obtain ⟨quoteCert, hindex, h⟩ := bind_eq_ok.mp h
      obtain ⟨⟨decoded, cert⟩, hdecode, h⟩ := bind_eq_ok.mp h
      cases decoded with
      | false => cases h
      | true =>
        obtain ⟨rest, hrest, h⟩ := bind_eq_ok.mp h
        obtain ⟨rest', rfl, rfl⟩ := Option.map_eq_some_iff.mp (Except.ok.inj h)
        exact ⟨cert, rest', ⟨quoteCert, index_eq_ok.mp hindex, hdecode⟩, ih.mp hrest, rfl⟩
    · rintro ⟨cert, rest, ⟨quoteCert, hindex, hdecode⟩, hrest, rfl⟩
      refine bind_eq_ok.mpr ⟨quoteCert, index_eq_ok.mpr hindex, bind_eq_ok.mpr ⟨_, hdecode, ?_⟩⟩
      exact bind_eq_ok.mpr ⟨some rest, ih.mpr hrest, rfl⟩

omit [Solady] in
theorem enclaveReportSigVerification_eq_ok {pubKey signed : Bytes} {auth : ECDSAQuoteV3AuthData}
    {qeReport : EnclaveReport} :
    c.enclaveReportSigVerification pubKey signed auth qeReport = .ok true ↔
      32 ≤ qeReport.reportData.length ∧
        Precompiles.sha256 (auth.ecdsaAttestationKey ++ auth.qeAuthData.data) =
          bytesN 32 (qeReport.reportData.take 32) ∧
        c.sigVerifyLib.verifyES256Signature auth.rawQeReport auth.qeReportSignature pubKey = .ok true ∧
        c.sigVerifyLib.verifyES256Signature signed auth.ecdsa256BitSignature
          auth.ecdsaAttestationKey = .ok true := by
  unfold enclaveReportSigVerification
  constructor
  · intro h
    obtain ⟨expected, hexpected, h⟩ := bind_eq_ok.mp h
    obtain ⟨data, hdata, rfl⟩ := map_eq_ok.mp hexpected
    obtain ⟨hlen, rfl⟩ := substring_eq_ok.mp hdata
    dsimp only at h
    split_ifs at h with hhash
    · obtain ⟨qeSigVerified, hqe, h⟩ := bind_eq_ok.mp h
      obtain ⟨quoteSigVerified, hquote, h⟩ := bind_eq_ok.mp h
      obtain ⟨rfl, rfl⟩ := Bool.and_eq_true_iff.mp (Except.ok.inj h)
      exact ⟨by omega, hhash.symm, hqe, hquote⟩
    · cases h
  · rintro ⟨hlen, hhash, hqe, hquote⟩
    have hdata := substring_eq_ok.mpr ⟨(by omega : 0 + 32 ≤ qeReport.reportData.length), rfl⟩
    refine bind_eq_ok.mpr ⟨_, map_eq_ok.mpr ⟨_, hdata, rfl⟩, ?_⟩
    rw [List.drop_zero, if_pos hhash.symm]
    exact bind_eq_ok.mpr ⟨true, hqe, bind_eq_ok.mpr ⟨true, hquote, rfl⟩⟩

omit [Precompiles] [Solady] in
theorem refuses_eq_ok {b : Bool} {data rd : Bytes} {rest : Checked (Bool × Bytes)} :
    (if b = true then .ok (false, data) else rest) = (.ok (true, rd) : Checked (Bool × Bytes)) ↔
      b = false ∧ rest = .ok (true, rd) := by
  cases b <;> simp

omit [Precompiles] [Solady] in
theorem requires_eq_ok {b : Bool} {data rd : Bytes} {rest : Checked (Bool × Bytes)} :
    (if ! b then .ok (false, data) else rest) = (.ok (true, rd) : Checked (Bool × Bytes)) ↔
      b = true ∧ rest = .ok (true, rd) := by
  cases b <;> simp

theorem verifyCollateral_eq_ok (heq : ∀ a b, Solady.eq a b = true ↔ a = b) {parsed : V3Parser.Parsed}
    {qeReport : EnclaveReport} {pck : ECSha256Certificate} {rest : List ECSha256Certificate} :
    c.verifyCollateral now parsed qeReport (pck :: rest) = .ok (true, rd) ↔
      (c.tcbInfo pck.pck.sgxExtension.fmspc).fmspc = pck.pck.sgxExtension.fmspc ∧
        (c.tcbInfo pck.pck.sgxExtension.fmspc).pceid = pck.pck.sgxExtension.pceid ∧
        FirstHas (Dominates pck.pck.sgxExtension)
          (fun level => level.status = .ok ∨ level.status = .tcbSwHardeningNeeded)
          (c.tcbInfo pck.pck.sgxExtension.fmspc).tcbLevels ∧
        c.verifyCertChain now (pck :: rest) = .ok true ∧
        c.enclaveReportSigVerification pck.pubKey parsed.signedQuoteData parsed.authDataV3 qeReport =
          .ok true ∧
        rd = parsed.localEnclaveReport.reportData := by
  rw [← checkTcbLevels_iff, eq_comm (a := (c.tcbInfo _).fmspc), eq_comm (a := (c.tcbInfo _).pceid),
    ← heq, ← heq]
  unfold verifyCollateral
  constructor
  · intro h
    obtain ⟨_, ⟨⟩, h⟩ := bind_eq_ok.mp h
    obtain ⟨hfmspc, h⟩ := requires_eq_ok.mp h
    obtain ⟨hpceid, h⟩ := requires_eq_ok.mp h
    obtain ⟨hverified, h⟩ := requires_eq_ok.mp h
    obtain ⟨_, hchain, h⟩ := bind_eq_ok.mp h
    obtain ⟨rfl, h⟩ := requires_eq_ok.mp h
    obtain ⟨_, hsigs, h⟩ := bind_eq_ok.mp h
    obtain ⟨rfl, h⟩ := requires_eq_ok.mp h
    obtain ⟨hvalid, rfl⟩ := Prod.mk.inj (Except.ok.inj h)
    exact ⟨hfmspc, hpceid, ⟨hverified, hvalid⟩, hchain, hsigs, rfl⟩
  · rintro ⟨hfmspc, hpceid, ⟨hverified, hvalid⟩, hchain, hsigs, rfl⟩
    refine bind_eq_ok.mpr ⟨pck, rfl, requires_eq_ok.mpr ⟨hfmspc, requires_eq_ok.mpr ⟨hpceid, ?_⟩⟩⟩
    refine requires_eq_ok.mpr ⟨hverified, bind_eq_ok.mpr ⟨true, hchain, requires_eq_ok.mpr ⟨rfl, ?_⟩⟩⟩
    refine bind_eq_ok.mpr ⟨true, hsigs, requires_eq_ok.mpr ⟨rfl, ?_⟩⟩
    rw [hvalid]

/-- A quote is accepted exactly when it passes every check, and then its report data is returned. -/
theorem verify_eq_ok_iff (heq : ∀ a b, Solady.eq a b = true ↔ a = b) (c : AutomataDcapV3Attestation)
    (now : SU256) (quote rd : Bytes) :
    c.verify now quote = .ok (true, rd) ↔
      (∃ parsed qeReport quoteCerts pck issuer root,
        Accepts c now quote parsed qeReport quoteCerts pck issuer root) ∧
      rd = (quote.drop 368).take 64 := by
  unfold verify
  constructor
  · intro h
    obtain ⟨parsed, hparse, h⟩ := bind_eq_ok.mp h
    cases parsed with
    | none => cases h
    | some parsed =>
      obtain ⟨htrusted, h⟩ := refuses_eq_ok.mp h
      obtain ⟨qeReport, hqe, h⟩ := bind_eq_ok.mp h
      obtain ⟨hidentity, h⟩ := refuses_eq_ok.mp h
      obtain ⟨⟨split, quoteCerts⟩, hsplit, h⟩ := bind_eq_ok.mp h
      obtain ⟨rfl, h⟩ := requires_eq_ok.mp h
      obtain ⟨certs, hcerts, h⟩ := bind_eq_ok.mp h
      cases certs with
      | none => cases h
      | some certs =>
        have hdecodes := decodeCerts_eq_some.mp hcerts
        obtain ⟨pck, issuer, root, rfl⟩ := List.length_eq_three.mp hdecodes.length_eq.symm
        obtain ⟨hfmspc, hpceid, hlevel, hchain, hsigs, rfl⟩ := (verifyCollateral_eq_ok heq).mp h
        obtain ⟨_, hhash, hqeSigned, hquoteSigned⟩ := enclaveReportSigVerification_eq_ok.mp hsigs
        obtain ⟨_, hsigned, hdata⟩ := V3Parser.parseInput_eq_some hparse
        obtain ⟨hmatches, hqeLevel⟩ := identityRefused_iff.mp hidentity
        rw [hsigned] at hquoteSigned
        refine ⟨⟨parsed, qeReport, quoteCerts, pck, issuer, root, ?_⟩, hdata⟩
        exact
          { parses := hparse
            trusted := by
              intro hcheck
              simpa [hcheck] using htrusted
            qeParses := hqe
            qeMatches := hmatches
            qeLevel := hqeLevel
            splits := hsplit
            decodes := hdecodes
            fmspc := hfmspc
            pceid := hpceid
            level := hlevel
            chain := hchain
            authData := hhash
            qeSigned := hqeSigned
            quoteSigned := hquoteSigned }
  · rintro ⟨⟨parsed, qeReport, quoteCerts, pck, issuer, root, h⟩, rfl⟩
    obtain ⟨_, hsigned, hdata⟩ := V3Parser.parseInput_eq_some h.parses
    obtain ⟨hraw, hqeData⟩ := V3Parser.parseEnclaveReport_reportData h.qeParses
    have hlen : 32 ≤ qeReport.reportData.length := by
      rw [hqeData, List.length_take, List.length_drop]
      omega
    have hquoteSigned := h.quoteSigned
    rw [← hsigned] at hquoteSigned
    have hsigs := enclaveReportSigVerification_eq_ok.mpr ⟨hlen, h.authData, h.qeSigned, hquoteSigned⟩
    have hidentity := identityRefused_iff.mpr ⟨h.qeMatches, h.qeLevel⟩
    refine bind_eq_ok.mpr ⟨some parsed, h.parses, refuses_eq_ok.mpr ⟨?_, ?_⟩⟩
    · cases hcheck : c.checkLocalEnclaveReport with
      | false => rfl
      | true => simpa using h.trusted hcheck
    · refine bind_eq_ok.mpr ⟨qeReport, h.qeParses, refuses_eq_ok.mpr ⟨hidentity, ?_⟩⟩
      refine bind_eq_ok.mpr ⟨(true, quoteCerts), h.splits, requires_eq_ok.mpr ⟨rfl, ?_⟩⟩
      refine bind_eq_ok.mpr ⟨some [pck, issuer, root], decodeCerts_eq_some.mpr h.decodes, ?_⟩
      exact (verifyCollateral_eq_ok heq).mpr ⟨h.fmspc, h.pceid, h.level, h.chain, hsigs, hdata.symm⟩

theorem submitAttestationReport_accepts (heq : ∀ a b, Solady.eq a b = true ↔ a = b)
    {v v' : SGXVerifier} {env : Env} {prover : Address} {e : Event}
    (henv : env.dcapAttestation = c.answers env.timestamp)
    (h : v.submitAttestationReport env prover quote = .ok (v', e)) :
    (∃ parsed qeReport quoteCerts pck issuer root,
      Accepts c env.timestamp quote parsed qeReport quoteCerts pck issuer root) ∧
      prover = BitVec.ofNat 160 (BigEndian.decode ((quote.drop 412).take 20)) := by
  obtain ⟨hcheck, _⟩ := SGXVerifier.submitAttestationReport_eq_ok.mp h
  obtain ⟨reportData, hverify, _, hprover⟩ := SGXVerifier.checkAttestation_eq_ok.mp hcheck
  rw [henv] at hverify
  obtain ⟨haccepts, rfl⟩ := (verify_eq_ok_iff heq c env.timestamp quote reportData).mp hverify
  refine ⟨haccepts, ?_⟩
  rw [hprover, List.drop_take, List.drop_drop, List.take_take]
  rfl

end Verify

section Sample

abbrev trustingPrecompiles : Precompiles := ⟨fun _ => rootcaPubkeyHash, fun _ => 0, fun _ _ _ _ => 0⟩

abbrev trustingSolady : Solady := ⟨id, fun a b => a == b⟩

def sampleCert : ECSha256Certificate where
  notBefore := 0
  notAfter := 10
  serialNumber := []
  tbsCertificate := []
  pubKey := []
  signature := []
  isPck := true
  pck := ⟨[], [], [], [1], 0, List.replicate 16 0⟩

def sampleContract : AutomataDcapV3Attestation where
  sigVerifyLib := ⟨fun _ _ _ => .ok true⟩
  pemCertLib := ⟨fun _ size => .ok (true, List.replicate size []), fun _ _ => .ok (true, sampleCert)⟩
  checkLocalEnclaveReport := true
  trustedUserMrEnclave mrEnclave := mrEnclave = 0
  trustedUserMrSigner mrSigner := mrSigner = 0
  serialNumIsRevoked _ _ := false
  tcbInfo fmspc := ⟨[], fmspc, [⟨1, [], .ok⟩, ⟨0, List.replicate 16 0, .tcbSwHardeningNeeded⟩]⟩
  qeIdentity := ⟨0, 0, 0, 0, 0, 0, [⟨1, .sgxEnclaveReportIsvsvnRevoked⟩, ⟨0, .ok⟩]⟩

def sampleQuote : Bytes :=
  [3, 0, 2, 0] ++ List.replicate 8 0 ++
    [0x93, 0x9a, 0x72, 0x33, 0xf7, 0x9c, 0x4c, 0xa9, 0x94, 0x0a, 0x0d, 0xb3, 0x95, 0x7f, 0x06, 0x07] ++
    List.replicate 20 0 ++ (List.replicate 320 0 ++ List.replicate 64 7) ++ [0x49, 2, 0, 0] ++
    (List.replicate 576 0 ++ [0, 0] ++ [5, 0] ++ [1, 0, 0, 0] ++ [9])

theorem verify_eq_ok_sample :
    letI := trustingPrecompiles
    letI := trustingSolady
    ∃ parsed qeReport quoteCerts pck issuer root,
      Accepts sampleContract 5 sampleQuote parsed qeReport quoteCerts pck issuer root := by
  let := trustingPrecompiles
  let := trustingSolady
  have heq : ∀ a b, Solady.eq a b = true ↔ a = b := by
    intro a b
    exact beq_iff_eq
  have hverify : sampleContract.verify 5 sampleQuote = .ok (true, List.replicate 64 7) := by
    decide +kernel
  exact ((verify_eq_ok_iff heq sampleContract 5 sampleQuote _).mp hverify).1

end Sample

end AutomataDcapV3Attestation

end LineaSgxProver.Verifier
