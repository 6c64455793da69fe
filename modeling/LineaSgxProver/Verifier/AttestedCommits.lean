import LineaSgxProver.Verifier.Deployment

namespace LineaSgxProver.Verifier

open Library

section Vouching

variable [Precompiles] {c : AutomataDcapV3Attestation} {now : SU256}

namespace AutomataDcapV3Attestation

/-- The certificate is in date and its issuer's key signed it. -/
structure IssuedBy (c : AutomataDcapV3Attestation) (now : SU256) (cert issuer : ECSha256Certificate) :
    Prop where
  notBefore : cert.notBefore < now
  notAfter : now < cert.notAfter
  signed : c.sigVerifyLib.verifyES256Signature cert.tbsCertificate cert.signature issuer.pubKey = .ok true

def IsRoot (cert : ECSha256Certificate) : Prop := Precompiles.keccak256 cert.pubKey = rootcaPubkeyHash

theorem chain_cons_iff (hrevoked : ∀ crl serial, c.serialNumIsRevoked crl serial = false)
    (cert : ECSha256Certificate) (rest : List ECSha256Certificate) :
    c.verifyCertChain now (cert :: rest) = .ok true ↔ IssuedBy c now cert (rest.headD cert) ∧
      (IsRoot (rest.headD cert) ∨ ¬ IsRoot (rest.headD cert) ∧ c.verifyCertChain now rest = .ok true) := by
  have hbelow : c.revokedBelow cert rest = false := by
    rcases rest with _ | ⟨issuer, _ | ⟨root, rest⟩⟩ <;> simp [revokedBelow, hrevoked]
  rw [verifyCertChain_cons, hbelow]
  generalize rest.headD cert = issuer
  by_cases hvalid : cert.notBefore < now ∧ now < cert.notAfter
  · cases hverify : c.sigVerifyLib.verifyES256Signature cert.tbsCertificate cert.signature issuer.pubKey with
    | error e =>
      simp only [hvalid, and_self, decide_true, Bool.not_true, Bool.false_eq_true, if_false, error_bind]
      constructor
      · rintro ⟨⟩
      · rintro ⟨⟨_, _, hsigned⟩, _⟩
        rw [hverify] at hsigned
        cases hsigned
    | ok verified =>
      cases verified with
      | false =>
        simp only [hvalid, and_self, decide_true, Bool.not_true, Bool.false_eq_true, if_false, ok_bind,
          Bool.not_false, if_true]
        constructor
        · rintro ⟨⟩
        · rintro ⟨⟨_, _, hsigned⟩, _⟩
          rw [hverify] at hsigned
          cases hsigned
      | true =>
        have hissued : IssuedBy c now cert issuer := ⟨hvalid.1, hvalid.2, hverify⟩
        by_cases hroot : IsRoot issuer
        · have hkey : Precompiles.keccak256 issuer.pubKey = rootcaPubkeyHash := hroot
          simp [hvalid, hkey, hissued, hroot]
        · have hkey : Precompiles.keccak256 issuer.pubKey ≠ rootcaPubkeyHash := hroot
          simp [hvalid, hkey, hissued, hroot]
  · simp only [hvalid, decide_false, Bool.not_false, if_true, Bool.false_eq_true, if_false]
    constructor
    · rintro ⟨⟩
    · rintro ⟨hissued, _⟩
      exact absurd ⟨hissued.notBefore, hissued.notAfter⟩ hvalid

/-- Where no serial number is listed, the root's key must have signed one of the two certificates it can
have signed, and then no later one is looked at. -/
theorem verifyCertChain_iff (hrevoked : ∀ crl serial, c.serialNumIsRevoked crl serial = false)
    (pck issuer root : ECSha256Certificate) :
    c.verifyCertChain now [pck, issuer, root] = .ok true ↔ IssuedBy c now pck issuer ∧
      (IsRoot issuer ∨ IssuedBy c now issuer root ∧ IsRoot root) := by
  have hself : c.verifyCertChain now [root] = .ok true → IsRoot root := by
    intro h
    rcases ((chain_cons_iff hrevoked root []).mp h).2 with hroot | ⟨_, hnil⟩
    · exact hroot
    · cases hnil
  rw [chain_cons_iff hrevoked, chain_cons_iff hrevoked]
  change IssuedBy c now pck issuer ∧ (IsRoot issuer ∨ ¬ IsRoot issuer ∧ IssuedBy c now issuer root ∧
    (IsRoot root ∨ ¬ IsRoot root ∧ c.verifyCertChain now [root] = .ok true)) ↔ _
  tauto

end AutomataDcapV3Attestation

end Vouching

namespace Deployment

open AutomataDcapV3Attestation

variable [Precompiles] [Solady] {deployer owner : Address} {sigVerifyLib : ISigVerifyLib}
  {pemCertLib : IPEMCertChainLib} {chainId : SU256}

/-- The quote passes every check under a configuration, by a chain of keys from the root's, and it is the
prover's: its address ends the report data. -/
def Genuine (c : AutomataDcapV3Attestation) (now : SU256) (prover : Address) (quote : Bytes) : Prop :=
  (∃ parsed qeReport quoteCerts pck issuer root,
    Accepts c now quote parsed qeReport quoteCerts pck issuer root ∧ IssuedBy c now pck issuer ∧
      (IsRoot issuer ∨ IssuedBy c now issuer root ∧ IsRoot root)) ∧
    prover = BitVec.ofNat 160 (BigEndian.decode ((quote.drop 412).take 20))

theorem checkAttestation_iff (heq : ∀ a b, Solady.eq a b = true ↔ a = b) {c : AutomataDcapV3Attestation}
    (hrevoked : ∀ crl serial, c.serialNumIsRevoked crl serial = false) (sender : Address) {now : SU256}
    {prover : Address} {quote : Bytes} :
    SGXVerifier.checkAttestation ⟨sender, now, c.answers now⟩ prover quote = .ok () ↔
      Genuine c now prover quote := by
  rw [SGXVerifier.checkAttestation_eq_ok]
  change (∃ rd, c.verify now quote = .ok (true, rd) ∧ _) ↔ _
  constructor
  · rintro ⟨rd, hverify, _, hprover⟩
    obtain ⟨⟨parsed, qeReport, quoteCerts, pck, issuer, root, h⟩, rfl⟩ :=
      (verify_eq_ok_iff heq c now quote rd).mp hverify
    rw [List.drop_take, List.drop_drop, List.take_take] at hprover
    exact ⟨⟨parsed, qeReport, quoteCerts, pck, issuer, root, h,
      (verifyCertChain_iff hrevoked pck issuer root).mp h.chain⟩, hprover⟩
  · rintro ⟨⟨parsed, qeReport, quoteCerts, pck, issuer, root, h, _⟩, hprover⟩
    have hlen : 1020 < quote.length := (V3Parser.parseInput_eq_some h.parses).1
    refine ⟨(quote.drop 368).take 64, (verify_eq_ok_iff heq c now quote _).mpr ⟨?_, rfl⟩, ?_, ?_⟩
    · exact ⟨parsed, qeReport, quoteCerts, pck, issuer, root, h⟩
    · simp only [List.length_take, List.length_drop]
      omega
    · rw [List.drop_take, List.drop_drop, List.take_take]
      exact hprover

def Submits (prover : Address) (s : Deployment) (tx : ChainTx) : Prop :=
  ∃ quote, tx.call = .verifier (.submitAttestationReport prover quote) ∧
    ∃ v e, s.verifier.submitAttestationReport (s.env tx.sender tx.timestamp) prover quote = .ok (v, e)

def Commits (batchHash : SH256) (s : Deployment) (tx : ChainTx) : Prop :=
  ∃ batchId poe p signer, tx.call = .verifier (.commitBatch batchId poe) ∧
    s.verifier.recover poe = .ok (p, signer) ∧ p.batchHash = batchHash ∧ p.newStateRoot ≠ 0 ∧
    ∃ v e, s.verifier.commitBatch (s.env tx.sender tx.timestamp) batchId poe = .ok (v, e)

theorem submits_iff {s : Deployment} {sender : Address} {now : SU256} {prover : Address} {quote : Bytes} :
    (∃ v e, s.verifier.submitAttestationReport (s.env sender now) prover quote = .ok (v, e)) ↔
      SGXVerifier.checkAttestation (s.env sender now) prover quote = .ok () := by
  constructor
  · rintro ⟨v, e, h⟩
    exact (SGXVerifier.submitAttestationReport_eq_ok.mp h).1
  · intro h
    exact ⟨_, _, SGXVerifier.submitAttestationReport_eq_ok.mpr ⟨h, rfl, rfl⟩⟩

theorem deployed_check_iff (heq : ∀ a b, Solady.eq a b = true ↔ a = b) (txs : List ChainTx) (sender : Address)
    (now : SU256) (prover : Address) (quote : Bytes) :
    SGXVerifier.checkAttestation (((new deployer sigVerifyLib pemCertLib owner chainId).after txs).env sender now)
        prover quote = .ok () ↔
      Genuine (settings deployer sigVerifyLib pemCertLib txs) now prover quote := by
  rw [env, after_dcapAttestation]
  apply checkAttestation_iff heq
  intro crl serial
  rfl

/-- The verifier takes a report exactly when it is genuine under the settings that the attestation
contract's deployer has made so far. -/
theorem submission_iff (heq : ∀ a b, Solady.eq a b = true ↔ a = b) (deployer owner : Address)
    (sigVerifyLib : ISigVerifyLib) (pemCertLib : IPEMCertChainLib) (chainId : SU256) (txs : List ChainTx)
    (sender : Address) (now : SU256) (prover : Address) (quote : Bytes) :
    (∃ v e, ((new deployer sigVerifyLib pemCertLib owner chainId).after txs).verifier.submitAttestationReport
        (((new deployer sigVerifyLib pemCertLib owner chainId).after txs).env sender now) prover quote =
          .ok (v, e)) ↔
      Genuine (settings deployer sigVerifyLib pemCertLib txs) now prover quote := by
  rw [submits_iff]
  exact deployed_check_iff heq txs sender now prover quote

section Sample

/-- Every key is the root's, and a signature names its signer. -/
abbrev namingPrecompiles : Precompiles := ⟨fun _ => rootcaPubkeyHash, fun _ => 0, fun _ _ r _ => r.setWidth 160⟩

def sampleSettings : List ChainTx :=
  [⟨0, 1, .dcap .toggleLocalReportCheck⟩, ⟨0, 1, .dcap (.setMrEnclave 0 true)⟩,
    ⟨9, 1, .dcap (.setMrEnclave 0 false)⟩, ⟨0, 2, .dcap (.setMrSigner 0 true)⟩,
    ⟨0, 2, .dcap (.configureTcbInfoJson [1] ⟨[], [1], [⟨0, List.replicate 16 0, .ok⟩]⟩)⟩,
    ⟨0, 3, .dcap (.configureQeIdentityJson ⟨0, 0, 0, 0, 0, 0, [⟨0, .ok⟩]⟩)⟩]

def sampleProver : Address := 0x0707070707070707070707070707070707070707

end Sample

omit [Precompiles] [Solady] in
theorem submission_iff_sample :
    letI := namingPrecompiles
    letI := trustingSolady
    Genuine (settings 0 sampleContract.sigVerifyLib sampleContract.pemCertLib sampleSettings) 5 sampleProver
      sampleQuote := by
  let := namingPrecompiles
  let := trustingSolady
  have heq : ∀ a b, Solady.eq a b = true ↔ a = b := by
    intro a b
    exact beq_iff_eq
  apply (submission_iff heq 0 3 sampleContract.sigVerifyLib sampleContract.pemCertLib 7 sampleSettings 4 5
    sampleProver sampleQuote).mp
  rw [submits_iff]
  decide +kernel

section Verifier

variable {s : Deployment} {tx : ChainTx}

theorem verifier_step_cases (s : Deployment) (tx : ChainTx) :
    (s.step tx).verifier = s.verifier ∨ ∃ call, tx.call = .verifier call ∧
      (s.step tx).verifier = s.verifier.step ⟨s.env tx.sender tx.timestamp, call⟩ := by
  rw [step]
  cases hcall : tx.call with
  | dcap call => exact Or.inl rfl
  | verifier call => exact Or.inr ⟨call, rfl, rfl⟩

theorem step_of_submits {prover : Address} (h : Submits prover s tx) :
    (s.step tx).verifier.attestedProvers prover = tx.timestamp := by
  obtain ⟨quote, hcall, v, e, hsubmit⟩ := h
  have hexec : s.verifier.exec ⟨s.env tx.sender tx.timestamp, .submitAttestationReport prover quote⟩ =
      .ok v := by
    change Prod.fst <$> s.verifier.submitAttestationReport _ prover quote = _
    rw [hsubmit]
    rfl
  have hstep : (s.step tx).verifier = v := by
    rw [step, hcall]
    change s.verifier.step _ = v
    rw [SGXVerifier.step, hexec]
  rw [hstep, (SGXVerifier.submitAttestationReport_eq_ok.mp hsubmit).2.2]
  exact Function.update_self ..

theorem step_of_not_submits {prover : Address} (h : ¬ Submits prover s tx) :
    (s.step tx).verifier.attestedProvers prover = s.verifier.attestedProvers prover := by
  rcases s.verifier_step_cases tx with hkeep | ⟨call, hcall, hstep⟩
  · rw [hkeep]
  · rw [hstep]
    rcases SGXVerifier.step_attestedProvers prover s.verifier ⟨s.env tx.sender tx.timestamp, call⟩ with
      hkeep | ⟨⟨quote, hquote, hsubmit⟩, _⟩
    · exact hkeep
    · obtain rfl : call = .submitAttestationReport prover quote := hquote
      exact absurd ⟨quote, hcall, hsubmit⟩ h

theorem step_attested (prover : Address) (s : Deployment) (tx : ChainTx) :
    (s.step tx).verifier.attestedProvers prover = s.verifier.attestedProvers prover ∨
      (s.step tx).verifier.attestedProvers prover = tx.timestamp := by
  by_cases h : Submits prover s tx
  · exact Or.inr (step_of_submits h)
  · exact Or.inl (step_of_not_submits h)

theorem step_layer2ChainId (s : Deployment) (tx : ChainTx) :
    (s.step tx).verifier.layer2ChainId = s.verifier.layer2ChainId := by
  rcases s.verifier_step_cases tx with hkeep | ⟨call, _, hstep⟩
  · rw [hkeep]
  · rw [hstep]
    rcases s.verifier.step_cases ⟨s.env tx.sender tx.timestamp, call⟩ with
      h | ⟨_, h⟩ | ⟨_, h⟩ | ⟨_, _, _, _, h⟩ | ⟨_, _, _, _, h⟩
    · rw [h]
    · rw [h]
    · rw [h]
    · rw [(SGXVerifier.submitAttestationReport_eq_ok.mp h).2.2]
    · obtain ⟨_, _, _, _, _, _, h⟩ := SGXVerifier.commitBatch_eq_ok.mp h
      rw [h]

omit [Solady] in
theorem recover_eq {c d : SGXVerifier} (h : c.layer2ChainId = d.layer2ChainId) (poe : Bytes) :
    c.recover poe = d.recover poe := by
  unfold SGXVerifier.recover
  rw [h]

/-- What a transaction that changes a batch has committed. -/
theorem step_batches (batchHash : SH256) (s : Deployment) (tx : ChainTx) :
    (s.step tx).verifier.batches batchHash = s.verifier.batches batchHash ∨
      ∃ batchId poe p signer, tx.call = .verifier (.commitBatch batchId poe) ∧
        s.verifier.recover poe = .ok (p, signer) ∧ p.batchHash = batchHash ∧
        (∃ v e, s.verifier.commitBatch (s.env tx.sender tx.timestamp) batchId poe = .ok (v, e)) ∧
        (s.step tx).verifier.batches batchHash = p.info batchId := by
  rcases s.verifier_step_cases tx with hkeep | ⟨call, hcall, hstep⟩
  · exact Or.inl (by rw [hkeep])
  · rw [hstep]
    rcases s.verifier.step_cases ⟨s.env tx.sender tx.timestamp, call⟩ with
      h | ⟨_, h⟩ | ⟨_, h⟩ | ⟨_, _, _, _, h⟩ | ⟨batchId, poe, e, hcommit, h⟩
    · exact Or.inl (by rw [h])
    · exact Or.inl (by rw [h])
    · exact Or.inl (by rw [h])
    · exact Or.inl (by rw [(SGXVerifier.submitAttestationReport_eq_ok.mp h).2.2])
    · obtain rfl : call = .commitBatch batchId poe := hcommit
      obtain ⟨p, signer, hrecover, _, _, _, hstep⟩ := SGXVerifier.commitBatch_eq_ok.mp h
      by_cases hhash : p.batchHash = batchHash
      · refine Or.inr ⟨batchId, poe, p, signer, hcall, hrecover, hhash, ⟨_, e, h⟩, ?_⟩
        rw [hstep, ← hhash]
        exact Function.update_self ..
      · left
        rw [hstep]
        exact Function.update_of_ne (Ne.symm hhash) ..

theorem step_of_commits {batchHash : SH256} (h : Commits batchHash s tx) :
    ((s.step tx).verifier.batches batchHash).newStateRoot ≠ 0 := by
  obtain ⟨batchId, poe, p, signer, hcall, hrecover, rfl, hroot, v, e, hcommit⟩ := h
  have hexec : s.verifier.exec ⟨s.env tx.sender tx.timestamp, .commitBatch batchId poe⟩ = .ok v := by
    change Prod.fst <$> s.verifier.commitBatch _ batchId poe = _
    rw [hcommit]
    rfl
  have hstep : (s.step tx).verifier = v := by
    rw [step, hcall]
    change s.verifier.step _ = v
    rw [SGXVerifier.step, hexec]
  obtain ⟨q, signer', hrecover', _, _, _, rfl⟩ := SGXVerifier.commitBatch_eq_ok.mp hcommit
  obtain ⟨rfl, _⟩ := Prod.mk.inj (Except.ok.inj (hrecover'.symm.trans hrecover))
  rw [hstep]
  change (Function.update s.verifier.batches q.batchHash (q.info batchId) q.batchHash).newStateRoot ≠ 0
  rw [Function.update_self]
  exact hroot

theorem step_committed {batchHash : SH256} (hcommitted : (s.verifier.batches batchHash).newStateRoot ≠ 0) :
    (s.step tx).verifier.batches batchHash = s.verifier.batches batchHash := by
  rcases s.verifier_step_cases tx with hkeep | ⟨call, _, hstep⟩
  · rw [hkeep]
  · rw [hstep]
    exact SGXVerifier.step_committed hcommitted

end Verifier

section History

variable {s : Deployment}

theorem after_layer2ChainId (s : Deployment) (txs : List ChainTx) :
    (s.after txs).verifier.layer2ChainId = s.verifier.layer2ChainId := by
  apply Run.invariant (P := fun d : Deployment => d.verifier.layer2ChainId = s.verifier.layer2ChainId)
    (C := fun _ _ => True) _ rfl txs (fun _ _ _ _ => trivial)
  intro d tx hd _
  rw [step_layer2ChainId, hd]

/-- A batch is marked exactly when a root that is not zero has been committed for it. -/
theorem marked_iff (batchHash : SH256) (hs : (s.verifier.batches batchHash).newStateRoot = 0)
    (txs : List ChainTx) : ((s.after txs).verifier.batches batchHash).newStateRoot ≠ 0 ↔
      ∃ pre tx post, txs = pre ++ tx :: post ∧ Commits batchHash (s.after pre) tx := by
  constructor
  · intro h
    rcases Run.last_write (f := fun d : Deployment => d.verifier.batches batchHash) (s := s)
      (W := fun d tx b => ∃ batchId poe p signer, tx.call = .verifier (.commitBatch batchId poe) ∧
        d.verifier.recover poe = .ok (p, signer) ∧ p.batchHash = batchHash ∧
        (∃ v e, d.verifier.commitBatch (d.env tx.sender tx.timestamp) batchId poe = .ok (v, e)) ∧
        b = p.info batchId) (step_batches batchHash) txs with
      hfirst | ⟨pre, tx, post, heq, batchId, poe, p, signer, hcall, hrecover, hhash, hcommit, hinfo⟩
    · rw [hfirst] at h
      exact absurd hs h
    · rw [hinfo] at h
      exact ⟨pre, tx, post, heq, batchId, poe, p, signer, hcall, hrecover, hhash, h, hcommit⟩
  · rintro ⟨pre, tx, post, rfl, hcommits⟩
    have hmarked := step_of_commits hcommits
    rw [after, Run.after_append]
    change ((((s.after pre).step tx).after post).verifier.batches batchHash).newStateRoot ≠ 0
    apply Run.invariant (P := fun d : Deployment => (d.verifier.batches batchHash).newStateRoot ≠ 0)
      (C := fun _ _ => True) _ hmarked post (fun _ _ _ _ => trivial)
    intro d u hd _
    rw [step_committed hd]
    exact hd

/-- The prover's last accepted submission in a run. -/
structure LastSubmission (s : Deployment) (txs : List ChainTx) (prover : Address) (before : List ChainTx)
    (sub : ChainTx) (between : List ChainTx) : Prop where
  split : txs = before ++ sub :: between
  accepted : Submits prover (s.after before) sub
  last (mid : List ChainTx) (tx : ChainTx) (rest : List ChainTx) :
    between = mid ++ tx :: rest → ¬ Submits prover (s.after (before ++ sub :: mid)) tx

theorem attested_iff (prover : Address) (hs : s.verifier.attestedProvers prover = 0) (txs : List ChainTx)
    {t : SU256} (ht : t ≠ 0) : (s.after txs).verifier.attestedProvers prover = t ↔
      ∃ before sub between, LastSubmission s txs prover before sub between ∧ sub.timestamp = t := by
  rw [Run.view_iff_last_write (f := fun d : Deployment => d.verifier.attestedProvers prover)
    (W := Submits prover) (v := fun tx => tx.timestamp) (fun _ _ => step_of_submits)
    (fun _ _ => step_of_not_submits) txs (by rw [hs]; exact ht)]
  constructor
  · rintro ⟨before, sub, between, hsplit, haccepted, htime, hlast⟩
    exact ⟨before, sub, between, ⟨hsplit, haccepted, hlast⟩, htime⟩
  · rintro ⟨before, sub, between, h, htime⟩
    exact ⟨before, sub, between, h.split, h.accepted, htime, h.last⟩

end History

/-- A prover's time of attestation never goes back where time does not. -/
theorem attested_since {s : Deployment} {prover : Address} {before between : List ChainTx} {sub : ChainTx}
    {now : SU256} (htime : (before ++ sub :: between).Pairwise fun a b => a.timestamp ≤ b.timestamp)
    (hnow : ∀ tx ∈ before ++ sub :: between, tx.timestamp ≤ now) (hsub : Submits prover (s.after before) sub) :
    sub.timestamp ≤ (s.after (before ++ sub :: between)).verifier.attestedProvers prover ∧
      (s.after (before ++ sub :: between)).verifier.attestedProvers prover ≤ now := by
  have hfirst := step_of_submits hsub
  have hlater (tx : ChainTx) (hmem : tx ∈ between) : sub.timestamp ≤ tx.timestamp :=
    List.rel_of_pairwise_cons (List.pairwise_append.mp htime).2.1 hmem
  have hafter : s.after (before ++ sub :: between) = ((s.after before).step sub).after between := by
    rw [after, Run.after_append]
    rfl
  rw [hafter]
  rcases Run.last_write (f := fun d : Deployment => d.verifier.attestedProvers prover)
    (s := (s.after before).step sub) (W := fun _ tx t => t = tx.timestamp) (step_attested prover) between
    with hkeep | ⟨pre, tx, post, heq, hwrite⟩
  · rw [hkeep, hfirst]
    exact ⟨BitVec.le_refl _, hnow sub (by simp)⟩
  · rw [hwrite]
    have hmem : tx ∈ between := by
      rw [heq]
      simp
    exact ⟨hlater tx hmem, hnow tx (by simp [hmem])⟩

section Times

variable {s : Deployment} {a : Address}

theorem attested_of_timestamps {P : SU256 → Prop} (hs : P (s.verifier.attestedProvers a)) {txs : List ChainTx}
    (htxs : ∀ tx ∈ txs, P tx.timestamp) : P ((s.after txs).verifier.attestedProvers a) := by
  induction txs using List.reverseRecOn with
  | nil => exact hs
  | append_singleton txs tx ih =>
    rw [after_snoc]
    rcases step_attested a (s.after txs) tx with h | h
    · rw [h]
      apply ih
      intro tx htx
      exact htxs tx (List.mem_append_left _ htx)
    · rw [h]
      exact htxs tx (by simp)

/-- Where time does not go back, no attestation is dated back. -/
theorem attested_mono (hs : s.verifier.attestedProvers a = 0) {txs more : List ChainTx}
    (htime : (txs ++ more).Pairwise fun x y => x.timestamp ≤ y.timestamp) :
    (s.after txs).verifier.attestedProvers a ≤ (s.after (txs ++ more)).verifier.attestedProvers a := by
  induction more using List.reverseRecOn with
  | nil =>
    rw [List.append_nil]
    exact BitVec.le_refl _
  | append_singleton more tx ih =>
    rw [← List.append_assoc] at htime ⊢
    have hbefore := ih (List.pairwise_append.mp htime).1
    have hlast : ∀ x ∈ txs ++ more, x.timestamp ≤ tx.timestamp := by
      intro x hx
      exact (List.pairwise_append.mp htime).2.2 x hx tx (by simp)
    rw [after_snoc]
    rcases step_attested a (s.after (txs ++ more)) tx with h | h
    · rw [h]
      exact hbefore
    · rw [h]
      apply BitVec.le_trans hbefore
      apply attested_of_timestamps (P := fun t => t ≤ tx.timestamp) _ hlast
      rw [hs, BitVec.le_def]
      exact Nat.zero_le _

/-- An attestation that is in date for a time stays so, whatever is sent to the chain. -/
theorem inDate_after (hs : s.verifier.attestedProvers a = 0) {txs more : List ChainTx} {validity now : SU256}
    (htime : (txs ++ more).Pairwise fun x y => x.timestamp ≤ y.timestamp)
    (hvalidity : (s.after (txs ++ more)).verifier.attestValiditySeconds = validity)
    (hbound : ∀ tx ∈ txs ++ more, tx.timestamp.toNat + validity.toNat < 2 ^ 256)
    (hcurrent : Current ((s.after txs).verifier.attestedProvers a) validity now.toNat) :
    (s.after (txs ++ more)).verifier.InDate a now := by
  obtain ⟨hne, hnow⟩ := hcurrent
  have hmono := attested_mono hs htime
  rw [BitVec.le_def] at hmono
  have hzero : (0 : SU256).toNat = 0 := rfl
  have hsum : ((s.after (txs ++ more)).verifier.attestedProvers a).toNat + validity.toNat < 2 ^ 256 := by
    apply attested_of_timestamps (P := fun t => t.toNat + validity.toNat < 2 ^ 256) _ hbound
    rw [hs, hzero, Nat.zero_add]
    exact validity.isLt
  rw [SGXVerifier.InDate, hvalidity]
  refine ⟨⟨?_, by omega⟩, hsum⟩
  intro hnone
  rw [hnone, hzero] at hmono
  exact hne (BitVec.eq_of_toNat_eq (Nat.le_zero.mp hmono))

end Times

section Reports

/-- The contract has taken a report of the account's. -/
def Reported (chain : Deployment) (history : List ChainTx) (a : Address) : Prop :=
  ∃ before sub between, history = before ++ sub :: between ∧ Submits a (chain.after before) sub

theorem Reported.append {chain : Deployment} {history : List ChainTx} {a : Address}
    (h : Reported chain history a) (more : List ChainTx) : Reported chain (history ++ more) a := by
  obtain ⟨before, sub, between, rfl, hsub⟩ := h
  exact ⟨before, sub, between ++ more, by rw [List.append_assoc, List.cons_append], hsub⟩

theorem reported_of_attested {chain : Deployment} {a : Address} (hfresh : chain.verifier.attestedProvers a = 0)
    {history : List ChainTx} (h : (chain.after history).verifier.attestedProvers a ≠ 0) :
    Reported chain history a := by
  obtain ⟨before, sub, between, hlast, _⟩ := (attested_iff a hfresh history h).mp rfl
  exact ⟨before, sub, between, hlast.split, hlast.accepted⟩

end Reports

variable (deployer owner sigVerifyLib pemCertLib chainId)

/-- A batch can be committed exactly with the signature of a prover whose last accepted report is still in
date, and for as long as no root but zero has been committed for it. -/
theorem commit_iff (txs : List ChainTx) (sender : Address) (now batchId : SU256) (poe : Bytes) :
    (∃ v e, ((new deployer sigVerifyLib pemCertLib owner chainId).after txs).verifier.commitBatch
        (((new deployer sigVerifyLib pemCertLib owner chainId).after txs).env sender now) batchId poe =
          .ok (v, e)) ↔
      ∃ p signer, (SGXVerifier.new owner chainId).recover poe = .ok (p, signer) ∧
        (∃ before sub between,
          LastSubmission (new deployer sigVerifyLib pemCertLib owner chainId) txs signer before sub between ∧
          Current sub.timestamp ((new deployer sigVerifyLib pemCertLib owner chainId).after
            txs).verifier.attestValiditySeconds now.toNat ∧
          sub.timestamp.toNat + ((new deployer sigVerifyLib pemCertLib owner chainId).after
            txs).verifier.attestValiditySeconds.toNat < 2 ^ 256) ∧
        ∀ pre tx post, txs = pre ++ tx :: post →
          ¬ Commits p.batchHash ((new deployer sigVerifyLib pemCertLib owner chainId).after pre) tx := by
  have hchain := after_layer2ChainId (new deployer sigVerifyLib pemCertLib owner chainId) txs
  have hdate (prover : Address) (t : SU256) (ht : t ≠ 0) :=
    attested_iff (s := new deployer sigVerifyLib pemCertLib owner chainId) prover rfl txs ht
  have hmarked (batchHash : SH256) :=
    marked_iff (s := new deployer sigVerifyLib pemCertLib owner chainId) batchHash rfl txs
  generalize hs : (new deployer sigVerifyLib pemCertLib owner chainId).after txs = s at *
  constructor
  · rintro ⟨v, e, hcommit⟩
    obtain ⟨p, signer, hrecover, ⟨⟨hattested, hnow⟩, hbound⟩, hopen, _⟩ :=
      SGXVerifier.commitBatch_eq_ok.mp hcommit
    obtain ⟨before, sub, between, hlast, ht⟩ := (hdate signer _ hattested).mp rfl
    rw [← ht] at hattested hnow hbound
    refine ⟨p, signer, ?_, ⟨before, sub, between, hlast, ⟨hattested, hnow⟩, hbound⟩, ?_⟩
    · rw [← hrecover]
      exact recover_eq hchain.symm poe
    · intro pre tx post heq hcommits
      exact (hmarked p.batchHash).mpr ⟨pre, tx, post, heq, hcommits⟩ hopen
  · rintro ⟨p, signer, hrecover, ⟨before, sub, between, hlast, ⟨hattested, hnow⟩, hbound⟩, hopen⟩
    have ht := (hdate signer _ hattested).mpr ⟨before, sub, between, hlast, rfl⟩
    refine ⟨_, _, SGXVerifier.commitBatch_eq_ok.mpr ⟨p, signer, ?_, ⟨⟨?_, ?_⟩, ?_⟩, ?_, rfl, rfl⟩⟩
    · rw [← hrecover]
      exact recover_eq hchain poe
    · rw [ht]
      exact hattested
    · rw [ht]
      exact hnow
    · rw [ht]
      exact hbound
    · by_contra hroot
      obtain ⟨pre, tx, post, heq, hcommits⟩ := (hmarked p.batchHash).mp hroot
      exact hopen pre tx post heq hcommits

/-- Nobody can keep a prover from committing a batch nobody has committed, from its report's being accepted
to the end of the validity that the verifier's owner allows. -/
theorem commit_available (heq : ∀ a b, Solady.eq a b = true ↔ a = b) (before between : List ChainTx)
    (sub : ChainTx) (prover : Address) (quote : Bytes) (sender : Address) (now batchId : SU256) (poe : Bytes)
    (p : Poe) (htime : (before ++ sub :: between).Pairwise fun a b => a.timestamp ≤ b.timestamp)
    (hcall : sub.call = .verifier (.submitAttestationReport prover quote))
    (hgenuine : Genuine (settings deployer sigVerifyLib pemCertLib before) sub.timestamp prover quote)
    (hsub : sub.timestamp ≠ 0) (hnow : ∀ tx ∈ before ++ sub :: between, tx.timestamp ≤ now)
    (hdate : now.toNat < sub.timestamp.toNat + ((new deployer sigVerifyLib pemCertLib owner chainId).after
      (before ++ sub :: between)).verifier.attestValiditySeconds.toNat)
    (hbound : now.toNat + ((new deployer sigVerifyLib pemCertLib owner chainId).after
      (before ++ sub :: between)).verifier.attestValiditySeconds.toNat < 2 ^ 256)
    (hrecover : (SGXVerifier.new owner chainId).recover poe = .ok (p, prover))
    (hopen : ∀ pre tx post, before ++ sub :: between = pre ++ tx :: post →
      ¬ Commits p.batchHash ((new deployer sigVerifyLib pemCertLib owner chainId).after pre) tx) :
    ∃ v, ((new deployer sigVerifyLib pemCertLib owner chainId).after
        (before ++ sub :: between)).verifier.commitBatch (((new deployer sigVerifyLib pemCertLib owner
          chainId).after (before ++ sub :: between)).env sender now) batchId poe =
        .ok (v, .commitBatch batchId p.batchHash p.prevStateRoot p.newStateRoot) ∧
      v.batches p.batchHash = p.info batchId := by
  have hsubmits : Submits prover ((new deployer sigVerifyLib pemCertLib owner chainId).after before) sub := by
    refine ⟨quote, hcall, submits_iff.mpr ?_⟩
    exact (deployed_check_iff heq before sub.sender sub.timestamp prover quote).mpr hgenuine
  obtain ⟨hsince, huntil⟩ := attested_since htime hnow hsubmits
  have hchain := after_layer2ChainId (new deployer sigVerifyLib pemCertLib owner chainId)
    (before ++ sub :: between)
  have hmarked := marked_iff (s := new deployer sigVerifyLib pemCertLib owner chainId)
    p.batchHash rfl (before ++ sub :: between)
  generalize (new deployer sigVerifyLib pemCertLib owner chainId).after (before ++ sub :: between) = s at *
  have hzero : sub.timestamp.toNat ≠ 0 := by
    intro hzero
    exact hsub (BitVec.eq_of_toNat_eq hzero)
  rw [BitVec.le_def] at hsince huntil
  have hattested : s.verifier.attestedProvers prover ≠ 0 := by
    intro hnone
    rw [hnone] at hsince
    exact hzero (Nat.le_zero.mp hsince)
  have hunmarked : (s.verifier.batches p.batchHash).newStateRoot = 0 := by
    by_contra hroot
    obtain ⟨pre, tx, post, heq, hcommits⟩ := hmarked.mp hroot
    exact hopen pre tx post heq hcommits
  have hrecover' : s.verifier.recover poe = .ok (p, prover) := by
    rw [← hrecover]
    exact recover_eq hchain poe
  refine ⟨_, SGXVerifier.commitBatch_eq_ok.mpr ⟨p, prover, hrecover', ⟨⟨hattested, ?_⟩, ?_⟩, hunmarked, rfl,
    rfl⟩, Function.update_self ..⟩
  · change now.toNat < _
    omega
  · omega

section Sample

def sampleSubmission : ChainTx := ⟨4, 5, .verifier (.submitAttestationReport sampleProver sampleQuote)⟩

/-- The owner of the verifier shortens the validity, and a stranger does what it can. -/
def sampleInterleaved : List ChainTx :=
  [⟨3, 6, .verifier (.changeAttestValiditySeconds 10)⟩, ⟨9, 6, .verifier (.changeAttestValiditySeconds 0)⟩,
    ⟨9, 7, .dcap (.setMrEnclave 0 false)⟩]

def sampleBatch : Bytes :=
  ([5, 0, 0, 3, 0, 192, 65, sampleProver.setWidth 256, 0].map SH256.bytes).flatten ++ [27]

end Sample

omit [Precompiles] [Solady] in
theorem commit_available_sample :
    letI := namingPrecompiles
    letI := trustingSolady
    ∃ v, ((new 0 sampleContract.sigVerifyLib sampleContract.pemCertLib 3 7).after
        (sampleSettings ++ sampleSubmission :: sampleInterleaved)).verifier.commitBatch
          (((new 0 sampleContract.sigVerifyLib sampleContract.pemCertLib 3 7).after
            (sampleSettings ++ sampleSubmission :: sampleInterleaved)).env 8 14) 9 sampleBatch =
        .ok (v, .commitBatch 9 5 0 3) ∧
      v.batches 5 = ⟨9, 3, 0, 0⟩ := by
  let := namingPrecompiles
  let := trustingSolady
  have heq : ∀ a b, Solady.eq a b = true ↔ a = b := by
    intro a b
    exact beq_iff_eq
  have hgenuine : Genuine (settings 0 sampleContract.sigVerifyLib sampleContract.pemCertLib sampleSettings) 5
      sampleProver sampleQuote := by
    rw [← checkAttestation_iff heq (fun _ _ => rfl) 4]
    decide +kernel
  apply commit_available 0 3 sampleContract.sigVerifyLib sampleContract.pemCertLib 7 heq sampleSettings
    sampleInterleaved sampleSubmission sampleProver sampleQuote 8 14 9 sampleBatch
    ⟨5, 0, 0, 3, 0, SH256.bytes (sampleProver.setWidth 256) ++ SH256.bytes 0 ++ [27]⟩ (by decide +kernel) rfl
    hgenuine (by decide) (by decide +kernel) (by decide +kernel) (by decide +kernel) (by decide +kernel)
  intro pre tx post heq hcommits
  have hmarked := (marked_iff (s := new 0 sampleContract.sigVerifyLib sampleContract.pemCertLib 3 7)
    5 rfl _).mpr ⟨pre, tx, post, heq, hcommits⟩
  exact hmarked (by decide +kernel)

end Deployment

end LineaSgxProver.Verifier
