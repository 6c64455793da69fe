import LineaSgxProver.Verifier.SGXVerifier

namespace LineaSgxProver.Verifier

open Library

/-- An attestation that has happened and is still valid. -/
def Current (attestedTime validity : SU256) (now : ℕ) : Prop :=
  attestedTime ≠ 0 ∧ now < attestedTime.toNat + validity.toNat

namespace SGXVerifier

theorem checkAttestation_eq_ok {env : Env} {prover : Address} {reportBytes : Bytes} {u : Unit} :
    checkAttestation env prover reportBytes = .ok u ↔ ∃ reportData,
      env.dcapAttestation.verifyAttestation reportBytes = .ok (true, reportData) ∧
        64 ≤ reportData.length ∧
        prover = BitVec.ofNat 160 (BigEndian.decode ((reportData.drop 44).take 20)) := by
  unfold checkAttestation
  constructor
  · intro h
    obtain ⟨⟨succ, reportData⟩, hverify, h⟩ := bind_eq_ok.mp h
    obtain ⟨_, hsucc, h⟩ := bind_eq_ok.mp h
    obtain ⟨expectedProver, haddress, hprover⟩ := bind_eq_ok.mp h
    obtain rfl : succ = true := require_eq_ok.mp hsucc
    obtain rfl : expectedProver = prover := require_eq_ok.mp hprover
    exact ⟨reportData, hverify, bytes64ToAddress_eq_ok.mp haddress⟩
  · rintro ⟨reportData, hverify, haddress⟩
    refine bind_eq_ok.mpr ⟨(true, reportData), hverify, bind_eq_ok.mpr ⟨(), require_eq_ok.mpr rfl, ?_⟩⟩
    exact bind_eq_ok.mpr ⟨prover, bytes64ToAddress_eq_ok.mpr haddress, require_eq_ok.mpr rfl⟩

theorem submitAttestationReport_eq_ok {c c' : SGXVerifier} {env : Env} {prover : Address}
    {reportBytes : Bytes} {e : Event} :
    c.submitAttestationReport env prover reportBytes = .ok (c', e) ↔
      checkAttestation env prover reportBytes = .ok () ∧ e = .proverApproved prover ∧
        c' = { c with attestedProvers := Function.update c.attestedProvers prover env.timestamp } := by
  unfold submitAttestationReport
  rw [bind_eq_ok]
  constructor
  · rintro ⟨_, hcheck, ⟨⟩⟩
    exact ⟨hcheck, rfl, rfl⟩
  · rintro ⟨hcheck, rfl, rfl⟩
    exact ⟨(), hcheck, rfl⟩

/-- The prover's attestation is not older than the contract allows. -/
def InDate (c : SGXVerifier) (prover : Address) (now : SU256) : Prop :=
  Current (c.attestedProvers prover) c.attestValiditySeconds now.toNat ∧
    (c.attestedProvers prover).toNat + c.attestValiditySeconds.toNat < 2 ^ 256

section Runs

variable [Precompiles]

theorem commitBatch_eq_ok {c c' : SGXVerifier} {env : Env} {batchId : SU256} {poe : Bytes} {e : Event} :
    c.commitBatch env batchId poe = .ok (c', e) ↔
      ∃ p signer, c.recover poe = .ok (p, signer) ∧ c.InDate signer env.timestamp ∧
        (c.batches p.batchHash).newStateRoot = 0 ∧
        e = .commitBatch batchId p.batchHash p.prevStateRoot p.newStateRoot ∧
        c' = { c with batches := Function.update c.batches p.batchHash (p.info batchId) } := by
  unfold commitBatch
  constructor
  · intro h
    obtain ⟨⟨p, signer⟩, hrecover, h⟩ := bind_eq_ok.mp h
    obtain ⟨_, hattested, h⟩ := bind_eq_ok.mp h
    obtain ⟨expiry, hexpiry, h⟩ := bind_eq_ok.mp h
    obtain ⟨_, hdate, h⟩ := bind_eq_ok.mp h
    obtain ⟨_, hopen, h⟩ := bind_eq_ok.mp h
    obtain ⟨rfl, rfl⟩ := Prod.mk.inj (Except.ok.inj h)
    have hsum := checkedAdd_eq_ok.mp hexpiry
    have hlt : env.timestamp.toNat < expiry.toNat := require_eq_ok.mp hdate
    have hbound := expiry.isLt
    exact ⟨p, signer, hrecover, ⟨⟨require_eq_ok.mp hattested, by omega⟩, by omega⟩, require_eq_ok.mp hopen,
      rfl, rfl⟩
  · rintro ⟨p, signer, hrecover, ⟨⟨hattested, hdate⟩, hbound⟩, hopen, rfl, rfl⟩
    have hexpiry : checkedAdd (c.attestedProvers signer) c.attestValiditySeconds =
        .ok (c.attestedProvers signer + c.attestValiditySeconds) := if_pos hbound
    have hlt : env.timestamp < c.attestedProvers signer + c.attestValiditySeconds := by
      rw [BitVec.lt_def, checkedAdd_eq_ok.mp hexpiry |>.symm]
      exact hdate
    refine bind_eq_ok.mpr ⟨_, hrecover, bind_eq_ok.mpr ⟨(), require_eq_ok.mpr hattested, ?_⟩⟩
    refine bind_eq_ok.mpr ⟨_, hexpiry, bind_eq_ok.mpr ⟨(), require_eq_ok.mpr hlt, ?_⟩⟩
    exact bind_eq_ok.mpr ⟨(), require_eq_ok.mpr hopen, rfl⟩

theorem step_cases (c : SGXVerifier) (tx : Tx) :
    c.step tx = c ∨ (∃ newOwner, c.step tx = { c with owner := newOwner }) ∨
      (∃ val, c.step tx = { c with attestValiditySeconds := val }) ∨
      (∃ prover report e, tx.call = .submitAttestationReport prover report ∧
        c.submitAttestationReport tx.env prover report = .ok (c.step tx, e)) ∨
      ∃ batchId poe e, tx.call = .commitBatch batchId poe ∧
        c.commitBatch tx.env batchId poe = .ok (c.step tx, e) := by
  rcases hexec : c.exec tx with _ | c'
  · left
    rw [step, hexec]
  · have hstep : c.step tx = c' := by rw [step, hexec]
    rw [hstep]
    unfold exec at hexec
    cases hcall : tx.call with
    | changeOwner newOwner =>
      rw [hcall] at hexec
      obtain ⟨_, _, ⟨⟩⟩ := bind_eq_ok.mp hexec
      exact Or.inr (Or.inl ⟨newOwner, rfl⟩)
    | changeAttestValiditySeconds val =>
      rw [hcall] at hexec
      obtain ⟨_, _, ⟨⟩⟩ := bind_eq_ok.mp hexec
      exact Or.inr (Or.inr (Or.inl ⟨val, rfl⟩))
    | submitAttestationReport prover report =>
      rw [hcall] at hexec
      obtain ⟨⟨_, e⟩, hsubmit, rfl⟩ := map_eq_ok.mp hexec
      exact Or.inr (Or.inr (Or.inr (Or.inl ⟨prover, report, e, rfl, hsubmit⟩)))
    | commitBatch batchId poe =>
      rw [hcall] at hexec
      obtain ⟨⟨_, e⟩, hcommit, rfl⟩ := map_eq_ok.mp hexec
      exact Or.inr (Or.inr (Or.inr (Or.inr ⟨batchId, poe, e, rfl, hcommit⟩)))
    | recoverPoe poe =>
      rw [hcall] at hexec
      obtain ⟨_, _, rfl⟩ := map_eq_ok.mp hexec
      exact Or.inl rfl
    | verifyMrEnclave mrenclave =>
      rw [hcall] at hexec
      obtain ⟨_, _, rfl⟩ := map_eq_ok.mp hexec
      exact Or.inl rfl
    | verifyMrSigner mrsigner =>
      rw [hcall] at hexec
      obtain ⟨_, _, rfl⟩ := map_eq_ok.mp hexec
      exact Or.inl rfl
    | checkAttestation prover report =>
      rw [hcall] at hexec
      obtain ⟨_, _, rfl⟩ := map_eq_ok.mp hexec
      exact Or.inl rfl
    | verifyAttestation prover data =>
      rw [hcall] at hexec
      obtain ⟨_, _, rfl⟩ := map_eq_ok.mp hexec
      exact Or.inl rfl

abbrev after (c : SGXVerifier) (txs : List Tx) : SGXVerifier := Run.after step c txs

theorem after_snoc (c : SGXVerifier) (txs : List Tx) (tx : Tx) :
    c.after (txs ++ [tx]) = (c.after txs).step tx := Run.after_snoc txs tx

def Commits (batchHash : SH256) (c : SGXVerifier) (tx : Tx) : Prop :=
  ∃ batchId poe p signer c' e, tx.call = .commitBatch batchId poe ∧ c.recover poe = .ok (p, signer) ∧
    p.batchHash = batchHash ∧ c.commitBatch tx.env batchId poe = .ok (c', e)

def Submits (prover : Address) (report : Bytes) (c : SGXVerifier) (tx : Tx) : Prop :=
  tx.call = .submitAttestationReport prover report ∧
    ∃ c' e, c.submitAttestationReport tx.env prover report = .ok (c', e)

theorem step_attestedProvers (prover : Address) (c : SGXVerifier) (tx : Tx) :
    (c.step tx).attestedProvers prover = c.attestedProvers prover ∨
      (∃ report, Submits prover report c tx) ∧
        (c.step tx).attestedProvers prover = tx.env.timestamp := by
  rcases c.step_cases tx with h | ⟨_, h⟩ | ⟨_, h⟩ | ⟨p, report, e, hcall, h⟩ | ⟨_, _, _, _, h⟩
  · exact Or.inl (by rw [h])
  · exact Or.inl (by rw [h])
  · exact Or.inl (by rw [h])
  · obtain ⟨_, _, hstep⟩ := submitAttestationReport_eq_ok.mp h
    by_cases hp : prover = p
    · subst hp
      refine Or.inr ⟨⟨report, hcall, _, e, h⟩, ?_⟩
      rw [hstep]
      exact Function.update_self ..
    · left
      rw [hstep]
      exact Function.update_of_ne hp ..
  · obtain ⟨_, _, _, _, _, _, hstep⟩ := commitBatch_eq_ok.mp h
    exact Or.inl (by rw [hstep])

theorem attested_of_ne_zero {c : SGXVerifier} {prover : Address} (hc : c.attestedProvers prover = 0)
    (txs : List Tx) (h : (c.after txs).attestedProvers prover ≠ 0) :
    ∃ pre tx post report, txs = pre ++ tx :: post ∧ Submits prover report (c.after pre) tx ∧
      (c.after txs).attestedProvers prover = tx.env.timestamp := by
  rcases Run.last_write (f := fun c => c.attestedProvers prover) (s := c)
    (W := fun c tx t => (∃ report, Submits prover report c tx) ∧ t = tx.env.timestamp)
    (step_attestedProvers prover) txs with hzero | ⟨pre, tx, post, heq, ⟨report, hsubmit⟩, ht⟩
  · exact absurd (hzero.trans hc) h
  · exact ⟨pre, tx, post, report, heq, hsubmit, ht⟩

theorem commitBatch_attested (owner : Address) (chainId : SU256) (txs : List Tx)
    (htime : txs.Pairwise fun a b => a.env.timestamp ≤ b.env.timestamp) :
    (∀ pre tx post batchId poe c' e, txs = pre ++ tx :: post → tx.call = .commitBatch batchId poe →
      ((new owner chainId).after pre).commitBatch tx.env batchId poe = .ok (c', e) →
      ∃ p signer, ((new owner chainId).after pre).recover poe = .ok (p, signer) ∧
        ∃ before sub between report reportData, pre = before ++ sub :: between ∧
          Submits signer report ((new owner chainId).after before) sub ∧
          sub.env.timestamp ≤ tx.env.timestamp ∧
          tx.env.timestamp.toNat <
            sub.env.timestamp.toNat + ((new owner chainId).after pre).attestValiditySeconds.toNat ∧
          sub.env.dcapAttestation.verifyAttestation report = .ok (true, reportData) ∧
          64 ≤ reportData.length ∧
          signer = BitVec.ofNat 160 (BigEndian.decode ((reportData.drop 44).take 20))) ∧
      ∀ pre tx post prover, txs = pre ++ tx :: post →
        ((new owner chainId).after (pre ++ [tx])).attestedProvers prover ≠
          ((new owner chainId).after pre).attestedProvers prover →
        ∃ report, Submits prover report ((new owner chainId).after pre) tx := by
  constructor
  · intro pre tx post batchId poe c' e heq hcall hcommit
    obtain ⟨p, signer, hrecover, ⟨⟨hattested, hdate⟩, _⟩, _⟩ := commitBatch_eq_ok.mp hcommit
    obtain ⟨before, sub, between, report, hpre, hsubmit, ht⟩ :=
      attested_of_ne_zero (c := new owner chainId) rfl pre hattested
    obtain ⟨_, _, hsub⟩ := hsubmit.2
    obtain ⟨hcheck, _⟩ := submitAttestationReport_eq_ok.mp hsub
    obtain ⟨reportData, hverify, hlen, hsigner⟩ := checkAttestation_eq_ok.mp hcheck
    have hle : sub.env.timestamp ≤ tx.env.timestamp := by
      rw [heq, hpre, List.append_assoc, List.cons_append] at htime
      have htail := (List.pairwise_append.mp htime).2.1
      exact List.rel_of_pairwise_cons htail (by simp)
    rw [ht] at hdate
    exact ⟨p, signer, hrecover, before, sub, between, report, reportData, hpre, hsubmit, hle, hdate,
      hverify, hlen, hsigner⟩
  · intro pre tx post prover heq hne
    rw [after_snoc] at hne
    rcases step_attestedProvers prover ((new owner chainId).after pre) tx with hkeep | ⟨hsubmit, _⟩
    · exact absurd hkeep hne
    · exact hsubmit

end Runs

section Sample

abbrev samplePrecompiles : Precompiles := ⟨fun _ => 0, fun _ => 0, fun _ _ r _ => r.setWidth 160⟩

def sampleEnv (timestamp : SU256) : Env :=
  ⟨0, timestamp, ⟨fun report => .ok (true, report), fun _ => .ok true, fun _ => .ok true⟩⟩

def samplePoe (newStateRoot : SH256) : Bytes :=
  ([5, 0, 0, newStateRoot, 0, 192, 65, 1, 0].map SH256.bytes).flatten ++ [27]

def sampleReport : Bytes := List.replicate 63 0 ++ [1]

def sampleSubmit : Tx := ⟨sampleEnv 100, .submitAttestationReport 1 sampleReport⟩

def sampleCommit (newStateRoot : SH256) : Tx := ⟨sampleEnv 200, .commitBatch 9 (samplePoe newStateRoot)⟩

end Sample

theorem sampleSubmit_inDate :
    letI := samplePrecompiles
    ((new 0 1).after [sampleSubmit]).InDate 1 200 := by
  let := samplePrecompiles
  unfold InDate Current
  decide +kernel

theorem sample_recover :
    letI := samplePrecompiles
    ((new 0 1).after [sampleSubmit]).recover (samplePoe 3) =
      .ok (⟨5, 0, 0, 3, 0, SH256.bytes 1 ++ SH256.bytes 0 ++ [27]⟩, 1) := by
  let := samplePrecompiles
  decide +kernel

theorem commitBatch_attested_sample :
    letI := samplePrecompiles
    ∃ before sub between report, [sampleSubmit] = before ++ sub :: between ∧
      Submits 1 report ((new 0 1).after before) sub ∧ sub.env.timestamp ≤ 200 := by
  let := samplePrecompiles
  have htime : [sampleSubmit, sampleCommit 3].Pairwise fun a b => a.env.timestamp ≤ b.env.timestamp := by
    decide
  have hopen : (((new 0 1).after [sampleSubmit]).batches 5).newStateRoot = 0 := by decide +kernel
  obtain ⟨p, signer, hsigner, before, sub, between, report, _, hpre, hsubmit, hle, _⟩ :=
    (commitBatch_attested 0 1 [sampleSubmit, sampleCommit 3] htime).1 [sampleSubmit] (sampleCommit 3) []
      9 (samplePoe 3) _ _ rfl rfl
      (commitBatch_eq_ok.mpr ⟨_, 1, sample_recover, sampleSubmit_inDate, hopen, rfl, rfl⟩)
  obtain ⟨_, rfl⟩ := Prod.mk.inj (Except.ok.inj (sample_recover.symm.trans hsigner))
  exact ⟨before, sub, between, report, hpre, hsubmit, hle⟩

section Once

variable [Precompiles]

/-- No prover in date signs the zero root for the batch while it is open. -/
def Marks (batchHash : SH256) (c : SGXVerifier) (tx : Tx) : Prop :=
  (c.batches batchHash).newStateRoot = 0 → ∀ batchId poe p signer, tx.call = .commitBatch batchId poe →
    c.recover poe = .ok (p, signer) → c.InDate signer tx.env.timestamp → p.batchHash = batchHash →
    p.newStateRoot ≠ 0

variable {batchHash : SH256}

theorem Commits.step_batches {c : SGXVerifier} {tx : Tx} (h : Commits batchHash c tx) :
    ∃ batchId poe p signer, tx.call = .commitBatch batchId poe ∧ c.recover poe = .ok (p, signer) ∧
      c.InDate signer tx.env.timestamp ∧ p.batchHash = batchHash ∧ (c.batches batchHash).newStateRoot = 0 ∧
      c.step tx = { c with batches := Function.update c.batches batchHash (p.info batchId) } := by
  obtain ⟨batchId, poe, p, signer, c', e, hcall, hrecover, rfl, hcommit⟩ := h
  obtain ⟨q, signer', hrecover', hdate, hopen, _, rfl⟩ := commitBatch_eq_ok.mp hcommit
  obtain ⟨rfl, rfl⟩ := Prod.mk.inj (Except.ok.inj (hrecover'.symm.trans hrecover))
  have hstep : c.exec tx =
      .ok { c with batches := Function.update c.batches q.batchHash (q.info batchId) } := by
    rw [exec, hcall]
    change Prod.fst <$> c.commitBatch tx.env batchId poe = _
    rw [hcommit]
    rfl
  exact ⟨batchId, poe, q, signer', hcall, hrecover, hdate, rfl, hopen, by rw [step, hstep]⟩

theorem step_committed {c : SGXVerifier} {tx : Tx} (hcommitted : (c.batches batchHash).newStateRoot ≠ 0) :
    (c.step tx).batches batchHash = c.batches batchHash := by
  rcases c.step_cases tx with h | ⟨_, h⟩ | ⟨_, h⟩ | ⟨_, _, _, _, h⟩ | ⟨batchId, poe, e, hcall, h⟩
  · rw [h]
  · rw [h]
  · rw [h]
  · obtain ⟨_, _, hstep⟩ := submitAttestationReport_eq_ok.mp h
    rw [hstep]
  · obtain ⟨p, _, _, _, hopen, _, hstep⟩ := commitBatch_eq_ok.mp h
    have hne : batchHash ≠ p.batchHash := by
      rintro rfl
      exact hcommitted hopen
    rw [hstep]
    exact Function.update_of_ne hne ..

theorem after_committed {c : SGXVerifier} (hcommitted : (c.batches batchHash).newStateRoot ≠ 0)
    (txs : List Tx) : (c.after txs).batches batchHash = c.batches batchHash := by
  refine Run.invariant (P := fun d : SGXVerifier => d.batches batchHash = c.batches batchHash)
    (C := fun _ _ => True) ?_ rfl txs (fun _ _ _ _ => trivial)
  intro d tx hd _
  rw [← hd]
  apply step_committed
  rw [hd]
  exact hcommitted

theorem Commits.committed {c : SGXVerifier} {tx : Tx} (h : Commits batchHash c tx)
    (hmarks : Marks batchHash c tx) : ((c.step tx).batches batchHash).newStateRoot ≠ 0 := by
  obtain ⟨batchId, poe, p, signer, hcall, hrecover, hdate, hhash, hopen, hstep⟩ := h.step_batches
  rw [hstep]
  change (Function.update c.batches batchHash (p.info batchId) batchHash).newStateRoot ≠ 0
  rw [Function.update_self]
  exact hmarks hopen batchId poe p signer hcall hrecover hdate hhash

theorem marks_of_decode {c : SGXVerifier} {env : Env} {batchId : SU256} {poe : Bytes} {p : Poe}
    (hdecode : Poe.decode poe = .ok p) (hroot : p.newStateRoot ≠ 0) :
    Marks batchHash c ⟨env, .commitBatch batchId poe⟩ := by
  rintro _ _ _ q signer ⟨⟩ hrecover _ _
  obtain ⟨q', hq, hrest⟩ := bind_eq_ok.mp hrecover
  obtain ⟨_, _, hrest⟩ := bind_eq_ok.mp hrest
  obtain ⟨_, _, hpair⟩ := bind_eq_ok.mp hrest
  obtain ⟨rfl, _⟩ := Prod.mk.inj (Except.ok.inj hpair)
  obtain rfl : p = q' := Except.ok.inj (hdecode.symm.trans hq)
  exact hroot

theorem commits_of_not_marks {c : SGXVerifier} {tx : Tx} (h : ¬ Marks batchHash c tx) :
    Commits batchHash c tx ∧ Commits batchHash (c.step tx) tx := by
  unfold Marks at h
  push Not at h
  obtain ⟨hopen, batchId, poe, p, signer, hcall, hrecover, hdate, rfl, hzero⟩ := h
  have hcommits (d : SGXVerifier) (hd : d.recover poe = .ok (p, signer))
      (hdate : d.InDate signer tx.env.timestamp) (hopen : (d.batches p.batchHash).newStateRoot = 0) :
      Commits p.batchHash d tx :=
    ⟨batchId, poe, p, signer, _, _, hcall, hd, rfl,
      commitBatch_eq_ok.mpr ⟨p, signer, hd, hdate, hopen, rfl, rfl⟩⟩
  have hfirst := hcommits c hrecover hdate hopen
  refine ⟨hfirst, ?_⟩
  obtain ⟨_, poe', p', _, hcall', hrecover', _, _, _, hstep⟩ := hfirst.step_batches
  obtain ⟨rfl, rfl⟩ := Call.commitBatch.inj (hcall.symm.trans hcall')
  obtain ⟨rfl, _⟩ := Prod.mk.inj (Except.ok.inj (hrecover.symm.trans hrecover'))
  rw [hstep]
  apply hcommits
  · exact hrecover
  · exact hdate
  · change (Function.update c.batches p.batchHash (p.info batchId) p.batchHash).newStateRoot = 0
    rw [Function.update_self]
    exact hzero

/-- A batch is committed once and for all, unless a prover in date signs the zero root for it: that
transaction can be sent again. -/
theorem commitBatch_once_iff (batchHash : SH256) (owner : Address) (chainId : SU256) (txs : List Tx) :
    ((∀ pre tx post, txs = pre ++ tx :: post → Marks batchHash ((new owner chainId).after pre) tx) →
      ∀ pre tx mid post, txs = pre ++ tx :: (mid ++ post) →
        Commits batchHash ((new owner chainId).after pre) tx →
        ((new owner chainId).after (pre ++ tx :: mid)).batches batchHash =
            ((new owner chainId).after (pre ++ [tx])).batches batchHash ∧
          ∀ tx', ¬ Commits batchHash ((new owner chainId).after (pre ++ tx :: mid)) tx') ∧
      ∀ tx, ¬ Marks batchHash ((new owner chainId).after txs) tx →
        Commits batchHash ((new owner chainId).after txs) tx ∧
          Commits batchHash ((new owner chainId).after (txs ++ [tx])) tx := by
  constructor
  · intro hmarks pre tx mid post heq hcommits
    have hcommitted := hcommits.committed (hmarks pre tx (mid ++ post) heq)
    have hafter : (new owner chainId).after (pre ++ tx :: mid) =
        (((new owner chainId).after pre).step tx).after mid := by
      rw [after, Run.after_append]
      rfl
    have hkeep := after_committed hcommitted mid
    rw [hafter, after_snoc]
    refine ⟨hkeep, ?_⟩
    intro tx' hagain
    obtain ⟨_, _, _, _, _, _, _, _, hopen, _⟩ := hagain.step_batches
    rw [hkeep] at hopen
    exact hcommitted hopen
  · intro tx hmarks
    rw [after_snoc]
    exact commits_of_not_marks hmarks

end Once

theorem commitBatch_once_sample :
    letI := samplePrecompiles
    ((new 0 1).after [sampleSubmit, sampleCommit 3, sampleCommit 4]).batches 5 =
      ((new 0 1).after [sampleSubmit, sampleCommit 3]).batches 5 := by
  let := samplePrecompiles
  have hcommits : Commits 5 ((new 0 1).after [sampleSubmit]) (sampleCommit 3) :=
    ⟨9, samplePoe 3, _, 1, _, _, rfl, sample_recover, rfl, commitBatch_eq_ok.mpr
      ⟨_, 1, sample_recover, sampleSubmit_inDate, by decide +kernel, rfl, rfl⟩⟩
  refine ((commitBatch_once_iff 5 0 1 [sampleSubmit, sampleCommit 3, sampleCommit 4]).1 ?_ [sampleSubmit]
    (sampleCommit 3) [sampleCommit 4] [] rfl hcommits).1
  intro pre tx post heq
  have hmem : tx ∈ [sampleSubmit, sampleCommit 3, sampleCommit 4] := by
    rw [heq]
    simp
  simp only [List.mem_cons, List.not_mem_nil, or_false] at hmem
  rcases hmem with rfl | rfl | rfl
  · intro _ _ _ _ _ hcall
    cases hcall
  · exact marks_of_decode (p := ⟨5, 0, 0, 3, 0, SH256.bytes 1 ++ SH256.bytes 0 ++ [27]⟩)
      (by decide +kernel) (by decide)
  · exact marks_of_decode (p := ⟨5, 0, 0, 4, 0, SH256.bytes 1 ++ SH256.bytes 0 ++ [27]⟩)
      (by decide +kernel) (by decide)

theorem commitBatch_twice :
    letI := samplePrecompiles
    Commits 5 ((new 0 1).after [sampleSubmit]) (sampleCommit 0) ∧
      Commits 5 ((new 0 1).after [sampleSubmit, sampleCommit 0]) (sampleCommit 3) ∧
      ((new 0 1).after [sampleSubmit, sampleCommit 0, sampleCommit 3]).batches 5 ≠
        ((new 0 1).after [sampleSubmit, sampleCommit 0]).batches 5 := by
  let := samplePrecompiles
  have hopen : ¬ Marks 5 ((new 0 1).after [sampleSubmit]) (sampleCommit 0) := by
    intro hmarks
    have hrecover : ((new 0 1).after [sampleSubmit]).recover (samplePoe 0) =
        .ok (⟨5, 0, 0, 0, 0, SH256.bytes 1 ++ SH256.bytes 0 ++ [27]⟩, 1) := by decide +kernel
    exact hmarks (by decide +kernel) 9 (samplePoe 0) _ 1 rfl hrecover sampleSubmit_inDate rfl rfl
  have hrecover : ((new 0 1).after [sampleSubmit, sampleCommit 0]).recover (samplePoe 3) =
      .ok (⟨5, 0, 0, 3, 0, SH256.bytes 1 ++ SH256.bytes 0 ++ [27]⟩, 1) := by decide +kernel
  have hdate : ((new 0 1).after [sampleSubmit, sampleCommit 0]).InDate 1 200 := by
    unfold InDate Current
    decide +kernel
  refine ⟨(commits_of_not_marks hopen).1, ?_, by decide +kernel⟩
  exact ⟨9, samplePoe 3, _, 1, _, _, rfl, hrecover, rfl, commitBatch_eq_ok.mpr
    ⟨_, 1, hrecover, hdate, by decide +kernel, rfl, rfl⟩⟩

end SGXVerifier

end LineaSgxProver.Verifier
