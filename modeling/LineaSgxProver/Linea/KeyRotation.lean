import LineaSgxProver.Linea.MonitorSteps
import LineaSgxProver.Verifier.AttestedCommits

namespace LineaSgxProver.Linea

open Library
open Verifier (Address ChainTx Deployment ISigVerifyLib IPEMCertChainLib Precompiles Solady)
open Secp256k1 (ethAccountid)

section System

variable {Key : Type} [Secp256k1 Key] [Profile] [Precompiles] [Solady]

/-- What an iteration of the monitor meets besides the answers of the chain, to which transactions may be
sent between the two calls. -/
structure Visit (Key : Type) where
  statusAnswered : Bool
  between : List ChainTx
  secondsAnswered : Bool
  now : UInt64
  clock : ℕ
  newKey : Key
  report : Option Bytes
  submitted : Bytes → Bool
  submitClock : ℕ

inductive Happening (Key : Type) where
  | tx (tx : ChainTx)
  | visit (v : Visit Key)

def Happening.txs : Happening Key → List ChainTx
  | .tx t => [t]
  | .visit v => v.between

/-- The chain, and the prover that has its key attested there. -/
structure Rotation (Key : Type) where
  chain : Deployment
  monitor : Monitor Key

namespace Rotation

def poll (s : Rotation Key) (v : Visit Key) : Poll Key where
  proverStatus :=
    if v.statusAnswered then some (s.chain.verifier.attestedProvers (ethAccountid s.monitor.asked)) else none
  attestValiditySeconds :=
    if v.secondsAnswered then some (s.chain.after v.between).verifier.attestValiditySeconds else none
  now := v.now
  clock := v.clock
  newKey := v.newKey
  report := v.report
  submitted := v.submitted
  submitClock := v.submitClock

def next (s : Rotation Key) : Happening Key → Option (Rotation Key)
  | .tx tx => some { s with chain := s.chain.step tx }
  | .visit v => (s.monitor.iterate (s.poll v)).map fun monitor => ⟨s.chain.after v.between, monitor⟩

def run (s : Rotation Key) (happenings : List (Happening Key)) : Option (Rotation Key) := happenings.foldlM next s

def txs (happenings : List (Happening Key)) : List ChainTx := happenings.flatMap Happening.txs

variable {s u : Rotation Key}

omit [Profile] in
theorem poll_proverStatus {v : Visit Key} {status : SU256} (h : (s.poll v).proverStatus = some status) :
    status = s.chain.verifier.attestedProvers (ethAccountid s.monitor.asked) := by
  unfold poll at h
  simp only [Option.ite_none_right_eq_some] at h
  exact (Option.some.inj h.2).symm

omit [Profile] in
theorem poll_attestValiditySeconds {v : Visit Key} {seconds : SU256}
    (h : (s.poll v).attestValiditySeconds = some seconds) :
    seconds = (s.chain.after v.between).verifier.attestValiditySeconds := by
  unfold poll at h
  simp only [Option.ite_none_right_eq_some] at h
  exact (Option.some.inj h.2).symm

theorem next_chain {h : Happening Key} (hnext : s.next h = some u) : u.chain = s.chain.after h.txs := by
  cases h with
  | tx tx =>
    cases hnext
    rfl
  | visit v =>
    obtain ⟨m, _, rfl⟩ := Option.map_eq_some_iff.mp hnext
    rfl

theorem run_cons {h : Happening Key} {happenings : List (Happening Key)} :
    s.run (h :: happenings) = some u ↔ ∃ t, s.next h = some t ∧ t.run happenings = some u := by
  rw [run, List.foldlM_cons, Option.bind_eq_bind, Option.bind_eq_some_iff]
  rfl

theorem run_chain {happenings : List (Happening Key)} (hrun : s.run happenings = some u) :
    u.chain = s.chain.after (txs happenings) := by
  induction happenings generalizing s with
  | nil =>
    cases hrun
    rfl
  | cons h happenings ih =>
    obtain ⟨t, hnext, hrest⟩ := run_cons.mp hrun
    rw [ih hrest, next_chain hnext, txs, txs, List.flatMap_cons]
    exact (Deployment.after_append ..).symm

omit [Secp256k1 Key] [Profile] [Precompiles] [Solady] in
theorem txs_append (xs ys : List (Happening Key)) : txs (xs ++ ys) = txs xs ++ txs ys := List.flatMap_append

omit [Secp256k1 Key] [Profile] [Precompiles] [Solady] in
theorem txs_snoc (xs : List (Happening Key)) (h : Happening Key) : txs (xs ++ [h]) = txs xs ++ h.txs := by
  rw [txs_append, txs, txs, List.flatMap_singleton]

theorem run_append {xs ys : List (Happening Key)} :
    s.run (xs ++ ys) = some u ↔ ∃ t, s.run xs = some t ∧ t.run ys = some u := by
  rw [run, List.foldlM_append, Option.bind_eq_bind, Option.bind_eq_some_iff]
  rfl

theorem run_singleton {h : Happening Key} : s.run [h] = s.next h := by
  rw [run, List.foldlM_cons]
  exact bind_pure (s.next h)

def start (chain : Deployment) (prvkey : Key) : Rotation Key := ⟨chain, Monitor.start (Prover.new prvkey)⟩

theorem run_reported {chain : Deployment} (hfresh : ∀ a, chain.verifier.attestedProvers a = 0) (prvkey : Key)
    (happenings : List (Happening Key)) {w : Rotation Key} (hrun : (start chain prvkey).run happenings = some w)
    (hclock : ∀ before v after, happenings = before ++ .visit v :: after →
      (chain.after (txs before ++ v.between)).verifier.attestValiditySeconds.toNat < v.now.toNat)
    (hflag : w.monitor.prover.isAttested = true) :
    Deployment.Reported chain (txs happenings) (ethAccountid w.monitor.prover.getPrvkey) := by
  revert hflag
  apply Run.foldlM_induction (P := fun pre u => u.monitor.prover.isAttested = true →
    Deployment.Reported chain (txs pre) (ethAccountid u.monitor.prover.getPrvkey)) _ happenings _ hrun
  · intro hflag
    cases hflag
  · intro pre h post u v heq hpre ih hnext hflag
    have hchain : u.chain = chain.after (txs pre) := run_chain hpre
    rw [txs_snoc]
    cases h with
    | tx t =>
      cases hnext
      exact (ih hflag).append _
    | visit visit =>
      obtain ⟨m, hm, rfl⟩ := Option.map_eq_some_iff.mp hnext
      have hnow : ∀ seconds, (u.poll visit).attestValiditySeconds = some seconds →
          seconds.toNat < (u.poll visit).now.toNat := by
        intro seconds hseconds
        have hlate := hclock pre visit post heq
        rw [Deployment.after_append] at hlate
        rw [poll_attestValiditySeconds hseconds, hchain]
        exact hlate
      rcases Monitor.iterate_attested hm hflag hnow with hsame | ⟨status, hstatus, hne, hasked⟩
      · simp only [hsame] at hflag ⊢
        exact (ih hflag).append _
      · apply Deployment.Reported.append
        apply Deployment.reported_of_attested (hfresh _)
        simp only [hasked, ← hchain]
        rw [← poll_proverStatus hstatus]
        exact hne

theorem run_waits {key : Key} {validity : UInt64} {due : ℕ} (h : s.monitor.Waits key validity due)
    (happenings : List (Happening Key))
    (hstatus : ∀ before v after a, happenings = before ++ .visit v :: after →
      ((s.chain.after (txs before)).verifier.attestedProvers a).toNat + validity.toNat < 2 ^ 64)
    (hseconds : ∀ before v after, happenings = before ++ .visit v :: after →
      (s.chain.after (txs before ++ v.between)).verifier.attestValiditySeconds.toNat = validity.toNat)
    (hclock : ∀ v, .visit v ∈ happenings → v.clock ≤ due) :
    ∃ w, s.run happenings = some w ∧ w.monitor.Waits key validity due := by
  induction happenings using List.reverseRecOn with
  | nil => exact ⟨s, rfl, h⟩
  | append_singleton happenings last ih =>
    have hsplit {before v after} (heq : happenings = before ++ Happening.visit v :: after) :
        happenings ++ [last] = before ++ .visit v :: (after ++ [last]) := by
      rw [heq, List.append_assoc, List.cons_append]
    obtain ⟨u, hrun, hwaits⟩ := ih (fun before v after a heq => hstatus before v (after ++ [last]) a (hsplit heq))
      (fun before v after heq => hseconds before v (after ++ [last]) (hsplit heq))
      (fun v hv => hclock v (List.mem_append_left _ hv))
    have hchain := run_chain hrun
    cases last with
    | tx t => exact ⟨_, run_append.mpr ⟨u, hrun, rfl⟩, hwaits⟩
    | visit v =>
      have hpoll := hseconds happenings v [] rfl
      rw [Deployment.after_append] at hpoll
      obtain ⟨m, hm, hwaits⟩ := hwaits.iterate (p := u.poll v)
        (by
          intro status hv
          rw [poll_proverStatus hv, hchain]
          exact hstatus happenings v [] _ rfl)
        (by
          intro seconds hv
          rw [poll_attestValiditySeconds hv, hchain]
          exact hpoll)
        (hclock v (by simp))
      refine ⟨⟨u.chain.after v.between, m⟩, run_append.mpr ⟨u, hrun, ?_⟩, hwaits⟩
      rw [run_singleton, next, hm]
      rfl

open Verifier.AutomataDcapV3Attestation (sampleContract sampleQuote trustingSolady)
open Verifier.Deployment (namingPrecompiles sampleProver sampleSettings sampleSubmission sampleBatch)

section Sample

def sampleKey : ℕ := sampleProver.toNat

def sampleVisit (now : UInt64) : Visit ℕ :=
  ⟨true, [], true, now, now.toNat * 10 ^ 9, sampleKey, some [], fun _ => true, now.toNat * 10 ^ 9⟩

def sampleChanges : List ChainTx := sampleSettings ++ [⟨3, 3, .verifier (.changeAttestValiditySeconds 4)⟩]

/-- The settings are made, the validity is cut to four seconds, and the first iteration stages a key. -/
def sampleStaging : List (Happening ℕ) := sampleChanges.map .tx ++ [.visit (sampleVisit 4)]

omit [Profile] [Precompiles] [Solady] in
theorem visit_last {history : List ChainTx} {v w : Visit ℕ} {before after : List (Happening ℕ)}
    (h : history.map Happening.tx ++ [.visit w] = before ++ .visit v :: after) :
    before = history.map .tx ∧ v = w := by
  induction history generalizing before with
  | nil =>
    rcases before with _ | ⟨x, before⟩
    · cases h
      exact ⟨rfl, rfl⟩
    · simp at h
  | cons t history ih =>
    rcases before with _ | ⟨x, before⟩
    · cases h
    · obtain ⟨rfl, hrest⟩ := List.cons.inj h
      obtain ⟨rfl, rfl⟩ := ih hrest
      exact ⟨rfl, rfl⟩

end Sample

variable (deployer owner : Address) (sigVerifyLib : ISigVerifyLib) (pemCertLib : IPEMCertChainLib) (chainId : SU256)
  (prvkey : Key)

/-- A prover that counts as attested holds a key for which the contract has accepted a genuine quote, however
its iterations fall between the transactions. -/
theorem attested_key_genuine (heq : ∀ a b, Solady.eq a b = true ↔ a = b) (happenings : List (Happening Key))
    {w : Rotation Key}
    (hrun : (start (.new deployer sigVerifyLib pemCertLib owner chainId) prvkey).run happenings = some w)
    (hclock : ∀ before v after, happenings = before ++ .visit v :: after →
      ((Deployment.new deployer sigVerifyLib pemCertLib owner chainId).after
        (txs before ++ v.between)).verifier.attestValiditySeconds.toNat < v.now.toNat)
    (hflag : w.monitor.prover.isAttested = true) :
    ∃ before sub between quote, txs happenings = before ++ sub :: between ∧
      sub.call = .verifier (.submitAttestationReport (ethAccountid w.monitor.prover.getPrvkey) quote) ∧
      Deployment.Genuine (Verifier.settings deployer sigVerifyLib pemCertLib before) sub.timestamp
        (ethAccountid w.monitor.prover.getPrvkey) quote := by
  obtain ⟨before, sub, between, hsplit, quote, hcall, haccepted⟩ :=
    run_reported (fun _ => rfl) prvkey happenings hrun hclock hflag
  refine ⟨before, sub, between, quote, hsplit, hcall, ?_⟩
  exact (Deployment.deployed_check_iff heq before sub.sender sub.timestamp _ quote).mp
    (Deployment.submits_iff.mp haccepted)

omit [Profile] [Precompiles] [Solady] in
theorem attested_key_genuine_sample :
    letI := namingPrecompiles
    letI := trustingSolady
    ∃ before sub between quote, sampleSettings ++ [sampleSubmission] = before ++ sub :: between ∧
      sub.call = .verifier (.submitAttestationReport sampleProver quote) ∧
      Deployment.Genuine (Verifier.settings 0 sampleContract.sigVerifyLib sampleContract.pemCertLib before)
        sub.timestamp sampleProver quote := by
  let := sampleKeys
  let := debugProfile
  let := namingPrecompiles
  let := trustingSolady
  have heq : ∀ a b, Solady.eq a b = true ↔ a = b := by
    intro a b
    exact beq_iff_eq
  have hrun : ((start (.new 0 sampleContract.sigVerifyLib sampleContract.pemCertLib 3 7) sampleKey).run
      ((sampleSettings ++ [sampleSubmission]).map .tx ++ [.visit (sampleVisit 3601)])).map
        (fun w => (w.monitor.prover.isAttested, w.monitor.prover.getPrvkey)) = some (true, sampleKey) := by
    decide +kernel
  obtain ⟨w, hw, hprover⟩ := Option.map_eq_some_iff.mp hrun
  obtain ⟨hflag, hkey⟩ := Prod.mk.inj hprover
  have haccount : ethAccountid w.monitor.prover.getPrvkey = sampleProver := by
    rw [hkey]
    decide +kernel
  have hclock : ∀ before v after, (sampleSettings ++ [sampleSubmission]).map Happening.tx ++
      [.visit (sampleVisit 3601)] = before ++ .visit v :: after →
      ((Deployment.new 0 sampleContract.sigVerifyLib sampleContract.pemCertLib 3 7).after
        (txs before ++ v.between)).verifier.attestValiditySeconds.toNat < v.now.toNat := by
    intro before v after hsplit
    obtain ⟨rfl, rfl⟩ := visit_last hsplit
    decide +kernel
  have hgenuine := attested_key_genuine 0 3 sampleContract.sigVerifyLib sampleContract.pemCertLib 7 sampleKey heq
    _ hw hclock hflag
  rw [haccount] at hgenuine
  exact hgenuine

/-- A key that has just been promoted can commit batches for at least half a validity more, whatever is sent
to the chain until then, as long as the validity is what it was at the promotion. -/
theorem promoted_key_commits (pre post : List (Happening Key)) (v : Visit Key) (key : Key) {u u' w : Rotation Key}
    (hpre : (start (.new deployer sigVerifyLib pemCertLib owner chainId) prvkey).run pre = some u)
    (hvisit : u.next (.visit v) = some u') (hpost : u'.run post = some w)
    (hstaged : u.monitor.stagingKey = some key) (hpromoted : u'.monitor.stagingKey = none)
    (hvalidity : w.chain.verifier.attestValiditySeconds = u'.chain.verifier.attestValiditySeconds)
    (hclock : u'.chain.verifier.attestValiditySeconds.toNat < v.now.toNat)
    (htime : (txs (pre ++ .visit v :: post)).Pairwise fun x y => x.timestamp ≤ y.timestamp)
    (hbound : ∀ tx ∈ txs (pre ++ .visit v :: post),
      tx.timestamp.toNat + u'.chain.verifier.attestValiditySeconds.toNat < 2 ^ 256)
    (sender : Address) (now batchId : SU256) (poe : Bytes) (p : Verifier.Poe)
    (hnow : now.toNat < v.now.toNat + (u'.chain.verifier.attestValiditySeconds.toNat -
      u'.chain.verifier.attestValiditySeconds.toNat / 2))
    (hrecover : w.chain.verifier.recover poe = .ok (p, ethAccountid key))
    (hopen : (w.chain.verifier.batches p.batchHash).newStateRoot = 0) :
    u'.monitor.prover = ⟨key, true⟩ ∧ ∃ c e,
      w.chain.verifier.commitBatch (w.chain.env sender now) batchId poe = .ok (c, e) := by
  have hbefore : u.chain = (Deployment.new deployer sigVerifyLib pemCertLib owner chainId).after (txs pre) :=
    run_chain hpre
  have hafter := run_chain hpost
  obtain ⟨m, hm, rfl⟩ := Option.map_eq_some_iff.mp hvisit
  obtain ⟨status, seconds, hstatus, hseconds, happroved, hprover⟩ := Monitor.iterate_promotes hm hstaged hpromoted
  refine ⟨hprover, ?_⟩
  obtain rfl := poll_proverStatus hstatus
  obtain rfl := poll_attestValiditySeconds hseconds
  have hasked : u.monitor.asked = key := by
    rw [Monitor.asked, hstaged]
    rfl
  rw [hasked, hbefore] at happroved
  have hhistory : txs (pre ++ Happening.visit v :: post) = txs pre ++ (v.between ++ txs post) := by
    rw [txs_append, txs, txs, List.flatMap_cons]
    rfl
  rw [hhistory] at htime hbound
  have hw : w.chain = (Deployment.new deployer sigVerifyLib pemCertLib owner chainId).after
      (txs pre ++ (v.between ++ txs post)) := by
    rw [Deployment.after_append, Deployment.after_append, ← hbefore]
    exact hafter
  change w.chain.verifier.attestValiditySeconds = (u.chain.after v.between).verifier.attestValiditySeconds
    at hvalidity
  have hdate : w.chain.verifier.InDate (ethAccountid key) now := by
    rw [hw] at hvalidity ⊢
    apply Deployment.inDate_after rfl htime hvalidity hbound
    have hlate : (u.chain.after v.between).verifier.attestValiditySeconds.toNat < v.now.toNat := hclock
    have hvisited : (u.poll v).now = v.now := rfl
    rw [hvisited, ← hbefore] at happroved
    rw [← hbefore]
    refine ⟨?_, ?_⟩
    · intro hnone
      have hzero : (0 : SU256).toNat = 0 := rfl
      rw [hnone, hzero] at happroved
      omega
    · change now.toNat < v.now.toNat + ((u.chain.after v.between).verifier.attestValiditySeconds.toNat -
        (u.chain.after v.between).verifier.attestValiditySeconds.toNat / 2) at hnow
      rw [hbefore] at hnow happroved ⊢
      omega
  exact ⟨_, _, Verifier.SGXVerifier.commitBatch_eq_ok.mpr ⟨p, _, hrecover, hdate, hopen, rfl, rfl⟩⟩

omit [Profile] [Precompiles] [Solady] in
theorem promoted_key_commits_sample :
    letI := sampleKeys
    letI := debugProfile
    letI := namingPrecompiles
    letI := trustingSolady
    ∃ u w : Rotation ℕ, (start (.new 0 sampleContract.sigVerifyLib sampleContract.pemCertLib 3 7) 1).run
        (sampleStaging ++ [.tx sampleSubmission, .visit (sampleVisit 6)]) = some u ∧
      u.run [.tx ⟨9, 7, .dcap (.setMrEnclave 0 false)⟩] = some w ∧ u.monitor.prover = ⟨sampleKey, true⟩ ∧
      ∃ c e, w.chain.verifier.commitBatch (w.chain.env 8 7) 9 sampleBatch = .ok (c, e) := by
  let := sampleKeys
  let := debugProfile
  let := namingPrecompiles
  let := trustingSolady
  have hrun : ((start (.new 0 sampleContract.sigVerifyLib sampleContract.pemCertLib 3 7) 1).run
      (sampleStaging ++ [.tx sampleSubmission])).map (fun u => (u.monitor.stagingKey,
        (u.next (.visit (sampleVisit 6))).map fun u' => u'.monitor.stagingKey)) =
          some (some sampleKey, some none) := by decide +kernel
  obtain ⟨u, hu, hmonitor⟩ := Option.map_eq_some_iff.mp hrun
  obtain ⟨hstaged, hvisit⟩ := Prod.mk.inj hmonitor
  obtain ⟨u', hu', hpromoted⟩ := Option.map_eq_some_iff.mp hvisit
  have hchain : u'.chain = _ := (next_chain hu').trans (congrArg (Deployment.after · _) (run_chain hu))
  obtain ⟨w, hw⟩ : ∃ w, u'.run [.tx ⟨9, 7, .dcap (.setMrEnclave 0 false)⟩] = some w := ⟨_, rfl⟩
  have hlast := (run_chain hw).trans (congrArg (Deployment.after · _) hchain)
  have hcommits := promoted_key_commits 0 3 sampleContract.sigVerifyLib sampleContract.pemCertLib 7 1
    (sampleStaging ++ [.tx sampleSubmission]) [.tx ⟨9, 7, .dcap (.setMrEnclave 0 false)⟩] (sampleVisit 6)
    sampleKey hu hu' hw hstaged hpromoted (by rw [hlast, hchain]; decide +kernel) (by rw [hchain]; decide +kernel)
    (by decide +kernel) (by rw [hchain]; decide +kernel) 8 7 9 sampleBatch
    ⟨5, 0, 0, 3, 0, SH256.bytes (sampleProver.setWidth 256) ++ SH256.bytes 0 ++ [27]⟩
    (by rw [hchain]; decide +kernel) (by rw [hlast]; decide +kernel) (by rw [hlast]; decide +kernel)
  refine ⟨u', w, ?_, hw, hcommits⟩
  have hrun' := run_append.mpr ⟨u, hu, run_singleton.trans hu'⟩
  rwa [List.append_assoc] at hrun'

/-- The approval of a staged key is not missed: where the owner leaves the validity alone, the clock is in
time and the cooldown has not passed, it makes an answered iteration promote the key. -/
theorem rotation_completes (heq : ∀ a b, Solady.eq a b = true ↔ a = b) (pre mid : List (Happening Key))
    (v : Visit Key) (key : Key) {u : Rotation Key} {submitted : ℕ} {validity : UInt64}
    (hpre : (start (.new deployer sigVerifyLib pemCertLib owner chainId) prvkey).run pre = some u)
    (hstaged : u.monitor.stagingKey = some key) (hsubmit : u.monitor.lastSubmit = some submitted)
    (before between : List ChainTx) (sub : ChainTx) (quote : Bytes) (hsplit : txs mid = before ++ sub :: between)
    (hcall : sub.call = .verifier (.submitAttestationReport (ethAccountid key) quote))
    (hgenuine : Deployment.Genuine (Verifier.settings deployer sigVerifyLib pemCertLib (txs pre ++ before))
      sub.timestamp (ethAccountid key) quote)
    (hvalidity : ∀ past future, txs (mid ++ [.visit v]) = past ++ future →
      (u.chain.after past).verifier.attestValiditySeconds.toNat = validity.toNat)
    (hpos : 0 < validity)
    (htime : (txs (pre ++ mid)).Pairwise fun x y => x.timestamp ≤ y.timestamp)
    (hbound : ∀ tx ∈ txs (pre ++ mid), tx.timestamp.toNat + validity.toNat < 2 ^ 64)
    (hcooldown : ∀ w, .visit w ∈ mid ++ [.visit v] → w.clock ≤ submitted +
      (u.monitor.cooled validity).submitCooldown * 10 ^ 9)
    (hanswered : v.statusAnswered = true ∧ v.secondsAnswered = true)
    (hnow : v.now.toNat ≤ sub.timestamp.toNat + validity.toNat / 2) :
    ∃ w, u.run (mid ++ [.visit v]) = some w ∧ w.monitor.prover = ⟨key, true⟩ ∧ w.monitor.stagingKey = none := by
  have hbefore : u.chain = (Deployment.new deployer sigVerifyLib pemCertLib owner chainId).after (txs pre) :=
    run_chain hpre
  have hstart : u.monitor.Waits key validity (submitted + (u.monitor.cooled validity).submitCooldown * 10 ^ 9) := by
    refine ⟨?_, submitted, hsubmit, rfl⟩
    rw [Monitor.asked, hstaged]
    rfl
  -- every account's attestation is one of the history's timestamps, or none
  have hsum (past future : List ChainTx) (a : Address) (hpast : txs mid = past ++ future) :
      ((u.chain.after past).verifier.attestedProvers a).toNat + validity.toNat < 2 ^ 64 := by
    rw [hbefore, ← Deployment.after_append]
    apply Deployment.attested_of_timestamps (P := fun t => t.toNat + validity.toNat < 2 ^ 64)
    · exact Nat.lt_of_le_of_lt (Nat.le_of_eq (Nat.zero_add _)) validity.toNat_lt
    · intro tx htx
      apply hbound tx
      rw [txs_append, hpast, ← List.append_assoc]
      exact List.mem_append_left _ htx
  have hpast {before v after} (heq : mid = before ++ Happening.visit v :: after) :
      txs mid = txs before ++ (v.between ++ txs after) := by
    rw [heq, txs_append, txs, txs, List.flatMap_cons]
    rfl
  obtain ⟨w, hrun, hwaits⟩ := run_waits hstart mid
    (fun before v after a heq => hsum _ _ a (hpast heq))
    (by
      intro before visit after heq
      apply hvalidity _ (txs after ++ v.between)
      rw [txs_snoc, hpast heq]
      simp only [List.append_assoc]
      rfl)
    (fun w hw => hcooldown w (List.mem_append_left _ hw))
  have hchain := run_chain hrun
  have hseconds : (w.chain.after v.between).verifier.attestValiditySeconds.toNat = validity.toNat := by
    rw [hchain, ← Deployment.after_append]
    apply hvalidity _ []
    rw [txs_snoc, List.append_nil]
    rfl
  have hstatus : sub.timestamp.toNat ≤ (w.chain.verifier.attestedProvers (ethAccountid key)).toNat := by
    have hhistory : (txs pre ++ before) ++ sub :: between = txs (pre ++ mid) := by
      rw [txs_append, hsplit, List.append_assoc]
    rw [hchain, hbefore, ← Deployment.after_append, ← txs_append, ← hhistory, ← BitVec.le_def]
    have hlast : ∀ tx ∈ (txs pre ++ before) ++ sub :: between, tx.timestamp ≤ BitVec.allOnes 256 := by
      intro tx _
      rw [BitVec.le_def, BitVec.toNat_allOnes]
      exact Nat.le_sub_one_of_lt tx.timestamp.isLt
    refine (Deployment.attested_since ?_ hlast ?_).1
    · rw [hhistory]
      exact htime
    · refine ⟨quote, hcall, Deployment.submits_iff.mpr ?_⟩
      exact (Deployment.deployed_check_iff heq _ sub.sender sub.timestamp _ quote).mpr hgenuine
  have hlast := hsum (txs mid) [] (ethAccountid key) (List.append_nil _).symm
  rw [← hchain] at hlast
  have hpolled : (w.poll v).proverStatus = some (w.chain.verifier.attestedProvers (ethAccountid key)) := by
    rw [poll, if_pos hanswered.1, hwaits.asked]
  have hlength : (w.poll v).attestValiditySeconds =
      some (w.chain.after v.between).verifier.attestValiditySeconds := if_pos hanswered.2
  obtain ⟨m, hm, hprover, hstaging⟩ : ∃ m, w.monitor.iterate (w.poll v) = some m ∧
      m.prover = ⟨w.monitor.asked, true⟩ ∧ m.stagingKey = none := by
    apply Monitor.iterate_approved hpolled hlength
    · intro hnone
      rw [hnone] at hseconds
      exact Nat.ne_of_lt (UInt64.lt_iff_toNat_lt.mp hpos) hseconds
    · rwa [hseconds]
    · change v.now.toNat ≤ _
      omega
  refine ⟨⟨w.chain.after v.between, m⟩, run_append.mpr ⟨w, hrun, ?_⟩, ?_, hstaging⟩
  · rw [run_singleton, next, hm]
    rfl
  · rw [hprover, hwaits.asked]

omit [Profile] [Precompiles] [Solady] in
theorem rotation_completes_sample :
    letI := sampleKeys
    letI := debugProfile
    letI := namingPrecompiles
    letI := trustingSolady
    ∃ u w : Rotation ℕ, (start (.new 0 sampleContract.sigVerifyLib sampleContract.pemCertLib 3 7) 1).run
        sampleStaging = some u ∧
      u.run ([.tx sampleSubmission] ++ [.visit (sampleVisit 6)]) = some w ∧
      w.monitor.prover = ⟨sampleKey, true⟩ ∧ w.monitor.stagingKey = none := by
  let := sampleKeys
  let := debugProfile
  let := namingPrecompiles
  let := trustingSolady
  have heq : ∀ a b, Solady.eq a b = true ↔ a = b := by
    intro a b
    exact beq_iff_eq
  have hrun : ((start (.new 0 sampleContract.sigVerifyLib sampleContract.pemCertLib 3 7) 1).run
      sampleStaging).map (fun u =>
        (u.monitor.stagingKey, u.monitor.lastSubmit, (u.monitor.cooled 4).submitCooldown)) =
        some (some sampleKey, some (4 * 10 ^ 9), 2) := by decide +kernel
  obtain ⟨u, hu, hmonitor⟩ := Option.map_eq_some_iff.mp hrun
  obtain ⟨hstaged, hrest⟩ := Prod.mk.inj hmonitor
  obtain ⟨hsubmit, hcooled⟩ := Prod.mk.inj hrest
  have haccount : ethAccountid sampleKey = sampleProver := by decide +kernel
  have hgenuine : Deployment.Genuine (Verifier.settings 0 sampleContract.sigVerifyLib sampleContract.pemCertLib
      (txs sampleStaging ++ [])) 5 sampleProver sampleQuote := by
    rw [← Deployment.checkAttestation_iff heq (fun _ _ => rfl) 4]
    decide +kernel
  have hvalidity : ∀ past future, txs [Happening.tx sampleSubmission, .visit (sampleVisit 6)] = past ++ future →
      (u.chain.after past).verifier.attestValiditySeconds.toNat = (4 : UInt64).toNat := by
    intro past future hsplit
    rw [run_chain hu]
    rcases past with _ | ⟨sub, past⟩
    · decide +kernel
    · obtain ⟨rfl, hrest⟩ := List.cons.inj hsplit
      obtain ⟨rfl, rfl⟩ := List.append_eq_nil_iff.mp hrest.symm
      decide +kernel
  have hcooldown : ∀ w, Happening.visit w ∈ [Happening.tx sampleSubmission] ++ [.visit (sampleVisit 6)] →
      w.clock ≤ 4 * 10 ^ 9 + (u.monitor.cooled 4).submitCooldown * 10 ^ 9 := by
    intro w hw
    simp only [List.mem_append, List.mem_singleton, Happening.visit.injEq, reduceCtorEq, false_or] at hw
    rw [hw, hcooled]
    decide
  obtain ⟨w, hw⟩ := rotation_completes 0 3 sampleContract.sigVerifyLib sampleContract.pemCertLib 7 1 heq
    sampleStaging [.tx sampleSubmission] (sampleVisit 6) sampleKey hu hstaged hsubmit [] []
    sampleSubmission sampleQuote rfl (by rw [haccount]; rfl) (by rw [haccount]; exact hgenuine) hvalidity
    (by decide) (by decide +kernel) (by decide +kernel) hcooldown ⟨rfl, rfl⟩ (by decide)
  exact ⟨u, w, hu, hw⟩

end Rotation

end System

end LineaSgxProver.Linea
