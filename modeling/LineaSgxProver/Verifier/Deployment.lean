import LineaSgxProver.Verifier.CertChain

namespace LineaSgxProver.Verifier

open Library
open EnclaveIdStruct TCBInfoStruct

/-- The attestation contract with its owner, who is the one that deployed it. -/
structure DcapContract where
  owner : Address
  config : AutomataDcapV3Attestation

inductive DcapCall where
  | toggleLocalReportCheck
  | setMrSigner (mrSigner : SH256) (trusted : Bool)
  | setMrEnclave (mrEnclave : SH256) (trusted : Bool)
  | configureTcbInfoJson (fmspc : Bytes) (tcbInfoInput : TCBInfo)
  | configureQeIdentityJson (qeIdentityInput : EnclaveId)
  | verifyMrEnclave (mrEnclave : SH256)
  | verifyMrSigner (mrSigner : SH256)
  | verifyAttestation (data : Bytes)

namespace DcapContract

def new (sender : Address) (sigVerifyLib : ISigVerifyLib) (pemCertLib : IPEMCertChainLib) : DcapContract where
  owner := sender
  config :=
    { sigVerifyLib := sigVerifyLib
      pemCertLib := pemCertLib
      checkLocalEnclaveReport := false
      trustedUserMrEnclave := fun _ => false
      trustedUserMrSigner := fun _ => false
      serialNumIsRevoked := fun _ _ => false
      tcbInfo := fun _ => ⟨[], [], []⟩
      qeIdentity := ⟨0, 0, 0, 0, 0, 0, []⟩ }

def onlyOwner (c : DcapContract) (sender : Address) : Checked Unit := require (sender = c.owner) "onlyOwner"

def toggleLocalReportCheck (c : DcapContract) (sender : Address) : Checked DcapContract := do
  c.onlyOwner sender
  .ok { c with config.checkLocalEnclaveReport := ! c.config.checkLocalEnclaveReport }

def setMrSigner (c : DcapContract) (sender : Address) (mrSigner : SH256) (trusted : Bool) :
    Checked DcapContract := do
  c.onlyOwner sender
  .ok { c with
    config.trustedUserMrSigner := Function.update c.config.trustedUserMrSigner mrSigner trusted }

def setMrEnclave (c : DcapContract) (sender : Address) (mrEnclave : SH256) (trusted : Bool) :
    Checked DcapContract := do
  c.onlyOwner sender
  .ok { c with
    config.trustedUserMrEnclave := Function.update c.config.trustedUserMrEnclave mrEnclave trusted }

def configureTcbInfoJson (c : DcapContract) (sender : Address) (fmspc : Bytes) (tcbInfoInput : TCBInfo) :
    Checked DcapContract := do
  c.onlyOwner sender
  .ok { c with config.tcbInfo := Function.update c.config.tcbInfo fmspc tcbInfoInput }

def configureQeIdentityJson (c : DcapContract) (sender : Address) (qeIdentityInput : EnclaveId) :
    Checked DcapContract := do
  c.onlyOwner sender
  .ok { c with config.qeIdentity := qeIdentityInput }

variable [Precompiles] [Solady]

def exec (c : DcapContract) (sender : Address) (timestamp : SU256) : DcapCall → Checked DcapContract
  | .toggleLocalReportCheck => c.toggleLocalReportCheck sender
  | .setMrSigner mrSigner trusted => c.setMrSigner sender mrSigner trusted
  | .setMrEnclave mrEnclave trusted => c.setMrEnclave sender mrEnclave trusted
  | .configureTcbInfoJson fmspc tcbInfoInput => c.configureTcbInfoJson sender fmspc tcbInfoInput
  | .configureQeIdentityJson qeIdentityInput => c.configureQeIdentityJson sender qeIdentityInput
  | .verifyMrEnclave _ => .ok c
  | .verifyMrSigner _ => .ok c
  | .verifyAttestation data => (fun _ => c) <$> c.config.verifyAttestation timestamp data

def step (c : DcapContract) (sender : Address) (timestamp : SU256) (call : DcapCall) : DcapContract :=
  match c.exec sender timestamp call with
  | .ok c' => c'
  | .error _ => c

end DcapContract

inductive ChainCall where
  | dcap (call : DcapCall)
  | verifier (call : Call)

structure ChainTx where
  sender : Address
  timestamp : SU256
  call : ChainCall

/-- The two contracts as they stand on one chain. -/
structure Deployment where
  dcapAttestation : DcapContract
  verifier : SGXVerifier

namespace Deployment

variable [Precompiles] [Solady]

def env (s : Deployment) (sender : Address) (timestamp : SU256) : Env where
  sender := sender
  timestamp := timestamp
  dcapAttestation := s.dcapAttestation.config.answers timestamp

def step (s : Deployment) (tx : ChainTx) : Deployment :=
  match tx.call with
  | .dcap call => { s with dcapAttestation := s.dcapAttestation.step tx.sender tx.timestamp call }
  | .verifier call => { s with verifier := s.verifier.step ⟨s.env tx.sender tx.timestamp, call⟩ }

abbrev after (s : Deployment) (txs : List ChainTx) : Deployment := Run.after step s txs

theorem after_append (s : Deployment) (txs more : List ChainTx) :
    s.after (txs ++ more) = (s.after txs).after more := Run.after_append txs more

theorem after_snoc (s : Deployment) (txs : List ChainTx) (tx : ChainTx) :
    s.after (txs ++ [tx]) = (s.after txs).step tx := Run.after_snoc txs tx

end Deployment

section Settings

def toggled : DcapCall → Option Unit
  | .toggleLocalReportCheck => some ()
  | _ => none

def mrEnclaveSet (mrEnclave : SH256) : DcapCall → Option Bool
  | .setMrEnclave m trusted => if m = mrEnclave then some trusted else none
  | _ => none

def mrSignerSet (mrSigner : SH256) : DcapCall → Option Bool
  | .setMrSigner m trusted => if m = mrSigner then some trusted else none
  | _ => none

def tcbInfoSet (fmspc : Bytes) : DcapCall → Option TCBInfo
  | .configureTcbInfoJson f tcbInfoInput => if f = fmspc then some tcbInfoInput else none
  | _ => none

def qeIdentitySet : DcapCall → Option EnclaveId
  | .configureQeIdentityJson qeIdentityInput => some qeIdentityInput
  | _ => none

variable {β : Type}

/-- What a transaction of the deployer's tells the attestation contract. -/
def told (deployer : Address) (tells : DcapCall → Option β) (tx : ChainTx) : Option β :=
  match tx.call with
  | .dcap call => if tx.sender = deployer then tells call else none
  | .verifier _ => none

/-- The configuration that the deployer's transactions leave: of each setting the last. -/
def settings (deployer : Address) (sigVerifyLib : ISigVerifyLib) (pemCertLib : IPEMCertChainLib)
    (txs : List ChainTx) : AutomataDcapV3Attestation where
  sigVerifyLib := sigVerifyLib
  pemCertLib := pemCertLib
  checkLocalEnclaveReport := txs.countP (fun tx => (told deployer toggled tx).isSome) % 2 == 1
  trustedUserMrEnclave mrEnclave := (Run.last (told deployer (mrEnclaveSet mrEnclave)) txs).getD false
  trustedUserMrSigner mrSigner := (Run.last (told deployer (mrSignerSet mrSigner)) txs).getD false
  serialNumIsRevoked _ _ := false
  tcbInfo fmspc := (Run.last (told deployer (tcbInfoSet fmspc)) txs).getD ⟨[], [], []⟩
  qeIdentity := (Run.last (told deployer qeIdentitySet) txs).getD ⟨0, 0, 0, 0, 0, 0, []⟩

end Settings

section Configuration

variable [Precompiles] [Solady]

namespace DcapContract

variable {c : DcapContract} {sender : Address} {timestamp : SU256}

theorem step_verifyAttestation (data : Bytes) : c.step sender timestamp (.verifyAttestation data) = c := by
  rw [step, exec]
  cases c.config.verifyAttestation timestamp data <;> rfl

theorem step_of_ne (hsender : sender ≠ c.owner) (call : DcapCall) : c.step sender timestamp call = c := by
  have hrefused : c.onlyOwner sender = .error (.reason "onlyOwner") := if_neg hsender
  cases call with
  | verifyAttestation data => exact step_verifyAttestation data
  | _ => simp [step, exec, toggleLocalReportCheck, setMrSigner, setMrEnclave, configureTcbInfoJson,
      configureQeIdentityJson, hrefused, error_bind]

/-- What a call of the owner's does to a setting is what it tells of that setting. -/
structure Obeys (c c' : DcapContract) (call : DcapCall) : Prop where
  owner : c'.owner = c.owner
  sigVerifyLib : c'.config.sigVerifyLib = c.config.sigVerifyLib
  pemCertLib : c'.config.pemCertLib = c.config.pemCertLib
  check : c'.config.checkLocalEnclaveReport =
    xor c.config.checkLocalEnclaveReport (toggled call).isSome
  mrEnclave (m : SH256) : c'.config.trustedUserMrEnclave m =
    (mrEnclaveSet m call).getD (c.config.trustedUserMrEnclave m)
  mrSigner (m : SH256) : c'.config.trustedUserMrSigner m =
    (mrSignerSet m call).getD (c.config.trustedUserMrSigner m)
  revoked : c'.config.serialNumIsRevoked = c.config.serialNumIsRevoked
  tcbInfo (fmspc : Bytes) : c'.config.tcbInfo fmspc = (tcbInfoSet fmspc call).getD (c.config.tcbInfo fmspc)
  qeIdentity : c'.config.qeIdentity = (qeIdentitySet call).getD c.config.qeIdentity

omit [Precompiles] [Solady] in
theorem update_eq_getD {α β : Type} [DecidableEq α] (f : α → β) (a x : α) (b : β) :
    Function.update f a b x = (if a = x then some b else none).getD (f x) := by
  by_cases h : a = x
  · subst h
    simp
  · rw [Function.update_of_ne (Ne.symm h), if_neg h]
    rfl

theorem step_obeys (c : DcapContract) (timestamp : SU256) (call : DcapCall) :
    Obeys c (c.step c.owner timestamp call) call := by
  have hallowed : c.onlyOwner c.owner = .ok () := if_pos rfl
  cases call with
  | toggleLocalReportCheck =>
    have hstep : c.step c.owner timestamp .toggleLocalReportCheck =
        { c with config.checkLocalEnclaveReport := ! c.config.checkLocalEnclaveReport } := by
      rw [step, exec, toggleLocalReportCheck, hallowed]
      rfl
    rw [hstep]
    constructor <;> simp [toggled, mrEnclaveSet, mrSignerSet, tcbInfoSet, qeIdentitySet]
  | setMrSigner mrSigner trusted =>
    have hstep : c.step c.owner timestamp (.setMrSigner mrSigner trusted) =
        { c with config.trustedUserMrSigner :=
            Function.update c.config.trustedUserMrSigner mrSigner trusted } := by
      rw [step, exec, setMrSigner, hallowed]
      rfl
    rw [hstep]
    constructor <;> simp [toggled, mrEnclaveSet, mrSignerSet, tcbInfoSet, qeIdentitySet, update_eq_getD]
  | setMrEnclave mrEnclave trusted =>
    have hstep : c.step c.owner timestamp (.setMrEnclave mrEnclave trusted) =
        { c with config.trustedUserMrEnclave :=
            Function.update c.config.trustedUserMrEnclave mrEnclave trusted } := by
      rw [step, exec, setMrEnclave, hallowed]
      rfl
    rw [hstep]
    constructor <;> simp [toggled, mrEnclaveSet, mrSignerSet, tcbInfoSet, qeIdentitySet, update_eq_getD]
  | configureTcbInfoJson fmspc tcbInfoInput =>
    have hstep : c.step c.owner timestamp (.configureTcbInfoJson fmspc tcbInfoInput) =
        { c with config.tcbInfo := Function.update c.config.tcbInfo fmspc tcbInfoInput } := by
      rw [step, exec, configureTcbInfoJson, hallowed]
      rfl
    rw [hstep]
    constructor <;> simp [toggled, mrEnclaveSet, mrSignerSet, tcbInfoSet, qeIdentitySet, update_eq_getD]
  | configureQeIdentityJson qeIdentityInput =>
    have hstep : c.step c.owner timestamp (.configureQeIdentityJson qeIdentityInput) =
        { c with config.qeIdentity := qeIdentityInput } := by
      rw [step, exec, configureQeIdentityJson, hallowed]
      rfl
    rw [hstep]
    constructor <;> simp [toggled, mrEnclaveSet, mrSignerSet, tcbInfoSet, qeIdentitySet]
  | verifyMrEnclave mrEnclave =>
    constructor <;> simp [step, exec, toggled, mrEnclaveSet, mrSignerSet, tcbInfoSet, qeIdentitySet]
  | verifyMrSigner mrSigner =>
    constructor <;> simp [step, exec, toggled, mrEnclaveSet, mrSignerSet, tcbInfoSet, qeIdentitySet]
  | verifyAttestation data =>
    rw [step_verifyAttestation]
    constructor <;> simp [toggled, mrEnclaveSet, mrSignerSet, tcbInfoSet, qeIdentitySet]

end DcapContract

variable {deployer : Address} {sigVerifyLib : ISigVerifyLib} {pemCertLib : IPEMCertChainLib}

omit [Precompiles] [Solady] in
theorem config_eq {c d : AutomataDcapV3Attestation} (hsig : c.sigVerifyLib = d.sigVerifyLib)
    (hpem : c.pemCertLib = d.pemCertLib) (hcheck : c.checkLocalEnclaveReport = d.checkLocalEnclaveReport)
    (hmrEnclave : ∀ m, c.trustedUserMrEnclave m = d.trustedUserMrEnclave m)
    (hmrSigner : ∀ m, c.trustedUserMrSigner m = d.trustedUserMrSigner m)
    (hrevoked : c.serialNumIsRevoked = d.serialNumIsRevoked) (htcb : ∀ f, c.tcbInfo f = d.tcbInfo f)
    (hqe : c.qeIdentity = d.qeIdentity) : c = d := by
  cases c
  cases d
  obtain rfl := funext hmrEnclave
  obtain rfl := funext hmrSigner
  obtain rfl := funext htcb
  cases hsig
  cases hpem
  cases hcheck
  cases hrevoked
  cases hqe
  rfl

omit [Precompiles] [Solady] in
theorem settings_of_untold {tx : ChainTx} (htold : ∀ (β : Type) (tells : DcapCall → Option β),
    told deployer tells tx = none) (txs : List ChainTx) :
    settings deployer sigVerifyLib pemCertLib (txs ++ [tx]) =
      settings deployer sigVerifyLib pemCertLib txs := by
  apply config_eq <;> simp [settings, Run.last_snoc, htold, List.countP_append]

omit [Precompiles] [Solady] in
theorem settings_of_told {c c' : DcapContract} {tx : ChainTx} {call : DcapCall} {txs : List ChainTx}
    (htx : tx.call = .dcap call) (hsender : tx.sender = deployer) (h : c.Obeys c' call)
    (hc : c.config = settings deployer sigVerifyLib pemCertLib txs) :
    c'.config = settings deployer sigVerifyLib pemCertLib (txs ++ [tx]) := by
  have htold (β : Type) (tells : DcapCall → Option β) : told deployer tells tx = tells call := by
    rw [told, htx]
    exact if_pos hsender
  apply config_eq
  · rw [h.sigVerifyLib, hc]
    rfl
  · rw [h.pemCertLib, hc]
    rfl
  · rw [h.check, hc]
    simp only [settings, List.countP_append, List.countP_cons, List.countP_nil, htold]
    generalize txs.countP (fun tx => (told deployer toggled tx).isSome) = n
    rcases Nat.mod_two_eq_zero_or_one n with hn | hn
    · cases (toggled call).isSome <;> simp [hn, Nat.add_mod]
    · cases (toggled call).isSome <;> simp [hn, Nat.add_mod]
  · intro m
    rw [h.mrEnclave, hc]
    simp only [settings, Run.last_snoc, htold]
    cases mrEnclaveSet m call <;> rfl
  · intro m
    rw [h.mrSigner, hc]
    simp only [settings, Run.last_snoc, htold]
    cases mrSignerSet m call <;> rfl
  · rw [h.revoked, hc]
    rfl
  · intro f
    rw [h.tcbInfo, hc]
    simp only [settings, Run.last_snoc, htold]
    cases tcbInfoSet f call <;> rfl
  · rw [h.qeIdentity, hc]
    simp only [settings, Run.last_snoc, htold]
    cases qeIdentitySet call <;> rfl

namespace Deployment

def new (deployer : Address) (sigVerifyLib : ISigVerifyLib) (pemCertLib : IPEMCertChainLib)
    (owner : Address) (chainId : SU256) : Deployment where
  dcapAttestation := DcapContract.new deployer sigVerifyLib pemCertLib
  verifier := SGXVerifier.new owner chainId

variable {owner : Address} {chainId : SU256}

theorem after_dcapAttestation (txs : List ChainTx) :
    ((new deployer sigVerifyLib pemCertLib owner chainId).after txs).dcapAttestation =
      ⟨deployer, settings deployer sigVerifyLib pemCertLib txs⟩ := by
  induction txs using List.reverseRecOn with
  | nil => rfl
  | append_singleton txs tx ih =>
    rw [after_snoc, step]
    generalize (new deployer sigVerifyLib pemCertLib owner chainId).after txs = s at ih
    cases hcall : tx.call with
    | verifier call =>
      change s.dcapAttestation = _
      rw [ih, settings_of_untold]
      intro β tells
      rw [told, hcall]
    | dcap call =>
      change s.dcapAttestation.step tx.sender tx.timestamp call = _
      by_cases hsender : tx.sender = deployer
      · have hobeys := DcapContract.step_obeys s.dcapAttestation tx.timestamp call
        have howner : s.dcapAttestation.owner = deployer := by rw [ih]
        rw [howner, ← hsender] at hobeys
        have hconfig := settings_of_told (c := s.dcapAttestation) hcall hsender hobeys (by rw [ih])
        generalize s.dcapAttestation.step tx.sender tx.timestamp call = d at hobeys hconfig ⊢
        rw [← hconfig, ← howner, ← hobeys.owner]
      · rw [DcapContract.step_of_ne (by rw [ih]; exact hsender), ih, settings_of_untold]
        intro β tells
        rw [told, hcall]
        exact if_neg hsender

end Deployment

end Configuration

end LineaSgxProver.Verifier
