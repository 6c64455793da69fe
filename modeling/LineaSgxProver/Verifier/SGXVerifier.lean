import LineaSgxProver.Library.Run
import LineaSgxProver.Verifier.Solidity

namespace LineaSgxProver.Verifier

open Library

structure BatchInfo where
  batchIndex : SU256
  newStateRoot : SH256
  prevStateRoot : SH256
  withdrawalRoot : SH256
  deriving DecidableEq

structure SGXVerifier where
  owner : Address
  attestedProvers : Address → SU256
  batches : SH256 → BatchInfo
  attestValiditySeconds : SU256
  layer2ChainId : SU256

structure IAttestation where
  verifyAttestation : Bytes → Checked (Bool × Bytes)
  verifyMrEnclave : SH256 → Checked Bool
  verifyMrSigner : SH256 → Checked Bool

/-- What a call sees of its transaction and of its block. -/
structure Env where
  sender : Address
  timestamp : SU256
  dcapAttestation : IAttestation

inductive Event where
  | proverApproved (prover : Address)
  | commitBatch (batchIndex : SU256) (batchHash prevStateRoot newStateRoot : SH256)
  deriving DecidableEq

structure Poe where
  batchHash : SH256
  stateHash : SH256
  prevStateRoot : SH256
  newStateRoot : SH256
  withdrawalRoot : SH256
  sig : Bytes
  deriving DecidableEq

/-- `abi.decode(poe, (bytes32, bytes32, bytes32, bytes32, bytes32, bytes))` -/
def Poe.decode (poe : Bytes) : Checked Poe :=
  let offset := (wordAt poe 160).toNat
  let length := (wordAt poe offset).toNat
  if poe.length < 192 then .error .badEncoding
  else if 2 ^ 64 ≤ offset ∨ poe.length ≤ offset + 31 then .error .badEncoding
  else if 2 ^ 64 ≤ length ∨ poe.length < offset + 32 + length then .error .badEncoding
  else .ok ⟨wordAt poe 0, wordAt poe 32, wordAt poe 64, wordAt poe 96, wordAt poe 128,
    (poe.drop (offset + 32)).take length⟩

/-- `abi.encode(layer2ChainId, …, new bytes(65))`: the words, and then the bytes with their length. -/
def Poe.message (layer2ChainId : SU256) (p : Poe) : Bytes :=
  ([layer2ChainId, p.batchHash, p.stateHash, p.prevStateRoot, p.newStateRoot, p.withdrawalRoot, 224,
    65].map SH256.bytes).flatten ++ List.replicate 96 0

def Poe.info (p : Poe) (batchId : SU256) : BatchInfo where
  batchIndex := batchId
  newStateRoot := p.newStateRoot
  prevStateRoot := p.prevStateRoot
  withdrawalRoot := p.withdrawalRoot

def splitSignature (sig : Bytes) : Checked (SH256 × SH256 × UInt8) := do
  require (sig.length = 65) "invalid signature length"
  let v := (sig.drop 64).headD 0
  let v := if v < 27 then v + 27 else v
  require (v = 27 ∨ v = 28) "invalid v value"
  .ok (wordAt sig 0, wordAt sig 32, v)

def bytes64ToAddress (b : Bytes) : Checked Address := do
  require (64 ≤ b.length) "Bytes array too short"
  .ok ((wordAt b 32).setWidth 160)

/-- The account named by a word of 32 bytes is in its last 20 bytes. -/
theorem setWidth_ofBytes {b : Bytes} (hb : b.length = 32) :
    (SH256.ofBytes b).setWidth 160 = BitVec.ofNat 160 (BigEndian.decode (b.drop 12)) := by
  have hsplit : BigEndian.decode b =
      BigEndian.decode (b.take 12) * 256 ^ 20 + BigEndian.decode (b.drop 12) := by
    have hjoin := BigEndian.decode_append (b.take 12) (b.drop 12)
    rw [List.take_append_drop] at hjoin
    rw [hjoin]
    simp [hb]
  apply BitVec.eq_of_toNat_eq
  rw [BitVec.toNat_setWidth, SH256.ofBytes_toNat b hb.le, BitVec.toNat_ofNat, hsplit]
  omega

theorem bytes64ToAddress_eq_ok {b : Bytes} {a : Address} : bytes64ToAddress b = .ok a ↔
    64 ≤ b.length ∧ a = BitVec.ofNat 160 (BigEndian.decode ((b.drop 44).take 20)) := by
  have hword (h : 64 ≤ b.length) :
      (wordAt b 32).setWidth 160 = BitVec.ofNat 160 (BigEndian.decode ((b.drop 44).take 20)) := by
    have hlen : ((b.drop 32).take 32).length = 32 := by
      simp
      omega
    rw [wordAt, setWidth_ofBytes hlen, List.drop_take, List.drop_drop]
  unfold bytes64ToAddress
  rw [bind_eq_ok]
  constructor
  · rintro ⟨_, hlen, ⟨⟩⟩
    rw [require_eq_ok] at hlen
    exact ⟨hlen, hword hlen⟩
  · rintro ⟨hlen, rfl⟩
    exact ⟨(), require_eq_ok.mpr hlen, by rw [hword hlen]⟩

namespace SGXVerifier

def new (sender : Address) (chainId : SU256) : SGXVerifier where
  owner := sender
  attestedProvers _ := 0
  batches _ := ⟨0, 0, 0, 0⟩
  attestValiditySeconds := 3600
  layer2ChainId := chainId

def onlyOwner (c : SGXVerifier) (env : Env) : Checked Unit := require (env.sender = c.owner) "Not authorized"

def changeOwner (c : SGXVerifier) (env : Env) (newOwner : Address) : Checked SGXVerifier := do
  c.onlyOwner env
  .ok { c with owner := newOwner }

def changeAttestValiditySeconds (c : SGXVerifier) (env : Env) (val : SU256) : Checked SGXVerifier := do
  c.onlyOwner env
  .ok { c with attestValiditySeconds := val }

def checkAttestation (env : Env) (prover : Address) (reportBytes : Bytes) : Checked Unit := do
  let (succ, reportData) ← env.dcapAttestation.verifyAttestation reportBytes
  require (succ = true) "attestation validation failed"
  let expectedProver ← bytes64ToAddress reportData
  require (expectedProver = prover) "attestation prover mismatch"

def verifyAttestation (env : Env) (prover : Address) (data : Bytes) : Checked Bool := do
  let (succ, reportData) ← env.dcapAttestation.verifyAttestation data
  if succ = false then .ok false
  else do
    let expectedProver ← bytes64ToAddress reportData
    .ok (expectedProver == prover)

def submitAttestationReport (c : SGXVerifier) (env : Env) (prover : Address) (reportBytes : Bytes) :
    Checked (SGXVerifier × Event) := do
  checkAttestation env prover reportBytes
  .ok ({ c with attestedProvers := Function.update c.attestedProvers prover env.timestamp },
    .proverApproved prover)

variable [Precompiles]

/-- The poe and who signed it. -/
def recover (c : SGXVerifier) (poe : Bytes) : Checked (Poe × Address) := do
  let p ← Poe.decode poe
  let (r, s, v) ← splitSignature p.sig
  let msgHash := Precompiles.keccak256 (p.message c.layer2ChainId)
  let signer := Precompiles.ecrecover msgHash v r s
  require (signer ≠ 0) "ECDSA: invalid signature"
  .ok (p, signer)

def recoverPoe (c : SGXVerifier) (poe : Bytes) : Checked Address := do
  let (_, signer) ← c.recover poe
  .ok signer

def commitBatch (c : SGXVerifier) (env : Env) (batchId : SU256) (poe : Bytes) :
    Checked (SGXVerifier × Event) := do
  let (p, signer) ← c.recover poe
  require (c.attestedProvers signer ≠ 0) "Prover not attested"
  let expiry ← checkedAdd (c.attestedProvers signer) c.attestValiditySeconds
  require (env.timestamp < expiry) "Prover out-of-dated"
  require ((c.batches p.batchHash).newStateRoot = 0) "batch already commit"
  .ok ({ c with batches := Function.update c.batches p.batchHash (p.info batchId) },
    .commitBatch batchId p.batchHash p.prevStateRoot p.newStateRoot)

end SGXVerifier

inductive Call where
  | changeOwner (newOwner : Address)
  | changeAttestValiditySeconds (val : SU256)
  | submitAttestationReport (prover : Address) (reportBytes : Bytes)
  | commitBatch (batchId : SU256) (poe : Bytes)
  | recoverPoe (poe : Bytes)
  | verifyMrEnclave (mrenclave : SH256)
  | verifyMrSigner (mrsigner : SH256)
  | checkAttestation (prover : Address) (reportBytes : Bytes)
  | verifyAttestation (prover : Address) (data : Bytes)

structure Tx where
  env : Env
  call : Call

namespace SGXVerifier

variable [Precompiles]

def exec (c : SGXVerifier) (tx : Tx) : Checked SGXVerifier :=
  match tx.call with
  | .changeOwner newOwner => c.changeOwner tx.env newOwner
  | .changeAttestValiditySeconds val => c.changeAttestValiditySeconds tx.env val
  | .submitAttestationReport prover reportBytes =>
    Prod.fst <$> c.submitAttestationReport tx.env prover reportBytes
  | .commitBatch batchId poe => Prod.fst <$> c.commitBatch tx.env batchId poe
  | .recoverPoe poe => (fun _ => c) <$> c.recoverPoe poe
  | .verifyMrEnclave mrenclave => (fun _ => c) <$> tx.env.dcapAttestation.verifyMrEnclave mrenclave
  | .verifyMrSigner mrsigner => (fun _ => c) <$> tx.env.dcapAttestation.verifyMrSigner mrsigner
  | .checkAttestation prover reportBytes => (fun _ => c) <$> checkAttestation tx.env prover reportBytes
  | .verifyAttestation prover data => (fun _ => c) <$> verifyAttestation tx.env prover data

/-- A transaction that reverts changes nothing. -/
def step (c : SGXVerifier) (tx : Tx) : SGXVerifier :=
  match c.exec tx with
  | .ok c' => c'
  | .error _ => c

end SGXVerifier

end LineaSgxProver.Verifier
