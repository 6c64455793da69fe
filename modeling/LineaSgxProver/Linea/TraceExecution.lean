import LineaSgxProver.Library.OrderedMap
import LineaSgxProver.Linea.StorageOverlay
import Mathlib.Data.List.Lex

namespace LineaSgxProver.Linea

open Library Zktrie OrderedMap

instance uint8LinearOrder : LinearOrder UInt8 where
  le_refl _ := UInt8.le_refl _
  le_trans _ _ _ := UInt8.le_trans
  le_antisymm _ _ := UInt8.le_antisymm
  le_total := UInt8.le_total
  lt_iff_le_not_ge a b := by
    rw [UInt8.le_iff_toNat_le, UInt8.le_iff_toNat_le, UInt8.lt_iff_toNat_lt]
    omega
  toDecidableLE := inferInstance

/-- The proof of a leaf, as far as it is read. -/
structure Proof where
  value : Option Bytes
  proofRelatedNodes : List Bytes

structure MerkleProof where
  key : Bytes
  leafIndex : Option UInt64
  proof : Option Proof

def MerkleProof.inclusion (p : MerkleProof) : Option (UInt64 × Proof) := do
  let proof ← p.proof
  let leafIndex ← p.leafIndex
  some (leafIndex, proof)

/-- The state manager and the node, which answer for the state after a block. -/
structure StateSource where
  /-- `rollup_getProof`, of which the proof of the account is read. -/
  getProof : Bytes → List Bytes → UInt64 → Except String MerkleProof
  getCodes : List SH160 → UInt64 → Except String (List Bytes)

section Requests

/-- `acc_list`: the slots that are asked for with each account. -/
abbrev AccountList := List (Bytes × List (Bytes × Unit))

def addRequest (accList : AccountList) (t : Trace) : AccountList :=
  if t.location.length = 0 then entry t.key (fun slots => slots.getD []) accList
  else entry t.location (fun slots => OrderedMap.insert t.key () (slots.getD [])) accList

def accountList (traces : List Trace) : AccountList := traces.foldl addRequest []

def requests (traces : List Trace) : List (Bytes × List Bytes) :=
  (accountList traces).map fun (key, slots) => (key, slots.map Prod.fst)

def fetchProofByTraces (source : StateSource) (traces : List Trace) (blk : UInt64) :
    Except String (List MerkleProof) :=
  (requests traces).mapM fun (key, slots) => source.getProof key slots blk

/-- The account that a trace is about. -/
def account (t : Trace) : Bytes := if t.location.length = 0 then t.key else t.location

/-- Each account that a trace is about comes once, in its order, with the slots of its traces. -/
structure Requested (traces : List Trace) (accList : AccountList) : Prop where
  ordered : Ordered accList
  accounts : ∀ a, (∃ slots, (a, slots) ∈ accList) ↔ ∃ t ∈ traces, account t = a
  slots : ∀ a slots, (a, slots) ∈ accList → Ordered slots ∧
    ∀ k, (k, ()) ∈ slots ↔ ∃ t ∈ traces, t.location.length ≠ 0 ∧ t.location = a ∧ t.key = k

/-- What a trace asks for. -/
def request (t : Trace) : Bytes × List Bytes := (account t, if t.location.length = 0 then [] else [t.key])

theorem addRequest_eq (accList : AccountList) (t : Trace) : addRequest accList t = gather accList (request t) := by
  unfold addRequest request account gather
  split_ifs <;> rfl

theorem accountList_eq (traces : List Trace) : accountList traces = (traces.map request).foldl gather [] := by
  rw [accountList, List.foldl_map]
  congr
  funext accList t
  exact addRequest_eq accList t

theorem mem_request {t : Trace} {k : Bytes} : k ∈ (request t).2 ↔ t.location.length ≠ 0 ∧ t.key = k := by
  unfold request
  split_ifs with h
  · simp [h]
  · simp [h, eq_comm]

theorem requested (traces : List Trace) : Requested traces (accountList traces) := by
  have h := gathered (traces.map request)
  rw [← accountList_eq] at h
  refine ⟨h.ordered, ?_, ?_⟩
  · intro a
    simp only [h.keys, List.mem_map, exists_exists_and_eq_and]
    rfl
  · intro a slots hslots
    obtain ⟨hordered, hmem⟩ := h.members a slots hslots
    refine ⟨hordered, ?_⟩
    intro k
    simp only [hmem, List.mem_map, exists_exists_and_eq_and]
    apply exists_congr
    intro t
    apply and_congr_right
    intro _
    rw [mem_request]
    constructor
    · rintro ⟨rfl, hloc, rfl⟩
      exact ⟨hloc, (if_neg hloc).symm, rfl⟩
    · rintro ⟨hloc, rfl, rfl⟩
      exact ⟨if_neg hloc, hloc, rfl⟩

end Requests

section Execution

variable [TrieHash]

inductive TraceError where
  | rpc (err : String)
  | zktrie (err : Error)

def rpc {α : Type} (x : Except String α) : Except (Fault TraceError) α := x.mapError fun err => .error (.rpc err)

def zktrie {α : Type} (x : Except (Fault Error) α) : Except (Fault TraceError) α :=
  x.mapError (Fault.map TraceError.zktrie)

theorem rpc_eq_ok {α : Type} {x : Except String α} {a : α} : rpc x = .ok a ↔ x = .ok a := by
  cases x <;> simp [rpc, Except.mapError]

theorem zktrie_eq_ok {α : Type} {x : Except (Fault Error) α} {a : α} : zktrie x = .ok a ↔ x = .ok a := by
  cases x <;> simp [zktrie, Except.mapError]

variable [Profile] [KeccakHash]

def accountKey (acc : Bytes) : Except (Fault Error) SH256 := orPanic (trieHash acc).toOption

/-- The loop of `generate_poe_v2` over the proofs of the accounts. -/
def addAccountProofs : List MerkleProof → Call MemStore Unit
  | [] => pure ()
  | p :: ps => do
    let hkey ← Action.lift (accountKey p.key)
    match p.inclusion with
    | some (leafIndex, proof) => do
      let _ ← MemStore.addProof (UInt64.ofNat (2 ^ 64 - 1)) leafIndex hkey proof.value proof.proofRelatedNodes
      addAccountProofs ps
    | none => addAccountProofs ps

/-- `generate_poe_v2` as far as the state that `execute_v2` starts from. -/
def blockState (source : StateSource) (blockTrace : List Trace) (number : UInt64) :
    Except (Fault TraceError) (ZkTrieState PrefixDB × Codes) := do
  let currentBlock ← orPanic (subU64 number 1)
  let proofs ← rpc (fetchProofByTraces source blockTrace currentBlock)
  let addrs ← orPanic (codeAddresses blockTrace)
  let codes ← rpc (source.getCodes addrs currentBlock)
  let db ← zktrie (MemStore.fromTraces blockTrace)
  let db ← zktrie ((addAccountProofs proofs db).1.map fun _ => (addAccountProofs proofs db).2)
  let t ← orPanic blockTrace.head?
  let state ← orPanic (ZkTrieState.newFromTrace ⟨UInt64.ofNat (2 ^ 64 - 1), db⟩ t)
  .ok (state, addCodes [] codes)

/-- The proofs of accounts that are there. -/
def proofCalls (proofs : List MerkleProof) : List ProofCall :=
  proofs.filterMap fun p => do
    let (leafIndex, proof) ← p.inclusion
    let hkey ← (trieHash p.key).toOption
    some ⟨UInt64.ofNat (2 ^ 64 - 1), leafIndex, hkey, proof.value, proof.proofRelatedNodes⟩

omit [KeccakHash] in
theorem runAll_proofCalls {proofs : List MerkleProof} {s s' : MemStore}
    (h : (addAccountProofs proofs).Returns s () s') : (ProofCall.runAll (proofCalls proofs)).Returns s () s' := by
  induction proofs generalizing s with
  | nil => exact h
  | cons p proofs ih =>
    obtain ⟨hkey, s₁, hlift, h⟩ := Action.bind_returns_iff.mp h
    obtain ⟨hhash, rfl⟩ := Prod.mk.inj hlift
    have hhash : (trieHash p.key).toOption = some hkey := orPanic_eq_ok.mp hhash
    rw [proofCalls, List.filterMap_cons]
    cases hinclusion : p.inclusion with
    | none =>
      rw [hinclusion] at h
      exact ih h
    | some found =>
      obtain ⟨leafIndex, proof⟩ := found
      rw [hinclusion] at h
      obtain ⟨root, s₂, hadd, hrest⟩ := Action.bind_returns_iff.mp h
      rw [hhash]
      exact Action.Returns.bind hadd (ih hrest)

variable [RlpCrate] [Debug Error]

/-- Where the state is built, each account that a trace is about was asked for once, with its slots, and the
calls that execute the block are answered from the traces and from the proofs that came back. -/
theorem blockState_answers {source : StateSource} {blockTrace : List Trace} {number : UInt64}
    {state : ZkTrieState PrefixDB} {codes : Codes} (h : blockState source blockTrace number = .ok (state, codes)) :
    Requested blockTrace (accountList blockTrace) ∧
    ∃ proofs root t, blockTrace.head? = some t ∧ t.oldTopHash = some root ∧
      List.Forall₂ (fun request proof => source.getProof request.1 request.2 (number - 1) = .ok proof)
        (requests blockTrace) proofs ∧
      ∀ calls : List StateDbCall, (Action.runAll (StateDbCall.run codes) calls ⟨state, fun _ => none⟩).1 =
        (Action.runAll (StateDbCall.plain codes) calls
          (PlainState.ofRecords blockTrace (proofCalls proofs) root)).1 := by
  refine ⟨requested blockTrace, ?_⟩
  obtain ⟨currentBlock, hcurrent, h⟩ := bind_eq_ok.mp h
  obtain ⟨proofs, hproofs, h⟩ := bind_eq_ok.mp h
  obtain ⟨addrs, haddrs, h⟩ := bind_eq_ok.mp h
  obtain ⟨found, hcodes, h⟩ := bind_eq_ok.mp h
  obtain ⟨start, hstart, h⟩ := bind_eq_ok.mp h
  obtain ⟨db, hdb, h⟩ := bind_eq_ok.mp h
  obtain ⟨t, ht, h⟩ := bind_eq_ok.mp h
  obtain ⟨state', hstate, h⟩ := bind_eq_ok.mp h
  obtain ⟨rfl, rfl⟩ := Prod.mk.inj (Except.ok.inj h)
  have hrun : (addAccountProofs proofs start).1 = .ok () ∧ (addAccountProofs proofs start).2 = db := by
    have hok := zktrie_eq_ok.mp hdb
    cases hret : (addAccountProofs proofs start).1 with
    | error e =>
      rw [hret] at hok
      cases hok
    | ok =>
      rw [hret] at hok
      exact ⟨rfl, Except.ok.inj hok⟩
  have hblock : number - 1 = currentBlock := by
    unfold subU64 at hcurrent
    have hsub := orPanic_eq_ok.mp hcurrent
    split_ifs at hsub
    exact Option.some.inj hsub
  have hbuilt : Built blockTrace (proofCalls proofs) db :=
    ⟨start, zktrie_eq_ok.mp hstart, runAll_proofCalls (Prod.ext hrun.1 hrun.2)⟩
  obtain ⟨root, hroot, hanswers⟩ := StateDbCall.runAll_traced hbuilt (orPanic_eq_ok.mp hstate) (addCodes [] found)
  refine ⟨proofs, root, t, orPanic_eq_ok.mp ht, hroot, ?_, hanswers⟩
  rw [hblock]
  exact mapM_eq_ok.mp (rpc_eq_ok.mp hproofs)

end Execution

namespace StorageTrace

def slot : Trace := .read ⟨SH160.bytes 1, 2, 0, AccountTrace.leaf, ⟨2, []⟩, SH256.bytes 5, [9]⟩

def account [TrieHash] : ZkStateAccount := ⟨1, 10, (Node.topNode 2 0).hash, 0, 7, 3⟩

def read [TrieHash] : Trace :=
  .read ⟨[], 3, 0, AccountTrace.leaf, ⟨2, []⟩, SH160.bytes 1, account.layout⟩

def source : StateSource where
  getProof key _ _ := .ok ⟨key, none, none⟩
  getCodes _ _ := .ok [[1, 2, 3]]

end StorageTrace

theorem blockState_answers_sample :
    letI := residueHash
    letI := debugProfile
    letI : KeccakHash := ⟨fun _ => 7⟩
    letI : RlpCrate := ⟨StorageValue.rlp⟩
    letI : Debug Error := ⟨fun _ => ""⟩
    let blockTrace := [StorageTrace.read, StorageTrace.slot]
    ∃ state codes, blockState StorageTrace.source blockTrace 1 = .ok (state, codes) ∧
      Requested blockTrace (accountList blockTrace) ∧
      ∃ proofs root t, blockTrace.head? = some t ∧ t.oldTopHash = some root ∧
        List.Forall₂ (fun request proof => StorageTrace.source.getProof request.1 request.2 (1 - 1) = .ok proof)
          (requests blockTrace) proofs ∧
        ∀ calls : List StateDbCall, (Action.runAll (StateDbCall.run codes) calls ⟨state, fun _ => none⟩).1 =
          (Action.runAll (StateDbCall.plain codes) calls
            (PlainState.ofRecords blockTrace (proofCalls proofs) root)).1 := by
  let := residueHash
  let := debugProfile
  let : KeccakHash := ⟨fun _ => 7⟩
  let : RlpCrate := ⟨StorageValue.rlp⟩
  let : Debug Error := ⟨fun _ => ""⟩
  have hok : (blockState StorageTrace.source [StorageTrace.read, StorageTrace.slot] 1).isOk = true := by
    decide +kernel
  obtain ⟨⟨state, codes⟩, hstate⟩ := isOk_iff.mp hok
  exact ⟨state, codes, hstate, blockState_answers hstate⟩

example :
    letI := residueHash
    letI := debugProfile
    letI : KeccakHash := ⟨fun _ => 7⟩
    letI : RlpCrate := ⟨StorageValue.rlp⟩
    letI : Debug Error := ⟨fun _ => ""⟩
    (Action.runAll (StateDbCall.plain [(7, [1, 2, 3])])
      [.access 1 (.addBalance 5), .getState 1 5, .access 1 .getBalance, .getCode 1]
      (PlainState.ofRecords [StorageTrace.read, StorageTrace.slot] [] ((StorageTrace.read.oldTopHash).getD 0))).1 =
      [.ok (.account .done), .ok (.value 9), .ok (.account (.balance 15)), .ok (.code [1, 2, 3])] := by
  decide +kernel

end LineaSgxProver.Linea
