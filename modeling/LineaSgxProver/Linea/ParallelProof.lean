import LineaSgxProver.Library.OrderedMap
import LineaSgxProver.Library.Simulation
import LineaSgxProver.Linea.BatchTask
import Mathlib.Data.List.Perm.Subperm

namespace LineaSgxProver.Linea

open Library OrderedMap

instance uint64LinearOrder : LinearOrder UInt64 where
  le_refl _ := UInt64.le_refl _
  le_trans _ _ _ := UInt64.le_trans
  le_antisymm _ _ := UInt64.le_antisymm
  le_total := UInt64.le_total
  lt_iff_le_not_ge a b := by
    rw [UInt64.le_iff_toNat_le, UInt64.le_iff_toNat_le, UInt64.lt_iff_toNat_lt]
    omega
  toDecidableLE := inferInstance

/-- The calls to the node, to the execution and to the proofs of what it did. -/
structure BlockProver (Pob Block Poe Key : Type) where
  chainId : Except String UInt64
  generatePob : UInt64 → Except String Pob
  stateHash : Pob → SH256
  prevStateRoot : Pob → SH256
  expectStateRoot : Pob → SH256
  execute : Pob → Except String Block
  stateRoot : Block → SH256
  number : Block → UInt64
  singleBlock : SH256 → SH256 → SH256 → SH256 → Poe
  newStateRoot : Poe → SH256
  batch : SH256 → List Poe → Except String Poe
  sign : Poe → UInt64 → Key → Poe

inductive PoeError where
  | call (err : String)
  /-- `invalid block range: {}..{}` -/
  | invalidBlockRange (first last : UInt64)
  /-- `some task failed, tasks: {}, finished: {}` -/
  | someTaskFailed (tasks finished : ℕ)
  /-- `block[{}] state root mismatch, remote: {:?}, local: {:?}` -/
  | stateRootMismatch (block : UInt64) (remoteRoot localRoot : SH256)
  deriving DecidableEq, Repr

def called {α : Type} (x : Except String α) : Except PoeError α := x.mapError PoeError.call

namespace BuildContext

variable {Pob Block Poe Key : Type} (c : BlockProver Pob Block Poe Key)

/-- What a worker does for a block before it takes the lock. -/
def handle (blk : UInt64) : Except String (Block × Poe) := do
  let pob ← c.generatePob blk
  let block ← c.execute pob
  .ok (block, c.singleBlock (c.stateHash pob) (c.prevStateRoot pob) (c.expectStateRoot pob) 0)

def checkRoot (result : Except String (Block × Poe)) : Except PoeError Poe := do
  let (block, poe) ← called result
  if c.newStateRoot poe ≠ c.stateRoot block then
    .error (.stateRootMismatch (c.number block) (c.newStateRoot poe) (c.stateRoot block))
  else .ok poe

/-- The workers insert their results in the order in which they get the lock; a block whose worker
panicked is not among those that finished. -/
def generatePoe (chainId : UInt64) (key : Key) (task : BatchTask) (finished : List UInt64) : Except PoeError Poe := do
  let batchResult := ofKeys (handle c) finished
  if batchResult.length ≠ task.blocks.length then
    .error (.someTaskFailed task.blocks.length batchResult.length)
  else do
    let poes ← (batchResult.map Prod.snd).mapM (checkRoot c)
    let poe ← called (c.batch task.dataHash poes)
    .ok (c.sign poe chainId key)

/-- `Api::prove` -/
def prove (key : Key) (first last : UInt64) (finished : List UInt64) : Except PoeError Poe :=
  if last < first then .error (.invalidBlockRange first last)
  else do
    let chainId ← called c.chainId
    generatePoe c chainId key ⟨0, rangeInclusive first last⟩ finished

/-- One worker that takes the blocks in their order. -/
def proveInOrder (chainId : UInt64) (key : Key) (task : BatchTask) : Except PoeError Poe := do
  let poes ← task.blocks.mapM fun blk => checkRoot c (handle c blk)
  let poe ← called (c.batch task.dataHash poes)
  .ok (c.sign poe chainId key)

variable {c}

theorem generatePoe_eq (chainId : UInt64) (key : Key) (task : BatchTask) (finished : List UInt64)
    (hblocks : task.blocks.Pairwise (· < ·)) (hfinished : finished.Subperm task.blocks) :
    generatePoe c chainId key task finished =
      if finished.length = task.blocks.length then proveInOrder c chainId key task
      else .error (.someTaskFailed task.blocks.length finished.length) := by
  have hnodup : task.blocks.Nodup := hblocks.imp fun h => h.ne
  obtain ⟨inOrder, hinOrder, hsublist⟩ := hfinished
  have hlen : (ofKeys (handle c) finished).length = finished.length :=
    ofKeys_length _ (hinOrder.nodup_iff.mp (hnodup.sublist hsublist))
  rw [generatePoe, hlen]
  by_cases hall : finished.length = task.blocks.length
  · have hperm : finished.Perm task.blocks := List.Subperm.perm_of_length_le ⟨_, hinOrder, hsublist⟩ hall.ge
    have hresults : (ofKeys (handle c) finished).map Prod.snd = task.blocks.map (handle c) := by
      rw [ofKeys_of_perm _ hperm hblocks, List.map_map]
      rfl
    rw [if_neg (not_not.mpr hall), if_pos hall, hresults, proveInOrder, List.mapM_map]
    rfl
  · rw [if_pos hall, if_neg hall]

section Accepted

/-- The block is executed to the state root that its header has. -/
structure Proves (c : BlockProver Pob Block Poe Key) (blk : UInt64) (pob : Pob) (block : Block) (poe : Poe) : Prop where
  generated : c.generatePob blk = .ok pob
  executed : c.execute pob = .ok block
  poe_eq : poe = c.singleBlock (c.stateHash pob) (c.prevStateRoot pob) (c.expectStateRoot pob) 0
  root_eq : c.newStateRoot poe = c.stateRoot block

theorem called_eq_ok {α : Type} {x : Except String α} {a : α} : called x = .ok a ↔ x = .ok a := by
  cases x <;> simp [called, Except.mapError]

theorem checkRoot_eq_ok {blk : UInt64} {poe : Poe} :
    checkRoot c (handle c blk) = .ok poe ↔ ∃ pob block, Proves c blk pob block poe := by
  unfold checkRoot handle
  constructor
  · intro h
    obtain ⟨⟨block, p⟩, hhandle, hcheck⟩ := bind_eq_ok.mp h
    obtain ⟨pob, hpob, hexecute⟩ := bind_eq_ok.mp (called_eq_ok.mp hhandle)
    obtain ⟨_, hblock, hresult⟩ := bind_eq_ok.mp hexecute
    cases hresult
    simp only at hcheck
    split_ifs at hcheck with hroot
    cases hcheck
    exact ⟨pob, block, hpob, hblock, rfl, not_not.mp hroot⟩
  · rintro ⟨pob, block, hpob, hblock, hpoe, hroot⟩
    rw [hpob, ok_bind, hblock, ok_bind, ← hpoe]
    exact if_neg (not_not.mpr hroot)

theorem proveInOrder_eq_ok {chainId : UInt64} {key : Key} {task : BatchTask} {poe : Poe} :
    proveInOrder c chainId key task = .ok poe ↔ ∃ poes batch,
      List.Forall₂ (fun blk p => ∃ pob block, Proves c blk pob block p) task.blocks poes ∧
        c.batch task.dataHash poes = .ok batch ∧ poe = c.sign batch chainId key := by
  unfold proveInOrder
  constructor
  · intro h
    obtain ⟨poes, hpoes, h⟩ := bind_eq_ok.mp h
    obtain ⟨batch, hbatch, hsign⟩ := bind_eq_ok.mp h
    refine ⟨poes, batch, ?_, called_eq_ok.mp hbatch, (Except.ok.inj hsign).symm⟩
    exact (mapM_eq_ok.mp hpoes).imp fun _ _ => checkRoot_eq_ok.mp
  · rintro ⟨poes, batch, hpoes, hbatch, rfl⟩
    have hall := mapM_eq_ok.mpr (hpoes.imp fun _ _ => checkRoot_eq_ok.mpr)
    rw [hall, ok_bind, called_eq_ok.mpr hbatch]
    rfl

theorem rangeInclusive_sorted (first last : UInt64) : (rangeInclusive first last).Pairwise (· < ·) := by
  have hnat : ((rangeInclusive first last).map UInt64.toNat).Pairwise (· < ·) := by
    rw [rangeInclusive_toNat]
    exact List.pairwise_lt_range'
  exact (List.pairwise_map.mp hnat).imp UInt64.lt_iff_toNat_lt.mpr

theorem prove_eq (c : BlockProver Pob Block Poe Key) (key : Key) {first last : UInt64} (hrange : first ≤ last)
    {finished : List UInt64} (hfinished : finished.Subperm (rangeInclusive first last)) :
    prove c key first last finished = called c.chainId >>= fun chainId =>
      if finished.length = (rangeInclusive first last).length then
        proveInOrder c chainId key ⟨0, rangeInclusive first last⟩
      else .error (.someTaskFailed (rangeInclusive first last).length finished.length) := by
  rw [prove, if_neg (not_lt.mpr hrange)]
  apply congrArg
  funext chainId
  exact generatePoe_eq chainId key _ finished (rangeInclusive_sorted first last) hfinished

/-- In whatever order the workers finish, the prover does what one worker does that takes the blocks in their
order, the first error included, and it gives a proof just for blocks that are executed to the roots of
their headers. -/
theorem prove_in_any_order (c : BlockProver Pob Block Poe Key) (key : Key) (first last : UInt64)
    (finished : List UInt64) (hfinished : finished.Subperm (rangeInclusive first last)) :
    (first ≤ last → prove c key first last finished = called c.chainId >>= fun chainId =>
      if finished.length = (rangeInclusive first last).length then
        proveInOrder c chainId key ⟨0, rangeInclusive first last⟩
      else .error (.someTaskFailed (rangeInclusive first last).length finished.length)) ∧
    ∀ poe, prove c key first last finished = .ok poe ↔
      first ≤ last ∧ finished.Perm (rangeInclusive first last) ∧ ∃ chainId poes batch, c.chainId = .ok chainId ∧
        List.Forall₂ (fun blk p => ∃ pob block, Proves c blk pob block p) (rangeInclusive first last) poes ∧
        c.batch 0 poes = .ok batch ∧ poe = c.sign batch chainId key := by
  have hperm : finished.length = (rangeInclusive first last).length ↔ finished.Perm (rangeInclusive first last) :=
    ⟨fun h => hfinished.perm_of_length_le h.ge, List.Perm.length_eq⟩
  refine ⟨fun hrange => prove_eq c key hrange hfinished, ?_⟩
  intro poe
  by_cases hrange : first ≤ last
  · rw [prove_eq c key hrange hfinished, and_iff_right hrange, bind_eq_ok]
    constructor
    · rintro ⟨chainId, hchain, h⟩
      split_ifs at h with hall
      obtain ⟨poes, batch, hpoes, hbatch, hsign⟩ := proveInOrder_eq_ok.mp h
      exact ⟨hperm.mp hall, chainId, poes, batch, called_eq_ok.mp hchain, hpoes, hbatch, hsign⟩
    · rintro ⟨hall, chainId, poes, batch, hchain, hpoes, hbatch, hsign⟩
      refine ⟨chainId, called_eq_ok.mpr hchain, ?_⟩
      rw [if_pos (hperm.mpr hall)]
      exact proveInOrder_eq_ok.mpr ⟨poes, batch, hpoes, hbatch, hsign⟩
  · rw [prove, if_pos (not_le.mp hrange)]
    exact iff_of_false nofun fun h => hrange h.1

end Accepted

section Sample

/-- Blocks that are executed to their own numbers. -/
def sampleCalls : BlockProver UInt64 UInt64 (List SH256) Unit where
  chainId := .ok 1
  generatePob blk := .ok blk
  stateHash _ := 0
  prevStateRoot _ := 0
  expectStateRoot pob := formatRoot pob
  execute pob := .ok pob
  stateRoot block := formatRoot block
  number block := block
  singleBlock _ _ root _ := [root]
  newStateRoot poe := poe.getLastD 0
  batch _ poes := .ok poes.flatten
  sign poe _ _ := poe
where
  formatRoot (n : UInt64) : SH256 := BitVec.ofNat 256 n.toNat

theorem prove_in_any_order_sample : prove sampleCalls () 5 7 [7, 5, 6] = .ok [5, 6, 7] := by
  have h := prove_in_any_order sampleCalls () 5 7 [7, 5, 6] (by decide)
  exact h.1 (by decide)

end Sample

end BuildContext

end LineaSgxProver.Linea
