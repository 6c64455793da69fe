import LineaSgxProver.Library.Action
import LineaSgxProver.Library.OrderedMap
import LineaSgxProver.Linea.ZkTrieState
import Mathlib.Data.List.Sort

namespace LineaSgxProver.Linea

open Library OrderedMap

abbrev bitVecOrder (w : ℕ) : LinearOrder (BitVec w) where
  le_refl _ := BitVec.le_refl _
  le_trans _ _ _ := BitVec.le_trans
  le_antisymm _ _ := BitVec.le_antisymm
  le_total a b := Nat.le_total a.toNat b.toNat
  lt_iff_le_not_ge a b := by
    rw [BitVec.le_def, BitVec.le_def, BitVec.lt_def]
    omega
  toDecidableLE := inferInstance

attribute [local instance] bitVecOrder

/-- An account as a transaction found it, with the slots of its storage that the transaction touched. -/
structure PrestateAccount where
  code : Bytes
  storage : List SH256

structure TxPrestate where
  result : Option (List (SH160 × PrestateAccount))

structure FetchState where
  address : SH160
  storageKeys : List SH256
  deriving DecidableEq, Repr

/-- The calls that `fetch_prestate` makes. -/
structure ExecutionClient (Selector Block State ε : Type) where
  tracePrestate : Selector → Except ε (List TxPrestate)
  getBlock : Selector → Except ε Block
  fetchStates : List FetchState → UInt64 → Except ε (List State)
  /-- `get_block_header`, of which the state root is read. -/
  stateRoot : UInt64 → Except ε SH256

/-- The arguments of `Pob::from_proof`. -/
structure Pob (Block State : Type) where
  chainId : UInt64
  blk : Block
  prevStateRoot : SH256
  blockHashes : List (UInt64 × SH256)
  codes : List (SH256 × Bytes)
  states : List State

section Collect

variable [KeccakHash]

structure Prestate where
  unique : List (SH160 × List (SH256 × Unit))
  codes : List (SH256 × Bytes)

def Prestate.collect (st : Prestate) (e : SH160 × PrestateAccount) : Prestate where
  unique := entry e.1 (fun set => e.2.storage.foldl (fun set key => insert key () set) (set.getD [])) st.unique
  codes := entry (KeccakHash.hash e.2.code) (fun code => code.getD e.2.code) st.codes

def Prestate.addTx (st : Prestate) (tx : TxPrestate) : Prestate :=
  match tx.result with
  | some result => result.foldl Prestate.collect st
  | none => st

def prestate (txs : List TxPrestate) : Prestate := txs.foldl Prestate.addTx ⟨[], []⟩

def fetchReqs (st : Prestate) : List FetchState :=
  st.unique.map fun (key, acc) => ⟨key, acc.map Prod.fst⟩

variable {Selector Block State ε : Type}

def lifted {α : Type} (x : Except ε α) : Except (Fault ε) α := x.mapError Fault.error

def fetchPrestate [Profile] (number : Block → UInt64) (chainId : UInt64)
    (client : ExecutionClient Selector Block State ε) (block : Selector) :
    Except (Fault ε) (Pob Block State) := do
  let txs ← lifted (client.tracePrestate block)
  let st := prestate txs
  let blk ← lifted (client.getBlock block)
  let prevBlock ← orPanic (subU64 (number blk) 1)
  let states ← lifted (client.fetchStates (fetchReqs st) prevBlock)
  let prevStateRoot ← (if 0 < number blk then lifted (client.stateRoot prevBlock) else .ok 0)
  .ok ⟨chainId, blk, prevStateRoot, [], st.codes, states⟩

/-- The accounts that the transactions touched, as often as they did. -/
def touched (txs : List TxPrestate) : List (SH160 × PrestateAccount) := txs.flatMap fun tx => tx.result.getD []

/-- Each account that was touched is asked for once, in order, with all its slots that were. -/
structure Covers (txs : List TxPrestate) (reqs : List FetchState) : Prop where
  ordered : reqs.Pairwise fun r r' => r.address < r'.address
  accounts : ∀ a, (∃ r ∈ reqs, r.address = a) ↔ ∃ acc, (a, acc) ∈ touched txs
  keys : ∀ r ∈ reqs, r.storageKeys.Pairwise (· < ·) ∧
    ∀ k, k ∈ r.storageKeys ↔ ∃ acc, (r.address, acc) ∈ touched txs ∧ k ∈ acc.storage

/-- Each code hash comes once, in order, with the first code that was touched and has it. -/
structure FirstCodes (txs : List TxPrestate) (codes : List (SH256 × Bytes)) : Prop where
  ordered : Ordered codes
  codes : ∀ hash, lookup hash codes =
    lookup hash ((touched txs).map fun e => (KeccakHash.hash e.2.code, e.2.code))

theorem prestate_eq (txs : List TxPrestate) : prestate txs =
    ⟨((touched txs).map fun e => (e.1, e.2.storage)).foldl gather [],
      ((touched txs).map fun e => (KeccakHash.hash e.2.code, e.2.code)).foldl keepFirst []⟩ := by
  have hcollect (es : List (SH160 × PrestateAccount)) (st : Prestate) : es.foldl Prestate.collect st =
      ⟨(es.map fun e => (e.1, e.2.storage)).foldl gather st.unique,
        (es.map fun e => (KeccakHash.hash e.2.code, e.2.code)).foldl keepFirst st.codes⟩ := by
    induction es generalizing st with
    | nil => rfl
    | cons e es ih => exact ih (st.collect e)
  have hadd (st : Prestate) (tx : TxPrestate) : st.addTx tx = (tx.result.getD []).foldl Prestate.collect st := by
    unfold Prestate.addTx
    cases tx.result <;> rfl
  have hfold (st : Prestate) : txs.foldl Prestate.addTx st = (touched txs).foldl Prestate.collect st := by
    unfold touched
    induction txs generalizing st with
    | nil => rfl
    | cons tx txs ih => rw [List.foldl_cons, List.flatMap_cons, List.foldl_append, ih, hadd]
  rw [prestate, hfold, hcollect]

theorem fetchReqs_covers (txs : List TxPrestate) : Covers txs (fetchReqs (prestate txs)) := by
  have h := gathered ((touched txs).map fun e => (e.1, e.2.storage))
  have htouched (P : SH160 × List SH256 → Prop) : (∃ e ∈ (touched txs).map fun e => (e.1, e.2.storage), P e) ↔
      ∃ a acc, (a, acc) ∈ touched txs ∧ P (a, acc.storage) := by
    constructor
    · rintro ⟨e, he, hP⟩
      obtain ⟨⟨a, acc⟩, hmem, rfl⟩ := List.mem_map.mp he
      exact ⟨a, acc, hmem, hP⟩
    · rintro ⟨a, acc, hmem, hP⟩
      exact ⟨_, List.mem_map_of_mem hmem, hP⟩
  rw [fetchReqs, prestate_eq]
  refine ⟨List.pairwise_map.mpr h.ordered, ?_, ?_⟩
  · intro a
    constructor
    · rintro ⟨r, hr, rfl⟩
      obtain ⟨⟨a, set⟩, hmem, rfl⟩ := List.mem_map.mp hr
      obtain ⟨a, acc, hacc, rfl⟩ := (htouched _).mp ((h.keys _).mp ⟨set, hmem⟩)
      exact ⟨acc, hacc⟩
    · rintro ⟨acc, hacc⟩
      obtain ⟨set, hmem⟩ := (h.keys a).mpr ((htouched _).mpr ⟨a, acc, hacc, rfl⟩)
      exact ⟨_, List.mem_map_of_mem hmem, rfl⟩
  · intro r hr
    obtain ⟨⟨a, set⟩, hmem, rfl⟩ := List.mem_map.mp hr
    obtain ⟨hordered, hset⟩ := h.members a set hmem
    refine ⟨List.pairwise_map.mpr hordered, ?_⟩
    intro k
    have hk : k ∈ set.map Prod.fst ↔ (k, ()) ∈ set := by
      rw [List.mem_map]
      exact ⟨fun ⟨_, hs, heq⟩ => heq ▸ hs, fun hs => ⟨_, hs, rfl⟩⟩
    rw [hk, hset, htouched]
    constructor
    · rintro ⟨a, acc, hacc, rfl, hstorage⟩
      exact ⟨acc, hacc, hstorage⟩
    · rintro ⟨acc, hacc, hstorage⟩
      exact ⟨a, acc, hacc, rfl, hstorage⟩

theorem codes_first (txs : List TxPrestate) : FirstCodes txs (prestate txs).codes := by
  rw [prestate_eq]
  obtain ⟨hordered, hlookup⟩ :=
    foldl_keepFirst ((touched txs).map fun e => (KeccakHash.hash e.2.code, e.2.code))
  exact ⟨hordered, hlookup⟩

omit [KeccakHash] in
theorem Covers.unique {txs : List TxPrestate} {reqs reqs' : List FetchState} (h : Covers txs reqs)
    (h' : Covers txs reqs') : reqs = reqs' := by
  have hsub {l l' : List FetchState} (hl : Covers txs l) (hl' : Covers txs l') {r : FetchState} (hr : r ∈ l) :
      r ∈ l' := by
    obtain ⟨r', hr', haddress⟩ := (hl'.accounts r.address).mpr ((hl.accounts r.address).mp ⟨r, hr, rfl⟩)
    have hkeys : r.storageKeys = r'.storageKeys := by
      apply (hl.keys r hr).1.eq_of_mem_iff (hl'.keys r' hr').1
      intro k
      rw [(hl.keys r hr).2, (hl'.keys r' hr').2, haddress]
    obtain ⟨address, storageKeys⟩ := r
    obtain ⟨address', storageKeys'⟩ := r'
    obtain rfl : address' = address := haddress
    obtain rfl : storageKeys = storageKeys' := hkeys
    exact hr'
  have hnodup {l : List FetchState} (hl : Covers txs l) : l.Nodup := by
    apply List.Pairwise.imp _ hl.ordered
    rintro r r' hlt rfl
    exact absurd hlt (lt_irrefl _)
  have hperm : reqs.Perm reqs' :=
    (List.perm_ext_iff_of_nodup (hnodup h) (hnodup h')).mpr fun r => ⟨hsub h h', hsub h' h⟩
  exact hperm.eq_of_pairwise (fun _ _ _ _ hlt hgt => absurd (hlt.trans hgt) (lt_irrefl _)) h.ordered h'.ordered

theorem FirstCodes.unique {txs : List TxPrestate} {codes codes' : List (SH256 × Bytes)} (h : FirstCodes txs codes)
    (h' : FirstCodes txs codes') : codes = codes' := by
  apply h.ordered.eq_of_lookup h'.ordered
  intro hash
  rw [h.codes, h'.codes]

omit [KeccakHash] in
theorem lifted_eq_ok {α : Type} {x : Except ε α} {a : α} : lifted x = .ok a ↔ x = .ok a := by
  cases x <;> simp [lifted, Except.mapError]

variable [Profile] {number : Block → UInt64} {chainId : UInt64}
  {client : ExecutionClient Selector Block State ε} {block : Selector}

/-- The result is put together from the answers to requests for exactly what the transactions touched. -/
structure Fetches (number : Block → UInt64) (chainId : UInt64) (client : ExecutionClient Selector Block State ε)
    (block : Selector) (pob : Pob Block State) (txs : List TxPrestate) (reqs : List FetchState)
    (prevBlock : UInt64) : Prop where
  traced : client.tracePrestate block = .ok txs
  covers : Covers txs reqs
  blk : client.getBlock block = .ok pob.blk
  before : subU64 (number pob.blk) 1 = some prevBlock
  states : client.fetchStates reqs prevBlock = .ok pob.states
  root : (0 < number pob.blk ∧ client.stateRoot prevBlock = .ok pob.prevStateRoot) ∨
    (number pob.blk = 0 ∧ pob.prevStateRoot = 0)
  codes : FirstCodes txs pob.codes
  rest : pob.chainId = chainId ∧ pob.blockHashes = []

theorem fetchPrestate_eq_ok {pob : Pob Block State} : fetchPrestate number chainId client block = .ok pob ↔
    ∃ txs reqs prevBlock, Fetches number chainId client block pob txs reqs prevBlock := by
  unfold fetchPrestate
  constructor
  · intro h
    obtain ⟨txs, htxs, h⟩ := bind_eq_ok.mp h
    obtain ⟨blk, hblk, h⟩ := bind_eq_ok.mp h
    obtain ⟨prevBlock, hprev, h⟩ := bind_eq_ok.mp h
    obtain ⟨states, hstates, h⟩ := bind_eq_ok.mp h
    obtain ⟨root, hroot, h⟩ := bind_eq_ok.mp h
    obtain rfl := Except.ok.inj h
    refine ⟨txs, fetchReqs (prestate txs), prevBlock, lifted_eq_ok.mp htxs, fetchReqs_covers txs,
      lifted_eq_ok.mp hblk, orPanic_eq_ok.mp hprev, lifted_eq_ok.mp hstates, ?_, codes_first txs, rfl, rfl⟩
    split_ifs at hroot with hpos
    · exact Or.inl ⟨hpos, lifted_eq_ok.mp hroot⟩
    · refine Or.inr ⟨?_, (Except.ok.inj hroot).symm⟩
      exact UInt64.le_zero_iff.mp (UInt64.not_lt.mp hpos)
  · rintro ⟨txs, reqs, prevBlock, h⟩
    obtain rfl := h.covers.unique (fetchReqs_covers txs)
    obtain ⟨hchainId, hhashes⟩ := h.rest
    refine bind_eq_ok.mpr ⟨txs, lifted_eq_ok.mpr h.traced, bind_eq_ok.mpr ⟨pob.blk, lifted_eq_ok.mpr h.blk, ?_⟩⟩
    refine bind_eq_ok.mpr ⟨prevBlock, orPanic_eq_ok.mpr h.before, ?_⟩
    refine bind_eq_ok.mpr ⟨pob.states, lifted_eq_ok.mpr h.states, bind_eq_ok.mpr ⟨pob.prevStateRoot, ?_, ?_⟩⟩
    · rcases h.root with ⟨hpos, hroot⟩ | ⟨hzero, hroot⟩
      · rw [if_pos hpos]
        exact lifted_eq_ok.mpr hroot
      · rw [hzero, hroot]
        rfl
    · rw [← h.codes.unique (codes_first txs), ← hchainId, ← hhashes]

end Collect

section Retry

variable {ε α : Type}

def retryFrom (f : ℕ → Except (Fault ε) α) : ℕ → Option ε → Except (Fault ε) α
  | 0, error => orPanic error >>= fun err => .error (.error err)
  | n + 1, _ =>
    match f 0 with
    | .ok a => .ok a
    | .error (.error err) => retryFrom (fun i => f (i + 1)) n (some err)
    | .error .panic => .error .panic

/-- `f i` is what the call gives in its turn; between the turns `retry` sleeps. -/
def retry (n : ℕ) (f : ℕ → Except (Fault ε) α) : Except (Fault ε) α := retryFrom f n none

def Failed (x : Except (Fault ε) α) : Prop := ∃ err, x = .error (.error err)

/-- The first of some calls that does not fail returns. -/
def FirstOk (f : ℕ → Except (Fault ε) α) (n : ℕ) (a : α) : Prop :=
  ∃ i < n, f i = .ok a ∧ ∀ j < i, Failed (f j)

theorem firstOk_succ {f : ℕ → Except (Fault ε) α} {n : ℕ} {a : α} :
    FirstOk f (n + 1) a ↔ f 0 = .ok a ∨ Failed (f 0) ∧ FirstOk (fun i => f (i + 1)) n a := by
  constructor
  · rintro ⟨i, hi, hok, hfailed⟩
    cases i with
    | zero => exact Or.inl hok
    | succ i =>
      refine Or.inr ⟨hfailed 0 (Nat.succ_pos i), i, Nat.lt_of_succ_lt_succ hi, hok, ?_⟩
      intro j hj
      exact hfailed (j + 1) (Nat.succ_lt_succ hj)
  · rintro (hok | ⟨hzero, i, hi, hok, hfailed⟩)
    · exact ⟨0, Nat.succ_pos n, hok, fun j hj => absurd hj (Nat.not_lt_zero j)⟩
    · refine ⟨i + 1, Nat.succ_lt_succ hi, hok, ?_⟩
      intro j hj
      cases j with
      | zero => exact hzero
      | succ j => exact hfailed j (Nat.lt_of_succ_lt_succ hj)

theorem retryFrom_eq_ok (f : ℕ → Except (Fault ε) α) (n : ℕ) (error : Option ε) {a : α} :
    retryFrom f n error = .ok a ↔ FirstOk f n a := by
  induction n generalizing f error with
  | zero =>
    apply iff_of_false
    · cases error <;> rintro ⟨⟩
    · rintro ⟨i, hi, _⟩
      exact Nat.not_lt_zero i hi
  | succ n ih =>
    rw [retryFrom, firstOk_succ]
    cases hf : f 0 with
    | ok b =>
      apply Iff.symm
      apply or_iff_left
      rintro ⟨⟨err, herr⟩, _⟩
      cases herr
    | error fault =>
      cases fault with
      | error err =>
        have hfailed : Failed (.error (.error err) : Except (Fault ε) α) := ⟨err, rfl⟩
        simp only [ih, reduceCtorEq, false_or, hfailed, true_and]
      | panic =>
        apply iff_of_false
        · rintro ⟨⟩
        · rintro (h | ⟨⟨err, herr⟩, _⟩)
          · cases h
          · cases herr

end Retry

section Generation

variable [KeccakHash] [Profile] {Selector Block State ε : Type}

/-- The state that `generate_pob` starts from is that of the first attempt of three that the node lets
through, in which the node was asked for exactly what it says that the transactions touch. -/
theorem generatePob_prestate_iff (number : Block → UInt64) (chainId : UInt64)
    (client : ℕ → ExecutionClient Selector Block State ε) (block : Selector) (pob : Pob Block State) :
    retry 3 (fun i => fetchPrestate number chainId (client i) block) = .ok pob ↔
      ∃ i < 3, (∃ txs reqs prevBlock, Fetches number chainId (client i) block pob txs reqs prevBlock) ∧
        ∀ j < i, Failed (fetchPrestate number chainId (client j) block) := by
  rw [retry, retryFrom_eq_ok]
  apply exists_congr
  intro i
  rw [fetchPrestate_eq_ok]

end Generation

end LineaSgxProver.Linea
