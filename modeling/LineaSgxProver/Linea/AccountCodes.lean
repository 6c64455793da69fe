import LineaSgxProver.Linea.Existence
import LineaSgxProver.Zktrie.TraceStore

namespace LineaSgxProver.Zktrie.Trace

def readValue : Trace → Bytes
  | deletion _ => []
  | insertion _ => []
  | read n => n.value
  | readZero _ => []
  | update _ => []

def location : Trace → Bytes
  | deletion n => n.location
  | insertion n => n.location
  | read n => n.location
  | readZero n => n.location
  | update n => n.location

def centerValue (t : Trace) : Bytes := (t.keyRange.center.map FlattenedLeaf.leafValue).getD []

/-- The trace writes over a leaf whose value is not empty. -/
def Overwrites : Trace → Prop
  | update n => n.oldValue ≠ []
  | deletion n => n.deleteValue ≠ []
  | _ => False

theorem readValue_eq_centerValue_iff (t : Trace) : t.readValue = t.centerValue ↔ ¬ t.Overwrites := by
  cases t <;> simp [readValue, centerValue, keyRange, Overwrites, eq_comm]

end LineaSgxProver.Zktrie.Trace

namespace LineaSgxProver.Linea

open Library Zktrie

/-- `addr.0.copy_from_slice(key)`. -/
def SH160.copyFromSlice (key : Bytes) : Option SH160 :=
  if key.length = 20 then some (BitVec.ofNat 160 (BigEndian.decode key)) else none

theorem SH160.copyFromSlice_of_length {key : Bytes} (h : key.length = 20) :
    copyFromSlice key = some (BitVec.ofNat 160 (BigEndian.decode key)) := if_pos h

theorem SH160.copyFromSlice_injective {k k' : Bytes} {a : SH160} (h : copyFromSlice k = some a)
    (h' : copyFromSlice k' = some a) : k = k' := by
  unfold copyFromSlice at h h'
  split_ifs at h h' with hk hk'
  have hlt : BigEndian.decode k < 2 ^ 160 := by
    have := BigEndian.decode_lt k
    rwa [hk] at this
  have hlt' : BigEndian.decode k' < 2 ^ 160 := by
    have := BigEndian.decode_lt k'
    rwa [hk'] at this
  have hval := congrArg BitVec.toNat ((Option.some.inj h).trans (Option.some.inj h').symm)
  rw [BitVec.toNat_ofNat, BitVec.toNat_ofNat, Nat.mod_eq_of_lt hlt, Nat.mod_eq_of_lt hlt'] at hval
  rw [← BigEndian.encode_decode k, ← BigEndian.encode_decode k', hk, hk', hval]

/-- A read of the account trie that finds a value. -/
structure Asks (t : Trace) (n : ReadTrace) : Prop where
  read : t = .read n
  location : n.location = []
  value : n.value ≠ []

theorem asks_iff {t : Trace} : t.location.length = 0 ∧ 0 < t.readValue.length ↔ ∃ n, Asks t n := by
  constructor
  · rintro ⟨hloc, hval⟩
    cases t with
    | read n =>
      exact ⟨n, rfl, List.length_eq_zero_iff.mp hloc, List.ne_nil_of_length_pos hval⟩
    | readZero n => exact absurd hval (lt_irrefl 0)
    | insertion n => exact absurd hval (lt_irrefl 0)
    | update n => exact absurd hval (lt_irrefl 0)
    | deletion n => exact absurd hval (lt_irrefl 0)
  · rintro ⟨n, rfl, hloc, hval⟩
    exact ⟨List.length_eq_zero_iff.mpr hloc, List.length_pos_iff.mpr hval⟩

section Requests

variable [TrieHash] [KeccakHash]

def pushCode (codes : List SH160) (t : Trace) : Option (List SH160) :=
  if t.location.length = 0 ∧ 0 < t.readValue.length then do
    let _ ← ZkStateAccount.fromBytes t.readValue
    let addr ← SH160.copyFromSlice t.key
    some (codes ++ [addr])
  else some codes

/-- The loop of `generate_poe_v2` over the block's traces. -/
def codeAddresses (blockTrace : List Trace) : Option (List SH160) := blockTrace.foldlM pushCode []

/-- The read value is an account, and the key is an address. -/
def Loads (n : ReadTrace) (a : SH160) : Prop :=
  (ZkStateAccount.fromBytes n.value).isSome = true ∧ SH160.copyFromSlice n.key = some a

theorem pushCode_eq_some {codes codes' : List SH160} {t : Trace} :
    pushCode codes t = some codes' ↔
      (∃ n a, Asks t n ∧ Loads n a ∧ codes' = codes ++ [a]) ∨ (¬ ∃ n, Asks t n) ∧ codes' = codes := by
  unfold pushCode
  by_cases h : ∃ n, Asks t n
  · rw [if_pos (asks_iff.mpr h)]
    obtain ⟨n, hn⟩ := h
    obtain rfl := hn.read
    change (ZkStateAccount.fromBytes n.value >>= fun _ => SH160.copyFromSlice n.key >>= fun addr =>
      some (codes ++ [addr])) = some codes' ↔ _
    constructor
    · intro hpush
      obtain ⟨acc, hacc, hpush⟩ := Option.bind_eq_some_iff.mp hpush
      obtain ⟨a, ha, hcodes⟩ := Option.bind_eq_some_iff.mp hpush
      refine Or.inl ⟨n, a, hn, ⟨?_, ha⟩, (Option.some.inj hcodes).symm⟩
      rw [hacc]
      rfl
    · rintro (⟨n', a, hn', ⟨hacc, ha⟩, rfl⟩ | ⟨hnone, _⟩)
      · obtain rfl := Trace.read.inj hn'.read
        obtain ⟨acc, hacc⟩ := Option.isSome_iff_exists.mp hacc
        rw [hacc, ha]
        rfl
      · exact absurd ⟨n, hn⟩ hnone
  · rw [if_neg (fun hasks => h (asks_iff.mp hasks))]
    constructor
    · intro hpush
      exact Or.inr ⟨h, (Option.some.inj hpush).symm⟩
    · rintro (⟨n, a, hn, _⟩ | ⟨_, rfl⟩)
      · exact absurd ⟨n, hn⟩ h
      · rfl

/-- The addresses after the loop are those before it and those of the reads it met, all of which
loaded. -/
structure Collected (traces : List Trace) (codes codes' : List SH160) : Prop where
  loads : ∀ t ∈ traces, ∀ n, Asks t n → ∃ a, Loads n a
  mem : ∀ a, a ∈ codes' ↔ a ∈ codes ∨ ∃ t ∈ traces, ∃ n, Asks t n ∧ Loads n a

theorem collected_of_foldlM {traces : List Trace} {codes codes' : List SH160}
    (h : traces.foldlM pushCode codes = some codes') : Collected traces codes codes' := by
  induction traces generalizing codes with
  | nil =>
    obtain rfl := Option.some.inj h
    exact ⟨by simp, by simp⟩
  | cons t traces ih =>
    rw [List.foldlM_cons] at h
    obtain ⟨mid, hpush, hrest⟩ := Option.bind_eq_some_iff.mp h
    have hcollect := ih hrest
    rcases pushCode_eq_some.mp hpush with ⟨n, a, hn, hload, rfl⟩ | ⟨hnone, rfl⟩
    · have hself (n' : ReadTrace) (hn' : Asks t n') : n' = n :=
        Trace.read.inj (hn'.read.symm.trans hn.read)
      have hunique (b : SH160) (hb : Loads n b) : b = a := Option.some.inj (hb.2.symm.trans hload.2)
      refine ⟨?_, ?_⟩
      · intro t' ht' n' hn'
        rcases List.mem_cons.mp ht' with rfl | ht'
        · exact ⟨a, hself n' hn' ▸ hload⟩
        · exact hcollect.loads t' ht' n' hn'
      · intro b
        rw [hcollect.mem, List.mem_append, List.mem_singleton, or_assoc]
        apply or_congr_right
        constructor
        · rintro (rfl | ⟨t', ht', hb⟩)
          · exact ⟨t, List.mem_cons_self, n, hn, hload⟩
          · exact ⟨t', List.mem_cons_of_mem _ ht', hb⟩
        · rintro ⟨t', ht', n', hn', hb⟩
          rcases List.mem_cons.mp ht' with rfl | ht'
          · exact Or.inl (hunique b (hself n' hn' ▸ hb))
          · exact Or.inr ⟨t', ht', n', hn', hb⟩
    · refine ⟨?_, ?_⟩
      · intro t' ht' n' hn'
        rcases List.mem_cons.mp ht' with rfl | ht'
        · exact absurd ⟨n', hn'⟩ hnone
        · exact hcollect.loads t' ht' n' hn'
      · intro b
        rw [hcollect.mem]
        apply or_congr_right
        constructor
        · rintro ⟨t', ht', hb⟩
          exact ⟨t', List.mem_cons_of_mem _ ht', hb⟩
        · rintro ⟨t', ht', n', hn', hb⟩
          rcases List.mem_cons.mp ht' with rfl | ht'
          · exact absurd ⟨n', hn'⟩ hnone
          · exact ⟨t', ht', n', hn', hb⟩

theorem exists_foldlM {traces : List Trace} (h : ∀ t ∈ traces, ∀ n, Asks t n → ∃ a, Loads n a)
    (codes : List SH160) : ∃ codes', traces.foldlM pushCode codes = some codes' := by
  induction traces generalizing codes with
  | nil => exact ⟨codes, rfl⟩
  | cons t traces ih =>
    have hstep : ∃ mid, pushCode codes t = some mid := by
      by_cases hasks : ∃ n, Asks t n
      · obtain ⟨n, hn⟩ := hasks
        obtain ⟨a, ha⟩ := h t List.mem_cons_self n hn
        exact ⟨_, pushCode_eq_some.mpr (Or.inl ⟨n, a, hn, ha, rfl⟩)⟩
      · exact ⟨_, pushCode_eq_some.mpr (Or.inr ⟨hasks, rfl⟩)⟩
    obtain ⟨mid, hmid⟩ := hstep
    rw [List.foldlM_cons, hmid]
    exact ih (fun t' ht' => h t' (List.mem_cons_of_mem _ ht')) mid

theorem mem_codeAddresses {traces : List Trace} {addrs : List SH160}
    (h : codeAddresses traces = some addrs) (a : SH160) :
    a ∈ addrs ↔ ∃ t ∈ traces, ∃ n, Asks t n ∧ Loads n a := by
  rw [(collected_of_foldlM h).mem]
  simp

/-- The address of every account-trie trace with a value before the block is collected. -/
def RequestsAll (traces : List Trace) : Prop :=
  ∀ t ∈ traces, t.location = [] → t.keyRange.center ≠ none →
    ∃ addrs a, codeAddresses traces = some addrs ∧ SH160.copyFromSlice t.key = some a ∧ a ∈ addrs

/-- Every account-trie trace with a value before the block has the key of a read that finds one, and
what these reads find are accounts. -/
structure CoveredByReads (traces : List Trace) : Prop where
  read : ∀ t ∈ traces, t.location = [] → t.keyRange.center ≠ none →
    ∃ r ∈ traces, ∃ n, Asks r n ∧ n.key = t.key
  accounts : ∀ t ∈ traces, ∀ n, Asks t n → (ZkStateAccount.fromBytes n.value).isSome = true

theorem requestsAll_iff {traces : List Trace}
    (hkeys : ∀ t ∈ traces, t.location = [] → t.key.length = 20) :
    RequestsAll traces ↔ CoveredByReads traces := by
  constructor
  · intro h
    refine ⟨?_, ?_⟩
    · intro t ht hloc hcenter
      obtain ⟨addrs, a, hcodes, hkey, hmem⟩ := h t ht hloc hcenter
      obtain ⟨r, hr, n, hn, _, hn'⟩ := (mem_codeAddresses hcodes a).mp hmem
      exact ⟨r, hr, n, hn, SH160.copyFromSlice_injective hn' hkey⟩
    · intro t ht n hn
      obtain rfl := hn.read
      obtain ⟨addrs, _, hcodes, _⟩ := h _ ht hn.location (Option.some_ne_none _)
      obtain ⟨a, hload⟩ := (collected_of_foldlM hcodes).loads _ ht n hn
      exact hload.1
  · intro h t ht hloc hcenter
    have hloads (r : Trace) (hr : r ∈ traces) (n : ReadTrace) (hn : Asks r n) : ∃ a, Loads n a := by
      obtain rfl := hn.read
      exact ⟨_, h.accounts _ hr n hn, SH160.copyFromSlice_of_length (hkeys _ hr hn.location)⟩
    obtain ⟨addrs, hcodes⟩ := exists_foldlM hloads []
    obtain ⟨r, hr, n, hn, hkey⟩ := h.read t ht hloc hcenter
    obtain ⟨a, hload⟩ := hloads r hr n hn
    refine ⟨addrs, a, hcodes, hkey ▸ hload.2, ?_⟩
    exact (mem_codeAddresses hcodes a).mpr ⟨r, hr, n, hn, hload⟩

end Requests

section Codes

variable [KeccakHash]

abbrev Codes := BTreeMap SH256 Bytes

def addCodes (db : Codes) (codes : List Bytes) : Codes :=
  codes.foldl (fun db code => db.insert (KeccakHash.hash code) code) db

theorem addCodes_get_isSome (db : Codes) (codes : List Bytes) (h : SH256) :
    ((addCodes db codes).get h).isSome = true ↔
      (db.get h).isSome = true ∨ ∃ code ∈ codes, KeccakHash.hash code = h := by
  induction codes generalizing db with
  | nil => simp [addCodes]
  | cons code codes ih =>
    change ((addCodes (db.insert (KeccakHash.hash code) code) codes).get h).isSome = true ↔ _
    rw [ih, BTreeMap.get_insert]
    by_cases hcode : KeccakHash.hash code = h
    · simp [hcode]
    · simp [hcode, Ne.symm hcode]

/-- The codes of the addresses, as the node client gives them: it is not part of the repository. -/
def requestedCodes (codeAt : SH160 → Bytes) (addrs : List SH160) : Codes :=
  addCodes [] (addrs.map codeAt)

end Codes

inductive CodeError where
  | state (e : StateError)
  | codeNotFound (codeHash : SH256)
  deriving DecidableEq, Repr

namespace ZkTrieState

variable {D ε : Type} [RawTrie D ε] [Debug ε] [TrieHash] [KeccakHash]

def getCode (codes : Codes) (address : SH160) : Action (ZkTrieState D) (Fault CodeError) Bytes := do
  let (codeHash, codeSize) ← Action.mapError (Fault.map CodeError.state)
    (withAcc address fun acc => .ok ((acc.keccakCodeHash, acc.codeSize), acc, false))
  if codeSize = 0 then pure []
  else
    match codes.get codeHash with
    | some code => pure code
    | none => Action.lift (.error (.error (.codeNotFound codeHash)))

def CodeNotFound (codes : Codes) (address : SH160) (s : ZkTrieState D) : Prop :=
  ∃ codeHash s', (getCode codes address).Stops s (.error (.codeNotFound codeHash)) s'

theorem codeNotFound_iff {codes : Codes} {a : SH160} {s : ZkTrieState D} {acc : ZkStateAccount}
    (h : s.current a = .ok acc) :
    CodeNotFound codes a s ↔ acc.codeSize ≠ 0 ∧ codes.get acc.keccakCodeHash = none := by
  obtain ⟨s', hret, _⟩ := withAcc_returns h fun acc => (acc.keccakCodeHash, acc.codeSize)
  have hread : (Action.mapError (Fault.map CodeError.state)
      (withAcc a fun acc => .ok ((acc.keccakCodeHash, acc.codeSize), acc, false))) s =
        (.ok (acc.keccakCodeHash, acc.codeSize), s') := by
    unfold Action.Returns at hret
    simp only [Action.mapError, hret]
    rfl
  unfold CodeNotFound Action.Stops getCode
  simp only [Action.bind_apply, hread]
  by_cases hsize : acc.codeSize = 0
  · rw [if_pos hsize]
    simp [hsize, pure]
  · rw [if_neg hsize]
    cases codes.get acc.keccakCodeHash with
    | none => simpa [Action.lift] using hsize
    | some code => simp [pure]

end ZkTrieState

section Loaded

variable {D ε : Type} [RawTrie D ε] [Debug ε] [TrieHash] [KeccakHash] {codeAt : SH160 → Bytes}
  {traces : List Trace}

theorem requestedCodes_get_isSome {addrs : List SH160} (h : codeAddresses traces = some addrs)
    (codeHash : SH256) : ((requestedCodes codeAt addrs).get codeHash).isSome = true ↔
      ∃ t ∈ traces, ∃ n a, Asks t n ∧ Loads n a ∧ KeccakHash.hash (codeAt a) = codeHash := by
  unfold requestedCodes
  rw [addCodes_get_isSome]
  constructor
  · rintro (hnil | ⟨code, hcode, hhash⟩)
    · cases hnil
    · obtain ⟨a, ha, rfl⟩ := List.mem_map.mp hcode
      obtain ⟨t, ht, n, hn, hload⟩ := (mem_codeAddresses h a).mp ha
      exact ⟨t, ht, n, a, hn, hload, hhash⟩
  · rintro ⟨t, ht, n, a, hn, hload, hhash⟩
    refine Or.inr ⟨codeAt a, ?_, hhash⟩
    exact List.mem_map_of_mem ((mem_codeAddresses h a).mpr ⟨t, ht, n, hn, hload⟩)

/-- A covered block finds the code of each account it has a trace of, where the node answers with
the code the account is bound to. -/
theorem CoveredByReads.found (h : CoveredByReads traces)
    (hkeys : ∀ t ∈ traces, t.location = [] → t.key.length = 20) {t : Trace} (ht : t ∈ traces)
    (hloc : t.location = []) (hcenter : t.keyRange.center ≠ none) {a : SH160}
    (ha : SH160.copyFromSlice t.key = some a) {s : ZkTrieState D} {acc : ZkStateAccount}
    (hacc : s.current a = .ok acc) (hcode : KeccakHash.hash (codeAt a) = acc.keccakCodeHash) :
    ∃ addrs, codeAddresses traces = some addrs ∧
      ¬ ZkTrieState.CodeNotFound (requestedCodes codeAt addrs) a s := by
  obtain ⟨addrs, a', haddrs, ha', hmem⟩ := (requestsAll_iff hkeys).mpr h t ht hloc hcenter
  obtain rfl := Option.some.inj (ha.symm.trans ha')
  refine ⟨addrs, haddrs, ?_⟩
  rw [ZkTrieState.codeNotFound_iff hacc]
  rintro ⟨_, hnone⟩
  obtain ⟨r, hr, n, hn, hload⟩ := (mem_codeAddresses haddrs a).mp hmem
  have hsome := (requestedCodes_get_isSome haddrs acc.keccakCodeHash).mpr
    ⟨r, hr, n, a, hn, hload, hcode⟩
  rw [hnone] at hsome
  cases hsome

/-- What `read_value` gives is the centre of the key range but for a trace that overwrites a value;
the addresses of a block's account-trie traces are all requested exactly when each has the key of a
read that finds a value; and the code of such an account is missing exactly when it has one and no
address read has a code of its hash. -/
theorem codes_loaded_iff (codeAt : SH160 → Bytes)
    (hkeys : ∀ t ∈ traces, t.location = [] → t.key.length = 20) :
    (∀ t : Trace, t.readValue = t.centerValue ↔ ¬ t.Overwrites) ∧
      (RequestsAll traces ↔ CoveredByReads traces) ∧
      ∀ addrs, codeAddresses traces = some addrs → ∀ t ∈ traces, t.location = [] →
        ∀ leaf a acc, t.keyRange.center = some leaf → SH160.copyFromSlice t.key = some a →
        ZkStateAccount.fromBytes leaf.leafValue = some acc → ∀ s : ZkTrieState D, s.current a = .ok acc →
        (¬ ZkTrieState.CodeNotFound (requestedCodes codeAt addrs) a s ↔
          acc.codeSize = 0 ∨ ∃ r ∈ traces, ∃ n b, Asks r n ∧ SH160.copyFromSlice n.key = some b ∧
            KeccakHash.hash (codeAt b) = acc.keccakCodeHash) := by
  refine ⟨Trace.readValue_eq_centerValue_iff, requestsAll_iff hkeys, ?_⟩
  intro addrs haddrs t _ _ leaf a acc _ _ _ s hacc
  have hnone : (requestedCodes codeAt addrs).get acc.keccakCodeHash = none ↔
      ¬ ∃ r ∈ traces, ∃ n b, Asks r n ∧ Loads n b ∧ KeccakHash.hash (codeAt b) = acc.keccakCodeHash := by
    rw [← requestedCodes_get_isSome haddrs]
    simp
  rw [ZkTrieState.codeNotFound_iff hacc, hnone, not_and_or, not_not, not_not]
  apply or_congr_right
  constructor
  · rintro ⟨r, hr, n, b, hn, hload, hhash⟩
    exact ⟨r, hr, n, b, hn, hload.2, hhash⟩
  · rintro ⟨r, hr, n, b, hn, hb, hhash⟩
    obtain ⟨b', hload⟩ := (collected_of_foldlM haddrs).loads r hr n hn
    exact ⟨r, hr, n, b, hn, ⟨hload.1, hb⟩, hhash⟩

end Loaded

namespace AccountTrace

def key : Bytes := List.replicate 20 1

def account : ZkStateAccount := ⟨1, 0, 0, 0, 7, 3⟩

def leaf : LeafOpening := ⟨0, 1, 0, 0⟩

def read : Trace := .read ⟨[], 3, 0, leaf, ⟨2, []⟩, key, account.layout⟩

def update : Trace := .update ⟨[], 3, 0, 0, ⟨2, []⟩, key, account.layout, [], leaf⟩

def state [TrieHash] [KeccakHash] : ZkTrieState Versions where
  db := ⟨[]⟩
  accCache := ⟨ZkTrie.new 0, fun _ => some account, []⟩

end AccountTrace

theorem codes_loaded_sample :
    letI := residueHash
    letI : KeccakHash := ⟨fun _ => 7⟩
    RequestsAll [AccountTrace.update, AccountTrace.read] ∧
      ∀ addrs, codeAddresses [AccountTrace.update, AccountTrace.read] = some addrs →
        ¬ ZkTrieState.CodeNotFound (requestedCodes (fun _ => [0, 0, 0]) addrs)
          (BitVec.ofNat 160 (BigEndian.decode AccountTrace.key)) AccountTrace.state := by
  let := residueHash
  let : KeccakHash := ⟨fun _ => 7⟩
  have hasks : Asks AccountTrace.read ⟨[], 3, 0, AccountTrace.leaf, ⟨2, []⟩, AccountTrace.key,
      AccountTrace.account.layout⟩ := ⟨rfl, rfl, by decide⟩
  have hkeys : ∀ t ∈ [AccountTrace.update, AccountTrace.read], t.location = [] → t.key.length = 20 := by
    simp [AccountTrace.update, AccountTrace.read, Trace.key, AccountTrace.key]
  obtain ⟨_, hrequests, hfound⟩ := codes_loaded_iff (D := Versions) (fun _ => [0, 0, 0]) hkeys
  refine ⟨hrequests.mpr ⟨?_, ?_⟩, ?_⟩
  · intro t ht _ _
    refine ⟨AccountTrace.read, by simp, _, hasks, ?_⟩
    rcases List.mem_pair.mp ht with rfl | rfl <;> rfl
  · intro t ht n hn
    rcases List.mem_pair.mp ht with rfl | rfl
    · cases hn.read
    · obtain rfl := Trace.read.inj hn.read
      rw [ZkStateAccount.fromBytes_layout]
      rfl
  · intro addrs haddrs
    apply (hfound addrs haddrs AccountTrace.read (by simp) rfl _ _ AccountTrace.account rfl rfl
      (ZkStateAccount.fromBytes_layout _) AccountTrace.state rfl).mpr
    exact Or.inr ⟨AccountTrace.read, by simp, _, _, hasks, rfl, rfl⟩

/-- The code of an account that the block only updates is not requested, and not found. -/
theorem updated_code_not_found :
    letI := residueHash
    letI : KeccakHash := ⟨fun _ => 7⟩
    AccountTrace.update.readValue ≠ AccountTrace.update.centerValue ∧
      codeAddresses [AccountTrace.update] = some [] ∧ ¬ RequestsAll [AccountTrace.update] ∧
      ZkTrieState.CodeNotFound (requestedCodes (fun _ => [0, 0, 0]) [])
        (BitVec.ofNat 160 (BigEndian.decode AccountTrace.key)) AccountTrace.state := by
  let := residueHash
  let : KeccakHash := ⟨fun _ => 7⟩
  have hnone : codeAddresses [AccountTrace.update] = some [] := rfl
  refine ⟨by decide, hnone, ?_, ?_⟩
  · intro h
    obtain ⟨addrs, a, haddrs, _, hmem⟩ := h AccountTrace.update (by simp) rfl (Option.some_ne_none _)
    obtain rfl := Option.some.inj (hnone.symm.trans haddrs)
    cases hmem
  · have hcurrent : AccountTrace.state.current (BitVec.ofNat 160 (BigEndian.decode AccountTrace.key)) =
        .ok AccountTrace.account := rfl
    rw [ZkTrieState.codeNotFound_iff hcurrent]
    exact ⟨by decide, rfl⟩

end LineaSgxProver.Linea
