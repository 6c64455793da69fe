import LineaSgxProver.Linea.StorageState
import LineaSgxProver.Zktrie.ReadSoundness

namespace LineaSgxProver.Linea

open Library Zktrie

section Accounts

variable {D ε O : Type} [RawTrie D ε] [Debug ε] [TrieHash] [KeccakHash] {db : D} {root : SH256}

def ZkTrieState.Shows (db : D) (root : SH256) (s : ZkTrieState D) (p : Values SH160 ZkStateAccount) : Prop :=
  TrieCache.Shows (ZkTrie.new root) db (s.accCache, s.db) p

theorem ZkTrieState.withAcc_simulates (a : SH160)
    (f : ZkStateAccount → Except (Fault String) (O × ZkStateAccount × Bool)) :
    Action.Simulates (ZkTrieState.Shows db root) (ZkTrieState.withAcc a f)
      (Action.mapError (Fault.map StateError.withKey) (Values.withKey a f)) := by
  apply Action.Simulates.mapError
  intro s p h
  exact TrieCache.withKey_simulates (fun _ => rfl) (s.accCache, s.db) p h

end Accounts

section Storages

variable {D ε O : Type} [RawTrie D ε] [Debug ε] [TrieHash] [KeccakHash] [RlpCrate]
  {db : D} {root : SH256}

namespace StorageState

/-- The state finds these accounts, and every storage cache what the trie of its root holds. -/
structure Shows (db : D) (root : SH256) (s : StorageState D) (p : PlainState) : Prop where
  accounts : ZkTrieState.Shows db root s.state p.accounts
  slots : ∀ r, p.slots r = TrieCache.fetch (ZkTrie.new r : ZkTrie D) db
  storages : ∀ a c, s.storages a = some c → c.dirty = [] ∧ c.value db = TrieCache.fetch c.raw db

theorem onState_simulates {φ : Type} {x : Action (ZkTrieState D) φ O}
    {y : Action (Values SH160 ZkStateAccount) φ O} (h : Action.Simulates (ZkTrieState.Shows db root) x y) :
    Action.Simulates (Shows db root) (onState x)
      (Action.zoom PlainState.accounts (fun accounts s => { s with accounts := accounts }) y) := by
  apply Action.Simulates.zoom _ _ h
  · intro s p hs
    exact hs.accounts
  · intro s p state accounts hs haccounts
    exact ⟨haccounts, hs.slots, hs.storages⟩

omit [TrieHash] [KeccakHash] [RlpCrate] in
theorem onState_bind {φ α β : Type} (x : Action (ZkTrieState D) φ α) (f : α → Action (ZkTrieState D) φ β) :
    onState (x >>= f) = onState x >>= fun a => onState (f a) := by
  apply Action.zoom_bind
  · intro _ _
    rfl
  · intro _ _ _
    rfl

theorem withAcc_simulates (a : SH160) (f : ZkStateAccount → Except (Fault String) (O × ZkStateAccount × Bool)) :
    Action.Simulates (Shows db root) (onState (ZkTrieState.withAcc a f)) (PlainState.withAcc a f) :=
  onState_simulates (ZkTrieState.withAcc_simulates a f)

variable {s : StorageState D} {p : PlainState} {a : SH160} {r i : SH256}

/-- The entry is at the account's root, whatever root it was at before. -/
theorem Shows.storageAt (h : Shows db root s p) (a : SH160) (r : SH256) :
    TrieCache.Shows (ZkTrie.new r) db (s.storageAt a r, db) ⟨p.slots r, []⟩ := by
  have hnew : TrieCache.Shows (ZkTrie.new r) db
      ((TrieCache.new (ZkTrie.new r) : TrieCache (ZkTrie D) SH256 SH256), db) ⟨p.slots r, []⟩ := ⟨rfl, rfl, (h.slots r).symm, rfl⟩
  rw [StorageState.storageAt]
  cases hc : s.storages a with
  | none =>
    have hroot :
        (TrieCache.new (Trie.newRoot s.state.accCache.raw r) : TrieCache (ZkTrie D) SH256 SH256).rootHash = r := rfl
    simp only [hroot, ne_eq, not_true_eq_false, if_false]
    exact hnew
  | some c =>
    obtain ⟨hdirty, hvalue⟩ := h.storages a c hc
    by_cases hroot : c.rootHash = r
    · have hraw : c.raw = ZkTrie.new r := congrArg ZkTrie.new hroot
      simp only [hroot, ne_eq, not_true_eq_false, if_false]
      refine ⟨rfl, hraw, ?_, hdirty⟩
      rw [hvalue, h.slots r, hraw]
    · have hrevert : (c.revert r).2 = TrieCache.new (ZkTrie.new r) := by
        rw [TrieCache.revert, if_neg (fun hand => hroot hand.1)]
        rfl
      simp only [hroot, ne_eq, not_false_eq_true, if_true, hrevert]
      exact hnew

omit [RawTrie D ε] [Debug ε] [TrieHash] [KeccakHash] [RlpCrate] in
theorem withKey_reads {K V : Type} [DecidableEq K] [LE K] [DecidableLE K] (k : K) (p : Values K V) :
    Values.withKey k (fun v => .ok (v, v, false)) p = (p.values k, p) := by
  rw [Values.withKey]
  cases hv : p.values k with
  | error e => rfl
  | ok v =>
    have hself : Function.update p.values k (.ok v) = p.values := by rw [← hv, Function.update_eq_self]
    simp only [hself]
    rfl

theorem withSlot_simulates (a : SH160) (r i : SH256) :
    Action.Simulates (Shows db root) (withSlot a r i fun val => .ok (val, val, false))
      (Action.read fun p => (p.slots r i).mapError (Fault.map StateError.withKey)) := by
  intro s p h
  have hdb : s.state.db = db := h.accounts.sameDb
  obtain ⟨hret, hcache⟩ := TrieCache.withKey_simulates (fun _ => rfl) _ _ (h.storageAt a r)
    (k := i) (f := fun val => .ok (val, val, false))
  rw [withKey_reads] at hret hcache
  rw [withSlot, hdb]
  rcases hkey : TrieCache.withKey i (fun val => .ok (val, val, false)) (s.storageAt a r, db) with ⟨out, c, db'⟩
  rw [hkey] at hret hcache
  obtain rfl : db' = db := hcache.sameDb
  refine ⟨congrArg (Except.mapError (Fault.map StateError.withKey)) hret, ?_, h.slots, ?_⟩
  · exact ⟨rfl, h.accounts.sameRaw, h.accounts.values, h.accounts.dirty⟩
  · intro b c' hc'
    change Function.update s.storages a (some c) b = some c' at hc'
    by_cases hb : b = a
    · subst hb
      rw [Function.update_self] at hc'
      obtain rfl : c = c' := Option.some.inj hc'
      refine ⟨hcache.dirty, ?_⟩
      rw [hcache.values, h.slots, hcache.sameRaw]
    · rw [Function.update_of_ne hb] at hc'
      exact h.storages b c' hc'

theorem Shows.slotIsDirty (h : Shows db root s p) (a : SH160) (i : SH256) : s.slotIsDirty a i = false := by
  rw [StorageState.slotIsDirty]
  cases hc : s.storages a with
  | none => rfl
  | some c =>
    have hdirty := (h.storages a c hc).1
    simp [TrieCache.isDirty, hdirty]

theorem getState_simulates (a : SH160) (i : SH256) :
    Action.Simulates (Shows db root) (getState a i) (PlainState.getState a i) := by
  apply Action.Simulates.bind (withAcc_simulates a _)
  intro r s p h
  obtain ⟨hret, hstate⟩ := withSlot_simulates a r i s p h
  rcases hslot : withSlot a r i (fun val => .ok (val, val, false)) s with ⟨e | val, s'⟩
  · rw [hslot] at hret hstate
    simp only [Action.bind_apply, hslot]
    exact ⟨hret, hstate⟩
  · rw [hslot] at hret hstate
    -- no storage cache is ever dirty: the account is not marked
    simp only [Action.bind_apply, hslot, Action.read, hstate.slotIsDirty]
    exact ⟨hret, hstate⟩

end StorageState

end Storages

section Calls

variable {D ε : Type} [RawTrie D ε] [Debug ε] [TrieHash] [KeccakHash] [RlpCrate] {db : D} {root : SH256}

theorem getCode_simulates (codes : Codes) (a : SH160) :
    Action.Simulates (StorageState.Shows db root)
      (StorageState.onState (ZkTrieState.getCode codes a) : Action (StorageState D) _ _)
      (PlainState.getCode codes a) := by
  rw [ZkTrieState.getCode, StorageState.onState_bind]
  apply Action.Simulates.bind ((StorageState.withAcc_simulates a _).mapError _)
  rintro ⟨codeHash, codeSize⟩ s p h
  by_cases hsize : codeSize = 0
  · simp only [if_pos hsize]
    exact ⟨rfl, h⟩
  · simp only [if_neg hsize]
    cases codes.get codeHash with
    | none => exact ⟨rfl, h⟩
    | some code => exact ⟨rfl, h⟩

theorem access_simulates (a : SH160) (op : AccountOp) :
    Action.Simulates (StorageState.Shows db root)
      (StorageState.onState (op.run a) : Action (StorageState D) _ _) (PlainState.access a op) := by
  obtain ⟨O, g, f, hrun, hf⟩ := op.exists_closure (D := D) a
  have hplain : PlainState.access a op = g <$> PlainState.withAcc a f := by
    funext p
    rw [Action.map_apply]
    simp only [PlainState.access, PlainState.withAcc, Action.mapError, Action.zoom, Values.withKey]
    cases p.accounts.values a with
    | error e => rfl
    | ok acc =>
      have hacc := hf acc
      rcases he : op.effect acc with _ | ⟨out, _ | acc'⟩
      · rw [he] at hacc
        simp only [he, hacc]
        rfl
      · rw [he] at hacc
        obtain ⟨o, ho, rfl⟩ := hacc
        simp only [he, ho]
        rfl
      · rw [he] at hacc
        obtain ⟨o, ho, rfl⟩ := hacc
        simp only [he, ho]
        rfl
  rw [hrun, hplain, StorageState.onState, Action.zoom_map]
  exact (StorageState.withAcc_simulates a f).map g

theorem StateDbCall.simulates (codes : Codes) (call : StateDbCall) :
    Action.Simulates (StorageState.Shows db root) (call.run codes : Action (StorageState D) _ _)
      (call.plain codes) := by
  cases call with
  | access a op => exact ((access_simulates a op).mapError _).map _
  | exist a => exact ((StorageState.withAcc_simulates a _).mapError _).map _
  | getState a i => exact ((StorageState.getState_simulates a i).mapError _).map _
  | getCode a => exact (getCode_simulates codes a).map _

/-- The tries that the roots name in a database. -/
def PlainState.ofTries (db : D) (root : SH256) : PlainState :=
  ⟨⟨TrieCache.fetch (ZkTrie.new root : ZkTrie D) db, []⟩, fun r => TrieCache.fetch (ZkTrie.new r : ZkTrie D) db⟩

def StorageState.fresh (db : D) (root : SH256) : StorageState D :=
  ⟨⟨db, TrieCache.new (ZkTrie.new root)⟩, fun _ => none⟩

theorem StorageState.fresh_shows (db : D) (root : SH256) :
    Shows db root (fresh db root) (PlainState.ofTries db root) where
  accounts := ⟨rfl, rfl, rfl, rfl⟩
  slots := fun _ => rfl
  storages := by
    intro a c hc
    cases hc

/-- Every run of calls between two flushes answers as the tries without caches do: it writes nothing
to the database, the accounts to be written are those the calls changed, and no storage is. -/
theorem StateDbCall.runAll_uncached (codes : Codes) (calls : List StateDbCall) (db : D) (root : SH256) :
    let s := Action.runAll (StateDbCall.run codes) calls (StorageState.fresh db root)
    let p := Action.runAll (StateDbCall.plain codes) calls (PlainState.ofTries db root)
    s.1 = p.1 ∧ s.2.state.db = db ∧ s.2.state.accCache.dirty = p.2.accounts.dirty ∧
      ∀ a i, s.2.slotIsDirty a i = false := by
  obtain ⟨houts, hshows⟩ := Action.Simulates.runAll (StateDbCall.simulates codes) calls
    (StorageState.fresh_shows db root)
  exact ⟨houts, hshows.accounts.sameDb, hshows.accounts.dirty, hshows.slotIsDirty⟩

end Calls

section Records

variable [TrieHash] [Profile] {traces : List Trace} {proofs : List ProofCall} {store : MemStore}

/-- What the block's traces and account proofs say of a key, in the trie with a given root. -/
def Record.answer (traces : List Trace) (proofs : List ProofCall) (root : SH256) (key : Bytes) :
    Except (Fault Error) Bytes := do
  let hkey ← trieHash key
  let record ← orPanic (Record.supplied (UInt64.ofNat (2 ^ 64 - 1)) traces proofs root hkey)
  .ok ((record.keyRange.center.map FlattenedLeaf.leafValue).getD [])

theorem read_answer (hbuilt : Built traces proofs store) (root : SH256) (key : Bytes) :
    (Zktrie.ZkTrie.read key (⟨⟨root⟩, ⟨UInt64.ofNat (2 ^ 64 - 1), store⟩⟩ : Session PrefixDB)).map (·.getD []) =
      Record.answer traces proofs root key := by
  rw [Zktrie.ZkTrie.read, Record.answer]
  cases hhash : trieHash key with
  | error e => rfl
  | ok hkey =>
    have hnear : Database.getNearestKeys (⟨UInt64.ofNat (2 ^ 64 - 1), store⟩ : PrefixDB) root hkey =
        (Record.supplied (UInt64.ofNat (2 ^ 64 - 1)) traces proofs root hkey).map Record.keyRange := by
      rw [← hbuilt.lookup]
      exact getNearestKeys_eq _ root hkey
    have hkeys : Zktrie.ZkTrie.nearestKeys hkey (⟨⟨root⟩, ⟨UInt64.ofNat (2 ^ 64 - 1), store⟩⟩ : Session PrefixDB) =
        orPanic ((Record.supplied (UInt64.ofNat (2 ^ 64 - 1)) traces proofs root hkey).map Record.keyRange) :=
      congrArg orPanic hnear
    rw [ok_bind, ok_bind, hkeys]
    cases Record.supplied (UInt64.ofNat (2 ^ 64 - 1)) traces proofs root hkey with
    | none => rfl
    | some record =>
      simp only [Option.map_some, orPanic_some, ok_bind]
      cases record.keyRange.center <;> rfl

end Records

section Traced

variable [TrieHash] [Profile] [KeccakHash] [RlpCrate] [Debug Error]

/-- The block's traces and account proofs read as a state. -/
def PlainState.ofRecords (traces : List Trace) (proofs : List ProofCall) (root : SH256) : PlainState :=
  let answer (root : SH256) (key : Bytes) := (Record.answer traces proofs root key).mapError (Fault.map Debug.debug)
  ⟨⟨fun a => answer root (SH160.bytes a) >>= TrieCache.load, []⟩,
    fun r i => answer r (SH256.bytes i) >>= TrieCache.load⟩

variable {traces : List Trace} {proofs : List ProofCall} {store : MemStore}

theorem ofTries_eq_ofRecords (hbuilt : Built traces proofs store) (root : SH256) :
    PlainState.ofTries (⟨UInt64.ofNat (2 ^ 64 - 1), store⟩ : PrefixDB) root =
      PlainState.ofRecords traces proofs root := by
  have hfetch {K V : Type} [CacheKey K] [CacheValueEnc V] (r : SH256) (k : K) :
      (TrieCache.fetch (ZkTrie.new r : ZkTrie PrefixDB) ⟨UInt64.ofNat (2 ^ 64 - 1), store⟩ k :
          Except (Fault String) V) =
        (Record.answer traces proofs r (CacheKey.bytes k)).mapError (Fault.map Debug.debug) >>= TrieCache.load := by
    rw [← read_answer hbuilt]
    rfl
  rw [PlainState.ofTries, PlainState.ofRecords]
  congr 1
  · congr 1
    funext a
    exact hfetch root a
  · funext r i
    exact hfetch r i

/-- Over the store that was built from the block's traces and account proofs, every call is answered
from the trace, or else the proof, that was recorded for the key at the root in question. -/
theorem StateDbCall.runAll_traced (hbuilt : Built traces proofs store) {t : Trace} {state : ZkTrieState PrefixDB}
    (hstate : ZkTrieState.newFromTrace ⟨UInt64.ofNat (2 ^ 64 - 1), store⟩ t = some state) (codes : Codes) :
    ∃ root, t.oldTopHash = some root ∧ ∀ calls : List StateDbCall,
      (Action.runAll (StateDbCall.run codes) calls ⟨state, fun _ => none⟩).1 =
        (Action.runAll (StateDbCall.plain codes) calls (PlainState.ofRecords traces proofs root)).1 := by
  obtain ⟨⟨nextFreeNode, subRoot⟩, hold, rfl⟩ := Option.map_eq_some_iff.mp hstate
  refine ⟨(Node.topNode nextFreeNode subRoot).hash, ?_, ?_⟩
  · rw [Trace.oldTopHash, Trace.oldTopNode, hold]
    rfl
  · intro calls
    rw [← ofTries_eq_ofRecords hbuilt]
    exact (Action.Simulates.runAll (StateDbCall.simulates codes) calls (StorageState.fresh_shows _ _)).1

end Traced

end LineaSgxProver.Linea
