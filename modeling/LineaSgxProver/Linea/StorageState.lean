import LineaSgxProver.Library.Simulation
import LineaSgxProver.Linea.AccountCodes
import LineaSgxProver.Linea.StorageValue

namespace LineaSgxProver.Linea

open Library Zktrie

namespace TrieCache

variable {T K V D O : Type} [Trie T D] [DecidableEq K] [LE K] [DecidableLE K] [CacheKey K] [CacheValueEnc V]

def isDirty (c : TrieCache T K V) (k : K) : Bool := decide (k ∈ c.dirty)

/-- What the trie holds for a key. -/
def fetch (raw : T) (db : D) (k : K) : Except (Fault String) V :=
  (Trie.get raw (CacheKey.bytes k) db).1 >>= load

/-- What a call finds for a key: the cached value, or else what the trie holds. -/
def value (c : TrieCache T K V) (db : D) (k : K) : Except (Fault String) V :=
  match c.cache k with
  | some v => .ok v
  | none => fetch c.raw db k

end TrieCache

/-- A trie cache without its cache: what calls find for each key, and the keys to be written. -/
structure Values (K V : Type) where
  values : K → Except (Fault String) V
  dirty : List K

section Values

variable {T K V D O : Type} [Trie T D] [DecidableEq K] [LE K] [DecidableLE K] [CacheKey K] [CacheValueEnc V]

def Values.withKey (k : K) (f : V → Except (Fault String) (O × V × Bool)) :
    Action (Values K V) (Fault String) O := fun p =>
  match p.values k with
  | .error e => (.error e, p)
  | .ok v =>
    match f v with
    | .error e => (.error e, p)
    | .ok (out, v', dirty) =>
      (.ok out, ⟨Function.update p.values k (.ok v'),
        if dirty then TrieCache.insertDirty k p.dirty else p.dirty⟩)

namespace TrieCache

/-- Calls over the cache and the trie below it find these values. -/
structure Shows (raw : T) (db : D) (s : TrieCache T K V × D) (p : Values K V) : Prop where
  sameDb : s.2 = db
  sameRaw : s.1.raw = raw
  values : s.1.value db = p.values
  dirty : s.1.dirty = p.dirty

variable {raw : T} {db : D} {c : TrieCache T K V} {p : Values K V} {k : K} {v : V}
  {f : V → Except (Fault String) (O × V × Bool)}

omit [LE K] [DecidableLE K] in
theorem value_update (c : TrieCache T K V) (db : D) (k : K) (v : V) (dirty : List K) :
    value ⟨c.raw, Function.update c.cache k (some v), dirty⟩ db = Function.update (c.value db) k (.ok v) := by
  funext j
  rw [value]
  by_cases h : j = k
  · simp [h]
  · simp only [Function.update_of_ne h]
    rfl

omit [LE K] [DecidableLE K] in
theorem Shows.remember (h : Shows raw db (c, db) p) (hv : p.values k = .ok v) :
    Shows raw db ({ c with cache := Function.update c.cache k (some v) }, db) p where
  sameDb := rfl
  sameRaw := h.sameRaw
  values := by
    rw [value_update, h.values, ← hv, Function.update_eq_self]
  dirty := h.dirty

theorem Shows.visit (h : Shows raw db (c, db) p) (hv : p.values k = .ok v) :
    (TrieCache.visit k f v c db).1 = (Values.withKey k f p).1 ∧
      Shows raw db (TrieCache.visit k f v c db).2 (Values.withKey k f p).2 := by
  rcases hf : f v with e | ⟨out, v', dirty⟩
  · simp only [TrieCache.visit, Values.withKey, hv, hf]
    exact ⟨trivial, h⟩
  · simp only [TrieCache.visit, Values.withKey, hv, hf]
    refine ⟨trivial, rfl, h.sameRaw, ?_, congrArg (fun d => if dirty then insertDirty k d else d) h.dirty⟩
    rw [← h.values]
    exact value_update c db k v' _

/-- The cache is not seen by calls, where a read leaves the database as it is. -/
theorem withKey_simulates (hget : ∀ key, (Trie.get raw key db).2 = db) :
    Action.Simulates (Shows raw db) (TrieCache.withKey k f) (Values.withKey k f) := by
  rintro ⟨c, db⟩ p h
  obtain rfl := h.sameDb
  have hvalue : p.values k = c.value db k := by rw [← h.values]
  cases hc : c.cache k with
  | some v =>
    have hv : p.values k = .ok v := by rw [hvalue, value, hc]
    have hkey : TrieCache.withKey k f (c, db) = TrieCache.visit k f v c db := by rw [TrieCache.withKey, hc]
    rw [hkey]
    exact h.visit hv
  | none =>
    have hdb := hget (CacheKey.bytes k)
    rcases hread : Trie.get raw (CacheKey.bytes k) db with ⟨r, db'⟩
    rw [hread] at hdb
    obtain rfl : db' = db := hdb
    have hfetch : p.values k = r >>= load := by rw [hvalue, value, hc, fetch, h.sameRaw, hread]
    have hraw : c.raw = raw := h.sameRaw
    rcases hr : (r >>= load : Except (Fault String) V) with e | v
    · have hkey : TrieCache.withKey k f (c, db') = (.error e, c, db') := by
        rcases r with e' | data
        · cases hr
          simp only [TrieCache.withKey, hc, hraw, hread]
        · have hload : (load data : Except (Fault String) V) = .error e := hr
          simp only [TrieCache.withKey, hc, hraw, hread, hload]
      rw [hkey, Values.withKey, hfetch, hr]
      exact ⟨rfl, h⟩
    · obtain ⟨data, rfl, hload⟩ := bind_eq_ok.mp hr
      have hkey : TrieCache.withKey k f (c, db') =
          TrieCache.visit k f v { c with cache := Function.update c.cache k (some v) } db' := by
        simp only [TrieCache.withKey, hc, hraw, hread, hload]
      have hv := hfetch.trans hr
      rw [hkey]
      exact (h.remember hv).visit hv

end TrieCache

end Values

/-- The `rlp` crate that storage values are coded with. -/
class RlpCrate where
  rlp : Rlp

instance : CacheKey SH256 := ⟨SH256.bytes⟩

instance [RlpCrate] : CacheValueEnc SH256 where
  default := 0
  encode := StorageValue.encode RlpCrate.rlp
  decode := StorageValue.decode RlpCrate.rlp

/-- The source's state, its storages included. -/
structure StorageState (D : Type) where
  state : ZkTrieState D
  storages : SH160 → Option (TrieCache (ZkTrie D) SH256 SH256)

inductive StateDbCall where
  | access (address : SH160) (op : AccountOp)
  | exist (address : SH160)
  | getState (address : SH160) (index : SH256)
  | getCode (address : SH160)

inductive StateDbOutput where
  | account (out : StateOutput)
  | exist (exists_ : Bool)
  | value (value : SH256)
  | code (code : Bytes)
  deriving DecidableEq

section Calls

variable {D ε O : Type} [RawTrie D ε] [Debug ε] [TrieHash] [KeccakHash] [RlpCrate]

namespace StorageState

def onState {φ : Type} (x : Action (ZkTrieState D) φ O) : Action (StorageState D) φ O :=
  Action.zoom StorageState.state (fun state s => { s with state := state }) x

/-- The entry of `storages`, at the account's root. -/
def storageAt (address : SH160) (root : SH256) (s : StorageState D) : TrieCache (ZkTrie D) SH256 SH256 :=
  let storage := match s.storages address with
    | some storage => storage
    | none => TrieCache.new (Trie.newRoot s.state.accCache.raw root)
  if storage.rootHash ≠ root then (storage.revert root).2 else storage

def withSlot (address : SH160) (root index : SH256) (f : SH256 → Except (Fault String) (O × SH256 × Bool)) :
    Action (StorageState D) (Fault StateError) O := fun s =>
  let (out, storage, db) := TrieCache.withKey index f (s.storageAt address root, s.state.db)
  (out.mapError (Fault.map StateError.withKey),
    ⟨{ s.state with db := db }, Function.update s.storages address (some storage)⟩)

def slotIsDirty (address : SH160) (index : SH256) (s : StorageState D) : Bool :=
  match s.storages address with
  | some storage => storage.isDirty index
  | none => false

def withStorage (address : SH160) (index : SH256)
    (f : SH256 → Except (Fault String) (O × SH256 × Bool)) : Action (StorageState D) (Fault StateError) O := do
  let root ← onState (ZkTrieState.withAcc address fun acc => .ok (acc.root, acc, false))
  let out ← withSlot address root index f
  let dirty ← Action.read fun s => .ok (s.slotIsDirty address index)
  if dirty then onState (ZkTrieState.withAcc address fun acc => .ok ((), acc, true))
  pure out

def getState (address : SH160) (index : SH256) : Action (StorageState D) (Fault StateError) SH256 :=
  withStorage address index fun val => .ok (val, val, false)

end StorageState

def StateDbCall.run (codes : Codes) : StateDbCall → Action (StorageState D) (Fault CodeError) StateDbOutput
  | access address op =>
    .account <$> Action.mapError (Fault.map CodeError.state) (StorageState.onState (op.run address))
  | exist address =>
    .exist <$> Action.mapError (Fault.map CodeError.state) (StorageState.onState (ZkTrieState.exist address))
  | getState address index =>
    .value <$> Action.mapError (Fault.map CodeError.state) (StorageState.getState address index)
  | getCode address => .code <$> StorageState.onState (ZkTrieState.getCode codes address)

end Calls

/-- The state without its caches: the accounts, and what the storage trie of each root holds. -/
structure PlainState where
  accounts : Values SH160 ZkStateAccount
  slots : SH256 → SH256 → Except (Fault String) SH256

namespace PlainState

variable {O : Type} [TrieHash] [KeccakHash]

def withAcc (address : SH160) (f : ZkStateAccount → Except (Fault String) (O × ZkStateAccount × Bool)) :
    Action PlainState (Fault StateError) O :=
  Action.mapError (Fault.map StateError.withKey)
    (Action.zoom PlainState.accounts (fun accounts s => { s with accounts := accounts })
      (Values.withKey address f))

/-- The account that the call answers from, and the one it leaves. -/
def access (address : SH160) (op : AccountOp) : Action PlainState (Fault StateError) StateOutput :=
  withAcc address fun acc =>
    match op.effect acc with
    | none => .error .panic
    | some (out, none) => .ok (out, acc, false)
    | some (out, some acc') => .ok (out, acc', true)

def exist (address : SH160) : Action PlainState (Fault StateError) Bool :=
  withAcc address fun acc => .ok (acc.isExist, acc, false)

def getState (address : SH160) (index : SH256) : Action PlainState (Fault StateError) SH256 := do
  let root ← withAcc address fun acc => .ok (acc.root, acc, false)
  Action.read fun s => (s.slots root index).mapError (Fault.map StateError.withKey)

def getCode (codes : Codes) (address : SH160) : Action PlainState (Fault CodeError) Bytes := do
  let (codeHash, codeSize) ← Action.mapError (Fault.map CodeError.state)
    (withAcc address fun acc => .ok ((acc.keccakCodeHash, acc.codeSize), acc, false))
  if codeSize = 0 then pure []
  else
    match codes.get codeHash with
    | some code => pure code
    | none => Action.lift (.error (.error (.codeNotFound codeHash)))

end PlainState

def StateDbCall.plain [TrieHash] [KeccakHash] (codes : Codes) :
    StateDbCall → Action PlainState (Fault CodeError) StateDbOutput
  | access address op => .account <$> Action.mapError (Fault.map CodeError.state) (PlainState.access address op)
  | exist address => .exist <$> Action.mapError (Fault.map CodeError.state) (PlainState.exist address)
  | getState address index =>
    .value <$> Action.mapError (Fault.map CodeError.state) (PlainState.getState address index)
  | getCode address => .code <$> PlainState.getCode codes address

end LineaSgxProver.Linea
