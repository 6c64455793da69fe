import LineaSgxProver.Linea.Account
import LineaSgxProver.Linea.TrieCache
import LineaSgxProver.Zktrie.Trace

namespace LineaSgxProver.Linea

open Library Zktrie

abbrev SH160 := BitVec 160

def SH160.bytes (a : SH160) : Bytes := BigEndian.encode 20 a.toNat

theorem SH160.bytes_injective {a b : SH160} (h : SH160.bytes a = SH160.bytes b) : a = b := by
  apply BitVec.eq_of_toNat_eq
  exact BigEndian.encode_injective 20 (by simpa using a.isLt) (by simpa using b.isLt) h

/-- The calls of `zktrie::ZkTrie` that the state makes. -/
class RawTrie (D : Type) (ε : outParam Type) where
  read : Bytes → Session D → Except (Fault ε) (Option Bytes)
  put : Bytes → Bytes → Action (Session D) (Fault ε) Unit
  remove : Bytes → Action (Session D) (Fault ε) Unit

instance [TrieHash] [Profile] {D : Type} [Database D] : RawTrie D Error where
  read := Zktrie.ZkTrie.read
  put := Zktrie.ZkTrie.put LeafOpening.parse
  remove := Zktrie.ZkTrie.remove LeafOpening.parse

/-- `base::format::debug`. -/
class Debug (ε : Type) where
  debug : ε → String

structure ZkTrie (D : Type) where
  raw : SpareMerkleTrie

namespace ZkTrie

def new {D : Type} (root : SH256) : ZkTrie D := ⟨⟨root⟩⟩

section Calls

variable {D ε : Type} [RawTrie D ε] [Debug ε] [TrieHash] [KeccakHash]

def get (t : ZkTrie D) (key : Bytes) : Action D (Fault String) Bytes := fun db =>
  (((RawTrie.read key ⟨t.raw, db⟩).map (·.getD [])).mapError (Fault.map Debug.debug), db)

/-- One turn of the loop of `update`: an account is decoded to be logged, and an error is unwrapped. -/
def write (item data : Bytes) : Action (Session D) (Fault ε) TrieUpdate := do
  let _ ← Action.lift (if data.length = 192 then (orPanic (ZkStateAccount.fromBytes data)).map some
    else .ok none)
  if data.length = 0 then RawTrie.remove item else RawTrie.put item data
  pure .success

def writes : List (Bytes × Bytes) → Action (Session D) (Fault ε) (List TrieUpdate)
  | [] => pure []
  | (item, data) :: updates => do
    let result ← write item data
    let results ← writes updates
    pure (result :: results)

def sortUpdates (updates : List (Bytes × Bytes)) : List (Bytes × Bytes) :=
  updates.mergeSort fun a b => decide (b.1 ≤ a.1)

def update (updates : List (Bytes × Bytes)) : ZkTrie D × D → Option (List TrieUpdate) × ZkTrie D × D :=
  fun (t, db) =>
    let (results, s) := writes (sortUpdates updates) ⟨t.raw, db⟩
    (results.toOption, ⟨s.trie⟩, s.db)

instance : Trie (ZkTrie D) D where
  rootHash t := t.raw.rootHash
  get := get
  update := update
  newRoot _ root := new root

end Calls

end ZkTrie

instance : CacheKey SH160 := ⟨SH160.bytes⟩

instance [TrieHash] [KeccakHash] : CacheValueEnc ZkStateAccount where
  default := ZkStateAccount.default
  encode := ZkStateAccount.encode
  decode := ZkStateAccount.decode

inductive StateError where
  | withKey (err : String)
  deriving DecidableEq, Repr

/-- The storages of the source are not touched by the calls on accounts. -/
structure ZkTrieState (D : Type) where
  db : D
  accCache : TrieCache (ZkTrie D) SH160 ZkStateAccount

abbrev StateCall (D α : Type) := Action (ZkTrieState D) (Fault StateError) α

namespace ZkTrieState

variable {D ε : Type} [RawTrie D ε] [Debug ε] [TrieHash] [KeccakHash]

def newFromTrace [Profile] (db : D) (t : Trace) : Option (ZkTrieState D) :=
  t.oldState.map fun (nextFreeNode, subRoot) =>
    ⟨db, TrieCache.new (ZkTrie.new (Node.topNode nextFreeNode subRoot).hash)⟩

def withAcc {O : Type} (address : SH160)
    (f : ZkStateAccount → Except (Fault String) (O × ZkStateAccount × Bool)) : StateCall D O :=
  Action.mapError (Fault.map StateError.withKey)
    (Action.zoom (fun s => (s.accCache, s.db)) (fun (c, db) _ => ⟨db, c⟩) (TrieCache.withKey address f))

def addBalance (address : SH160) (val : SU256) : StateCall D Unit :=
  withAcc address fun acc => do
    let balance ← orPanic (SU256.add acc.balance val)
    .ok ((), { acc with balance := balance }, true)

def subBalance (address : SH160) (val : SU256) : StateCall D Unit :=
  withAcc address fun acc => do
    let balance ← orPanic (SU256.sub acc.balance val)
    .ok ((), { acc with balance := balance }, true)

def setNonce (address : SH160) (val : SU256) : StateCall D Unit :=
  withAcc address fun acc => do
    let nonce ← orPanic (SU256.asU64 val)
    .ok ((), acc.setNonce nonce)

def getBalance (address : SH160) : StateCall D SU256 :=
  withAcc address fun acc => .ok (acc.balance, acc, false)

def getNonce (address : SH160) : StateCall D UInt64 :=
  withAcc address fun acc => .ok (acc.nonce, acc, false)

def getAccountBasic (address : SH160) : StateCall D (SU256 × UInt64) :=
  withAcc address fun acc => .ok ((acc.balance, acc.nonce), acc, false)

def exist (address : SH160) : StateCall D Bool :=
  withAcc address fun acc => .ok (acc.isExist, acc, false)

/-- The nodes reported as missing are only logged. -/
def flush : StateCall D SH256 := fun s =>
  match TrieCache.flush (s.accCache, s.db) with
  | (.error .panic, c, db) => (.error .panic, ⟨db, c⟩)
  | (_, c, db) => (.ok c.rootHash, ⟨db, c⟩)

def revert (root : SH256) : StateCall D Bool := fun s =>
  let (changed, c) := s.accCache.revert root
  (.ok changed, { s with accCache := c })

end ZkTrieState

end LineaSgxProver.Linea
