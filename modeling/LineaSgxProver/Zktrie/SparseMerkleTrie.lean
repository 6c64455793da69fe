import LineaSgxProver.Zktrie.Database

namespace LineaSgxProver.Zktrie

open Library

structure SpareMerkleTrie where
  rootHash : SH256
  deriving DecidableEq, Repr

structure Session (D : Type) where
  trie : SpareMerkleTrie
  db : D

def onDb {D φ α : Type} (x : Action D φ α) : Action (Session D) φ α :=
  Action.zoom Session.db (fun db s => { s with db := db }) x

namespace SpareMerkleTrie

variable [TrieHash] {D : Type} [Database D]

def setRoot (h : SH256) : Call (Session D) Unit :=
  Action.update fun s => { s with trie := ⟨h⟩ }

def rootNode (s : Session D) : Except (Fault Error) Node := do
  match ← Database.getNode s.db s.trie.rootHash with
  | some node => .ok node
  | none => .error (.error (.rootNodeNotFound s.trie.rootHash))

def rootBranch (s : Session D) : Except (Fault Error) BranchNode := do
  let node ← rootNode s
  match node.raw.branch? with
  | some branch => .ok branch
  | none => .error (.error (.rootNodeExpectToBeBranchNode node))

def subRootHash (s : Session D) : Except (Fault Error) SH256 := do
  let branch ← rootBranch s
  .ok branch.right

def nextFreeNode (s : Session D) : Except (Fault Error) UInt64 := do
  let branch ← rootBranch s
  orPanic (parseNodeIndex (SH256.bytes branch.left))

def setNextFreeNode (free : UInt64) : Call (Session D) Unit := do
  let branch ← Action.read rootBranch
  let root := Node.topNode free branch.right
  let root ← onDb (Database.updateNode root.hash root)
  setRoot root.hash

def dbAdd (node : Node) : Call D Node := Database.updateNode node.hash node

def fetch (lvl : ℕ) (current : SH256) (db : D) : Except (Fault Error) Node := do
  match ← Database.getNode db current with
  | some n => .ok n
  | none => .error (.error (.nodeNotFound lvl current))

/-- `remove_leaf` with the number of levels left: `lvl` is `ZK_TRIE_DEPTH + 2` less that. -/
def removeLeaf (path : Bytes) : ℕ → SH256 → Call D Node
  | 0, _ => Action.lift (.error (.error .reachedMaxLevel))
  | rem + 1, current => do
    let lvl := zkTrieDepth + 1 - rem
    let n ← Action.read (fetch lvl current)
    match n.raw with
    | .branch branch => do
      let idx ← Action.lift (orPanic path[lvl]?)
      let child ← Action.lift (orPanic (branch.child idx))
      let updatedChild ← removeLeaf path rem child
      let replaced := branch.newReplace idx updatedChild.hash
      dbAdd (Node.branch replaced.left replaced.right)
    | .leaf _ => pure Node.emptyLeaf
    | .emptyLeaf => pure Node.emptyLeaf
    | .nextFree _ => pure Node.emptyLeaf

def addLeaf (path value : Bytes) : ℕ → SH256 → Call D Node
  | 0, _ => Action.lift (.error (.error .reachedMaxLevel))
  | rem + 1, current => do
    let lvl := zkTrieDepth + 1 - rem
    let n ← Action.read (fetch lvl current)
    match n.raw with
    | .branch branch => do
      let idx ← Action.lift (orPanic path[lvl]?)
      let child ← Action.lift (orPanic (branch.child idx))
      let updatedChild ← addLeaf path value rem child
      let replaced := branch.newReplace idx updatedChild.hash
      dbAdd (Node.branch replaced.left replaced.right)
    | .leaf leaf =>
      if prefixLen leaf.path (path.drop lvl) = leaf.path.length then do
        let node ← Action.lift (orPanic (Node.leaf (path.drop lvl) value))
        dbAdd node
      else Action.lift (.error (.error .pathNotAllow))
    | .emptyLeaf => do
      let node ← Action.lift (orPanic (Node.leaf (path.drop lvl) value))
      dbAdd node
    | .nextFree node =>
      if prefixLen node.path (path.drop lvl) = node.path.length then do
        let node ← Action.lift (orPanic (Node.leaf (path.drop lvl) value))
        dbAdd node
      else Action.lift (.error .panic)

def put (path value : Bytes) : Call (Session D) Unit := do
  let current ← Action.read fun s => .ok s.trie.rootHash
  let root ← onDb (addLeaf path value (zkTrieDepth + 2) current)
  setRoot root.hash

def remove (path : Bytes) : Call (Session D) Unit := do
  let current ← Action.read fun s => .ok s.trie.rootHash
  let root ← onDb (removeLeaf path (zkTrieDepth + 2) current)
  setRoot root.hash

def getNodeFrom (db : D) (path : Bytes) : ℕ → SH256 → Except (Fault Error) (Option Node)
  | 0, _ => .error (.error .reachedMaxLevel)
  | rem + 1, next => do
    let i := zkTrieDepth + 1 - rem
    let n ← fetch i next db
    match n.raw with
    | .branch node =>
      match path[i]? with
      | some b => getNodeFrom db path rem (if b = 0 then node.left else node.right)
      | none => .error .panic
    | .emptyLeaf => .ok none
    | .leaf node => if node.path = path.drop i then .ok (some n) else .ok none
    | .nextFree node => if node.path = path.drop i then .ok (some n) else .error .panic

def getNode (path : Bytes) (s : Session D) : Except (Fault Error) (Option Node) :=
  getNodeFrom s.db path (zkTrieDepth + 2) s.trie.rootHash

end SpareMerkleTrie

end LineaSgxProver.Zktrie
