import LineaSgxProver.Zktrie.SparseMerkleTrie
import LineaSgxProver.Zktrie.Storage

namespace LineaSgxProver.Zktrie.ZkTrie

open Library

section Read

variable [TrieHash] [Profile] {D : Type} [Database D]

abbrev topRootHash (s : Session D) : SH256 := s.trie.rootHash

abbrev subRootHash (s : Session D) : Except (Fault Error) SH256 := SpareMerkleTrie.subRootHash s

abbrev nextFreeNode (s : Session D) : Except (Fault Error) UInt64 := SpareMerkleTrie.nextFreeNode s

def nearestKeys (hkey : SH256) (s : Session D) : Except (Fault Error) KeyRange :=
  orPanic (Database.getNearestKeys s.db (topRootHash s) hkey)

def updateIndex (k : SH256) (v : FlattenedLeaf) : Call (Session D) Unit :=
  onDb (Action.update (Database.updateIndex k v))

def removeIndex (k : SH256) : Call (Session D) Unit :=
  onDb (Action.update (Database.removeIndex k))

def incrementNextFreeLeafNodeIndex : Call (Session D) UInt64 := do
  let foundFreeNode ← Action.read nextFreeNode
  let nextFreeNode ← Action.lift (orPanic (addU64 foundFreeNode 1))
  SpareMerkleTrie.setNextFreeNode nextFreeNode
  pure nextFreeNode

def setHeadAndTail : Call (Session D) Unit := do
  let index ← Action.read nextFreeNode
  let headPath ← Action.lift (orPanic (getLeafPath index))
  SpareMerkleTrie.put headPath LeafOpening.head.toBytes
  updateIndex LeafOpening.head.hkey FlattenedLeaf.head
  let _ ← incrementNextFreeLeafNodeIndex
  let tailIndex ← Action.read nextFreeNode
  updateIndex LeafOpening.tail.hkey FlattenedLeaf.tail
  let tailPath ← Action.lift (orPanic (getLeafPath tailIndex))
  SpareMerkleTrie.put tailPath LeafOpening.tail.toBytes
  let _ ← incrementNextFreeLeafNodeIndex
  pure ()

def empty (db : D) : Except (Fault Error) Unit × Session D :=
  setHeadAndTail ⟨⟨initWorldState.1.hash⟩, db⟩

def read (key : Bytes) (s : Session D) : Except (Fault Error) (Option Bytes) := do
  let hkey ← trieHash key
  let nearestKeys ← nearestKeys hkey s
  match nearestKeys.center with
  | some leaf => .ok (some leaf.leafValue)
  | none => .ok none

end Read

section Write

variable [TrieHash] [Profile] {D : Type} [Database D]

-- the leaf decoder: `LeafOpening.parse` in the code
variable (parse : Bytes → Option LeafOpening)

def parseNode (key : Bytes) (s : Session D) : Except (Fault Error) LeafOpening := do
  match ← SpareMerkleTrie.getNode key s with
  | some node =>
    match node.raw.value with
    | some data => orPanic (parse data)
    | none => .error (.error (.zkTrieParseNodeFail key node.raw.ty))
  | none => .error (.error (.zkTrieKeyNotFound key))

/-- A leaf is read at the current root, changed and written back. -/
def rewriteLeaf (path : Bytes) (change : LeafOpening → LeafOpening) : Call (Session D) Unit := do
  let prior ← Action.read (parseNode parse path)
  SpareMerkleTrie.put path (change prior).toBytes

def remove (key : Bytes) : Call (Session D) Unit := do
  let hkey ← Action.lift (trieHash key)
  let nearestKey ← Action.read (nearestKeys hkey)
  match nearestKey.center with
  | some currentFlatLeafValue => do
    let leftLeafPath ← Action.lift (orPanic nearestKey.leftPath)
    let rightLeafPath ← Action.lift (orPanic nearestKey.rightPath)
    rewriteLeaf parse leftLeafPath (·.newNextLeaf nearestKey.rightIndex)
    let leafPathToDelete ← Action.lift (orPanic (getLeafPath currentFlatLeafValue.leafIndex))
    let _ ← Action.read (parseNode parse leafPathToDelete)
    removeIndex hkey
    SpareMerkleTrie.remove leafPathToDelete
    rewriteLeaf parse rightLeafPath (·.newPrevLeaf nearestKey.leftIndex)
  | none => pure ()

def insertLeaf (hkey : SH256) (nearestKeys : KeyRange) (value : Bytes) : Call (Session D) Unit := do
  let leftLeafPath ← Action.lift (orPanic nearestKeys.leftPath)
  let rightLeafPath ← Action.lift (orPanic nearestKeys.rightPath)
  let nextFreeNode ← Action.read nextFreeNode
  rewriteLeaf parse leftLeafPath (·.newNextLeaf nextFreeNode)
  let leafPathToAdd ← Action.lift (orPanic (getLeafPath nextFreeNode))
  let hval ← Action.lift (trieHash value)
  updateIndex hkey ⟨nextFreeNode, value⟩
  SpareMerkleTrie.put leafPathToAdd
    (LeafOpening.new nearestKeys.leftIndex nearestKeys.rightIndex hkey hval).toBytes
  rewriteLeaf parse rightLeafPath (·.newPrevLeaf nextFreeNode)
  let _ ← incrementNextFreeLeafNodeIndex
  pure ()

def updateLeaf (hkey : SH256) (current : FlattenedLeaf) (value : Bytes) : Call (Session D) Unit := do
  let leafPathToUpdate ← Action.lift (orPanic current.leafPath)
  let hval ← Action.lift (trieHash value)
  updateIndex hkey ⟨current.leafIndex, value⟩
  rewriteLeaf parse leafPathToUpdate (·.newHval hval)

def put (key value : Bytes) : Call (Session D) Unit := do
  let hkey ← Action.lift (trieHash key)
  let nearestKeys ← Action.read (nearestKeys hkey)
  let _ ← Action.read subRootHash
  match nearestKeys.center with
  | none => insertLeaf parse hkey nearestKeys value
  | some currentFlatLeafValue => updateLeaf parse hkey currentFlatLeafValue value
  let _ ← Action.read subRootHash
  pure ()

end Write

end LineaSgxProver.Zktrie.ZkTrie
