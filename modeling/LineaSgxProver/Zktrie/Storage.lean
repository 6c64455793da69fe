import LineaSgxProver.Zktrie.Trace

namespace LineaSgxProver.Zktrie

open Library

/-- A map as the list of its insertions, newest first: what is overwritten stays on record. -/
abbrev BTreeMap (κ ν : Type) := List (κ × ν)

namespace BTreeMap

variable {κ ν : Type} [DecidableEq κ]

def get (m : BTreeMap κ ν) (k : κ) : Option ν := m.lookup k

def insert (m : BTreeMap κ ν) (k : κ) (v : ν) : BTreeMap κ ν := (k, v) :: m

def remove (m : BTreeMap κ ν) (k : κ) : BTreeMap κ ν := m.filter (·.1 ≠ k)

end BTreeMap

section

variable [TrieHash]

abbrev NodeMap := BTreeMap SH256 Node

def initWorldState : Node × NodeMap :=
  let leaf := Node.emptyLeaf
  let (node, emptyNodes) := (List.range zkTrieDepth).foldl
    (fun (node, emptyNodes) _ =>
      let node := Node.branch node.hash node.hash
      (node, emptyNodes.insert node.hash node))
    (leaf, BTreeMap.insert [] leaf.hash leaf)
  let node := Node.branch 0 node.hash
  (node, emptyNodes.insert node.hash node)

def emptyTrieNode : NodeMap := initWorldState.2

structure LevelMap where
  vals : BTreeMap SH256 (BTreeMap (UInt64 × SH256) KeyRange)

structure MemStore where
  nodes : NodeMap
  index : LevelMap
  staging : BTreeMap SH256 FlattenedLeaf

namespace LevelMap

variable [Profile]

def addTrace (base : LevelMap) (trace : Trace) : Except (Fault Error) LevelMap := do
  let topHash ← orPanic trace.oldTopHash
  let rootMap := (base.vals.get topHash).getD []
  let hkey ← trieHash trace.key
  .ok ⟨base.vals.insert topHash (rootMap.insert (UInt64.ofNat (2 ^ 64 - 1), hkey) trace.keyRange)⟩

def fromTraces (traces : List Trace) : Except (Fault Error) LevelMap :=
  if traces = [] then .error .panic else traces.foldlM addTrace ⟨[]⟩

end LevelMap

def addNodes (nodes : NodeMap) (new : List Node) : NodeMap :=
  new.foldl (fun nodes node => nodes.insert node.hash node) nodes

def addTraceNodes [Profile] (n : NodeMap) (trace : Trace) : Option NodeMap := do
  let (nextFreeNode, subRoot) ← trace.oldState
  let nextFreeNode := Node.nextFreeNode nextFreeNode
  let root := Node.rawBranch nextFreeNode.hash subRoot
  let nodes ← trace.nodes
  some (addNodes ((n.insert root.hash root).insert nextFreeNode.hash nextFreeNode) nodes)

def traceNodes [Profile] (traces : List Trace) : Option NodeMap := traces.foldlM addTraceNodes []

namespace MemStore

def new : MemStore := ⟨[], ⟨[]⟩, []⟩

def fromTraces [Profile] (traces : List Trace) : Except (Fault Error) MemStore := do
  let nodes ← orPanic (traceNodes traces)
  let index ← LevelMap.fromTraces traces
  .ok ⟨nodes, index, []⟩

def siblingValue (triePath : Bytes) (idx : ℕ) (siblingBytes : Bytes) : Except (Fault Error) NodeValue :=
  if idx = zkTrieDepth then
    .ok (NodeValue.parseLeaf (triePath.drop (triePath.length - 1)) siblingBytes)
  else
    match NodeValue.parseBranch siblingBytes with
    | some v => .ok v
    | none => .error (.error (.invalidBranchNode siblingBytes))

def proofLoop (triePath : Bytes) : List Bytes → SH256 → List Node → Except (Fault Error) (SH256 × List Node)
  | [], leafHash, out => .ok (leafHash, out)
  | siblingBytes :: rest, leafHash, out => do
    let idx := rest.length + 1
    let value ← siblingValue triePath idx siblingBytes
    let sibling ← orPanic (Node.new value)
    let bit ← orPanic triePath[idx]?
    let leaf := Node.rawBranchAuto bit leafHash sibling.hash
    proofLoop triePath rest leaf.hash (out ++ [sibling, leaf])

/-- The checks of `add_proof`: the proof's root and the nodes it adds, in order. -/
def checkProof [Profile] (leafIndex : UInt64) (siblings : List Bytes) :
    Except (Fault Error) (SH256 × List Node) := do
  let triePath ← orPanic (getLeafPath leafIndex)
  if siblings.length ≠ triePath.length then .error .panic
  let rootBytes := siblings.headD []
  let leafValue := siblings.getLastD []
  match NodeValue.parseBranch rootBytes with
  | none => .error (.error (.invalidBranchNode rootBytes))
  | some rootValue =>
    let root ← orPanic (Node.new rootValue)
    let leaf ← orPanic (Node.new (.parseLeaf (triePath.drop (triePath.length - 1)) leafValue))
    let (leafHash, out) ← proofLoop triePath siblings.dropLast.tail.reverse leaf.hash []
    let branch ← orPanic root.raw.branch?
    if leafHash ≠ branch.right then .error (.error .invalidProof)
    .ok (root.hash, out ++ [root])

def addProof [Profile] (pfx leafIndex : UInt64) (hkey : SH256) (value : Option Bytes)
    (siblings : List Bytes) : Call MemStore SH256 := do
  let (rootHash, out) ← Action.lift (checkProof leafIndex siblings)
  Action.update fun s => { s with nodes := addNodes s.nodes out }
  let rootMap ← Action.read fun s => .ok ((s.index.vals.get rootHash).getD [])
  match rootMap.get (pfx, hkey) with
  | some _ => Action.update fun s => { s with index := ⟨s.index.vals.insert rootHash rootMap⟩ }
  | none => do
    -- `or_insert_with` has already made the root's entry when `value.unwrap()` panics
    Action.update fun s => { s with index := ⟨s.index.vals.insert rootHash rootMap⟩ }
    let value ← Action.lift (orPanic value)
    let range : KeyRange := ⟨0, some ⟨leafIndex, value⟩, 0⟩
    Action.update fun s =>
      { s with index := ⟨s.index.vals.insert rootHash (rootMap.insert (pfx, hkey) range)⟩ }
  pure rootHash

def getNode (s : MemStore) (key : SH256) : Except (Fault Error) (Option Node) :=
  match emptyTrieNode.get key with
  | some n => .ok (some n)
  | none => .ok (s.nodes.get key)

def updateNode (key : SH256) (node : Node) : Call MemStore Node :=
  fun s => (.ok node, { s with nodes := s.nodes.insert key node })

def updateIndex (k : SH256) (v : FlattenedLeaf) (s : MemStore) : MemStore :=
  { s with staging := s.staging.insert k v }

def getNearestKeys (s : MemStore) (pfx : UInt64) (root k : SH256) : Option KeyRange :=
  match s.index.vals.get root with
  | some map =>
    match map.get (pfx, k) with
    | some r => some r
    | none => none
  | none => none

def removeIndex (k : SH256) (s : MemStore) : MemStore := { s with staging := s.staging.remove k }

end MemStore

structure PrefixDB where
  pfx : UInt64
  raw : MemStore

instance : Database PrefixDB where
  getNode db key := db.raw.getNode key
  updateNode key node := Action.zoom PrefixDB.raw (fun raw db => { db with raw := raw })
    (MemStore.updateNode key node)
  getNearestKeys db root k := db.raw.getNearestKeys db.pfx root k
  updateIndex k v db := { db with raw := db.raw.updateIndex k v }
  removeIndex k db := { db with raw := db.raw.removeIndex k }

end

end LineaSgxProver.Zktrie
