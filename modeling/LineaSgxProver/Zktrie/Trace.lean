import LineaSgxProver.Zktrie.Database

namespace LineaSgxProver.Zktrie

open Library

structure TraceProof where
  leafIndex : UInt64
  siblings : List SH256

structure ReadTrace where
  location : Bytes
  nextFreeNode : UInt64
  subRoot : SH256
  leaf : LeafOpening
  proof : TraceProof
  key : Bytes
  value : Bytes

structure ReadZeroTrace where
  location : Bytes
  nextFreeNode : UInt64
  subRoot : SH256
  leftLeaf : LeafOpening
  rightLeaf : LeafOpening
  leftProof : TraceProof
  rightProof : TraceProof
  key : Bytes

structure InsertionTrace where
  location : Bytes
  newNextFreeNode : UInt64
  oldSubRoot : SH256
  newSubRoot : SH256
  leftProof : TraceProof
  newProof : TraceProof
  rightProof : TraceProof
  key : Bytes
  value : Bytes
  priorLeftLeaf : LeafOpening
  priorRightLeaf : LeafOpening

structure UpdateTrace where
  location : Bytes
  newNextFreeNode : UInt64
  oldSubRoot : SH256
  newSubRoot : SH256
  proof : TraceProof
  key : Bytes
  oldValue : Bytes
  newValue : Bytes
  priorUpdatedLeaf : LeafOpening

structure DeletionTrace where
  location : Bytes
  newNextFreeNode : UInt64
  oldSubRoot : SH256
  newSubRoot : SH256
  leftProof : TraceProof
  deleteProof : TraceProof
  rightProof : TraceProof
  key : Bytes
  deleteValue : Bytes
  priorLeftLeaf : LeafOpening
  priorDeleteLeaf : LeafOpening
  priorRightLeaf : LeafOpening

inductive Trace where
  | read (n : ReadTrace)
  | readZero (n : ReadZeroTrace)
  | insertion (n : InsertionTrace)
  | update (n : UpdateTrace)
  | deletion (n : DeletionTrace)

namespace TraceProof

variable [TrieHash]

def buildLoop (triePath : Bytes) : List SH256 → Node → Option (List Node)
  | [], root => some [root]
  | sibling :: rest, root => do
    let b ← triePath[rest.length + 1]?
    let newRoot := if b = 0 then Node.rawBranch root.hash sibling else Node.rawBranch sibling root.hash
    let above ← buildLoop triePath rest newRoot
    some (root :: above)

def buildNodes [Profile] (proof : TraceProof) (leaf : Option LeafOpening) : Option (List Node) := do
  let triePath ← getLeafPath proof.leafIndex
  let root ← match leaf with
    | some leaf => Node.leaf (triePath.drop (triePath.length - 1)) leaf.toBytes
    | none => some Node.emptyLeaf
  buildLoop triePath proof.siblings root

end TraceProof

namespace Trace

def oldState [Profile] : Trace → Option (UInt64 × SH256)
  | deletion n => some (n.newNextFreeNode, n.oldSubRoot)
  | insertion n => (subU64 n.newNextFreeNode 1).map (·, n.oldSubRoot)
  | read n => some (n.nextFreeNode, n.subRoot)
  | readZero n => some (n.nextFreeNode, n.subRoot)
  | update n => some (n.newNextFreeNode, n.oldSubRoot)

def oldTopNode [TrieHash] [Profile] (t : Trace) : Option Node :=
  t.oldState.map fun (nextFreeNode, subRoot) => Node.topNode nextFreeNode subRoot

def oldTopHash [TrieHash] [Profile] (t : Trace) : Option SH256 := t.oldTopNode.map Node.hash

def key : Trace → Bytes
  | deletion n => n.key
  | insertion n => n.key
  | read n => n.key
  | readZero n => n.key
  | update n => n.key

def keyRange : Trace → KeyRange
  | readZero n => ⟨n.leftProof.leafIndex, none, n.rightProof.leafIndex⟩
  | read n => ⟨n.leaf.prevLeaf, some ⟨n.proof.leafIndex, n.value⟩, n.leaf.nextLeaf⟩
  | update n =>
    ⟨n.priorUpdatedLeaf.prevLeaf, some ⟨n.proof.leafIndex, n.oldValue⟩, n.priorUpdatedLeaf.nextLeaf⟩
  | insertion n => ⟨n.leftProof.leafIndex, none, n.rightProof.leafIndex⟩
  | deletion n =>
    ⟨n.priorDeleteLeaf.prevLeaf, some ⟨n.deleteProof.leafIndex, n.deleteValue⟩,
      n.priorDeleteLeaf.nextLeaf⟩

def nodes [TrieHash] [Profile] : Trace → Option (List Node)
  | update n => n.proof.buildNodes (some n.priorUpdatedLeaf)
  | insertion n => do
    let left ← n.leftProof.buildNodes (some n.priorLeftLeaf)
    let new ← n.newProof.buildNodes none
    let right ← n.rightProof.buildNodes (some n.priorRightLeaf)
    some (left ++ new ++ right)
  | deletion n => do
    let left ← n.leftProof.buildNodes (some n.priorLeftLeaf)
    let deleted ← n.deleteProof.buildNodes (some n.priorDeleteLeaf)
    let right ← n.rightProof.buildNodes (some n.priorRightLeaf)
    some (left ++ deleted ++ right)
  | read _ => some []
  | readZero _ => some []

end Trace

end LineaSgxProver.Zktrie
