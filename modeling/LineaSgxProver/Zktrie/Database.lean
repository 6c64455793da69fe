import LineaSgxProver.Zktrie.Node

namespace LineaSgxProver.Zktrie

open Library

inductive Error [TrieHash] where
  | reachedMaxLevel
  | pathNotAllow
  | inMemNextNodeNotFound
  | nextFreeNodeNotFound
  | nextFreeNodeEmptyValue (node : Node)
  | nodeNotFound (lvl : ℕ) (hash : SH256)
  | zkTrieKeyNotFound (key : Bytes)
  | zkTrieParseNodeFail (key : Bytes) (ty : String)
  | hashFail (msg : String)
  | invalidBranchNode (buf : Bytes)
  | invalidProof
  | rootNodeNotFound (root : SH256)
  | rootNodeExpectToBeBranchNode (node : Node)

structure FlattenedLeaf where
  leafIndex : UInt64
  leafValue : Bytes
  deriving DecidableEq, Repr

structure KeyRange where
  leftIndex : UInt64
  center : Option FlattenedLeaf
  rightIndex : UInt64
  deriving DecidableEq, Repr

namespace FlattenedLeaf

def head : FlattenedLeaf := ⟨0, SH256.bytes LeafOpening.head.hval⟩

def tail : FlattenedLeaf := ⟨1, SH256.bytes LeafOpening.tail.hval⟩

def leafPath [Profile] (l : FlattenedLeaf) : Option Bytes := getLeafPath l.leafIndex

end FlattenedLeaf

namespace KeyRange

def leftPath [Profile] (r : KeyRange) : Option Bytes := getLeafPath r.leftIndex

def rightPath [Profile] (r : KeyRange) : Option Bytes := getLeafPath r.rightIndex

end KeyRange

section

variable [TrieHash]

abbrev Call (σ α : Type) := Action σ (Fault Error) α

def trieHash (data : Bytes) : Except (Fault Error) SH256 :=
  match TrieHash.sum data with
  | .ok h => .ok h
  | .error (.error msg) => .error (.error (.hashFail msg))
  | .error .panic => .error .panic

class Database (D : Type) where
  getNode : D → SH256 → Except (Fault Error) (Option Node)
  updateNode : SH256 → Node → Call D Node
  /-- `none` where the implementation panics. -/
  getNearestKeys : D → SH256 → SH256 → Option KeyRange
  updateIndex : SH256 → FlattenedLeaf → D → D
  removeIndex : SH256 → D → D

end

end LineaSgxProver.Zktrie
