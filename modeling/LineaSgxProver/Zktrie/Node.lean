import LineaSgxProver.Library.MerkleTree
import LineaSgxProver.Zktrie.Hash
import LineaSgxProver.Zktrie.Utils

namespace LineaSgxProver.Zktrie

open Library

structure BranchNode where
  left : SH256
  right : SH256
  deriving DecidableEq, Repr

namespace BranchNode

def child (n : BranchNode) (idx : UInt8) : Option SH256 :=
  if idx = 0 then some n.left else if idx = 1 then some n.right else none

def newReplace (n : BranchNode) (idx : UInt8) (h : SH256) : BranchNode :=
  ⟨if idx = 0 then h else n.left, if idx = 1 then h else n.right⟩

end BranchNode

structure LeafNode where
  path : Bytes
  value : Bytes
  deriving DecidableEq, Repr

inductive NodeValue where
  | branch (node : BranchNode)
  | leaf (node : LeafNode)
  | emptyLeaf
  | nextFree (node : LeafNode)
  deriving DecidableEq, Repr

namespace NodeValue

def ty : NodeValue → String
  | branch _ => "branch"
  | emptyLeaf => "emptyleaf"
  | leaf _ => "leaf"
  | nextFree _ => "nextfree"

def branch? : NodeValue → Option BranchNode
  | branch node => some node
  | _ => none

def value : NodeValue → Option Bytes
  | branch _ => none
  | emptyLeaf => some []
  | nextFree node => some node.value
  | leaf node => some node.value

def toBytes : NodeValue → Option Bytes
  | branch node => some (SH256.bytes node.left ++ SH256.bytes node.right)
  | leaf node => some node.value
  | nextFree node => some node.value
  | emptyLeaf => none

def parseLeaf (path buf : Bytes) : NodeValue := leaf ⟨path, buf⟩

def parseBranch (buf : Bytes) : Option NodeValue :=
  if buf.length = 64 then
    some (branch ⟨SH256.ofBytes (buf.take 32), SH256.ofBytes (buf.drop 32)⟩)
  else none

def hash [TrieHash] : NodeValue → Option SH256
  | emptyLeaf => some 0
  | v => v.toBytes.bind fun b => (TrieHash.sum b).toOption

end NodeValue

/-- A node is only ever built with the hash of its content. -/
structure Node [TrieHash] where
  raw : NodeValue
  hash : SH256
  hash_raw : raw.hash = some hash

abbrev LeafValue : Type := {v : Bytes // v.length = 128}

section Node

variable [TrieHash]

theorem Node.ext_raw {n m : Node} (h : n.raw = m.raw) : n = m := by
  obtain ⟨v, x, hx⟩ := n
  obtain ⟨w, y, hy⟩ := m
  cases h
  cases Option.some.inj (hx.symm.trans hy)
  rfl

instance : DecidableEq Node := fun n m =>
  decidable_of_iff (n.raw = m.raw) ⟨Node.ext_raw, congrArg _⟩

theorem sum_isSome {b : Bytes} (hne : b ≠ []) (hdvd : 32 ∣ b.length) :
    (TrieHash.sum b).toOption.isSome = true := by
  obtain ⟨h, hh⟩ := isOk_iff.mp (TrieHash.sum_blocks b hne hdvd)
  rw [hh]
  rfl

namespace Node

def new (v : NodeValue) : Option Node :=
  match h : v.hash with
  | some x => some ⟨v, x, h⟩
  | none => none

def ofHashed (v : NodeValue) (h : v.hash.isSome = true) : Node :=
  ⟨v, v.hash.get h, (Option.some_get h).symm⟩

theorem new_ofHashed (v : NodeValue) (h : v.hash.isSome = true) : new v = some (ofHashed v h) := by
  obtain ⟨x, hx⟩ := Option.isSome_iff_exists.mp h
  unfold new
  split
  · exact congrArg some (ext_raw rfl)
  · simp_all

theorem branch_isSome (left right : SH256) : (NodeValue.branch ⟨left, right⟩).hash.isSome = true := by
  apply sum_isSome
  · exact List.ne_nil_of_length_pos (by simp)
  · simp

def branch (left right : SH256) : Node := ofHashed (.branch ⟨left, right⟩) (branch_isSome left right)

def rawBranch (left right : SH256) : Node := branch left right

def rawBranchAuto (path : UInt8) (leaf sibling : SH256) : Node :=
  if path = 0 then rawBranch leaf sibling else rawBranch sibling leaf

def topNode (nextFreeNode : UInt64) (subRoot : SH256) : Node :=
  branch (formatNodeIndex nextFreeNode) subRoot

def leaf (path value : Bytes) : Option Node :=
  if path = [LeafType.nextFreeNode] then new (.nextFree ⟨path, value⟩) else new (.leaf ⟨path, value⟩)

theorem nextFree_isSome (index : UInt64) :
    (NodeValue.nextFree ⟨[], SH256.bytes (formatNodeIndex index)⟩).hash.isSome = true := by
  apply sum_isSome
  · exact List.ne_nil_of_length_pos (by simp)
  · simp

def nextFreeNode (index : UInt64) : Node := ofHashed _ (nextFree_isSome index)

def emptyLeaf : Node := ⟨.emptyLeaf, 0, rfl⟩

theorem leaf_isSome (v : LeafValue) :
    (NodeValue.leaf ⟨[LeafType.value], v.1⟩).hash.isSome = true := by
  have hv : v.1.length = 128 := v.2
  apply sum_isSome
  · exact List.ne_nil_of_length_pos (by rw [hv]; decide)
  · exact ⟨4, hv⟩

def ofLeafValue (v : LeafValue) : Node := ofHashed _ (leaf_isSome v)

theorem leaf_eq (v : LeafValue) : leaf [LeafType.value] v.1 = some (ofLeafValue v) := by
  rw [leaf, if_neg (by decide)]
  exact new_ofHashed _ _

def ofTree : MerkleTree.Node SH256 LeafValue → Node
  | .empty => emptyLeaf
  | .leaf v => ofLeafValue v
  | .branch left right => branch left right

end Node

end Node

structure LeafOpening where
  hkey : SH256
  hval : SH256
  prevLeaf : UInt64
  nextLeaf : UInt64
  deriving DecidableEq, Repr

namespace LeafOpening

def head : LeafOpening := ⟨0, 0, 0, 1⟩

def tail : LeafOpening :=
  ⟨0x12ab655e9a2ca55660b44d1e5c37b00159aa76fed00000010a11800000000000, 0, 0, 1⟩

def new (prevIndex nextIndex : UInt64) (hkey hval : SH256) : LeafOpening :=
  ⟨hkey, hval, prevIndex, nextIndex⟩

def parse (buf : Bytes) : Option LeafOpening := do
  if buf.length < 96 then none
  let hval ← SH256.fromSlice (buf.drop 96)
  let prevLeaf ← SU256.asU64 (SH256.ofBytes (buf.take 32))
  some ⟨SH256.ofBytes ((buf.drop 64).take 32), hval, prevLeaf, prevLeaf⟩

def newHval (l : LeafOpening) (hval : SH256) : LeafOpening := { l with hval := hval }

def newNextLeaf (l : LeafOpening) (nextLeaf : UInt64) : LeafOpening := { l with nextLeaf := nextLeaf }

def newPrevLeaf (l : LeafOpening) (prevLeaf : UInt64) : LeafOpening := { l with prevLeaf := prevLeaf }

def toBytes (l : LeafOpening) : Bytes :=
  BigEndian.encode 32 l.prevLeaf.toNat ++ BigEndian.encode 32 l.nextLeaf.toNat ++
    SH256.bytes l.hkey ++ SH256.bytes l.hval

@[simp] theorem toBytes_length (l : LeafOpening) : l.toBytes.length = 128 := by
  simp [toBytes]

def leafValue (l : LeafOpening) : LeafValue := ⟨l.toBytes, l.toBytes_length⟩

theorem toBytes_injective {l k : LeafOpening} (h : l.toBytes = k.toBytes) : l = k := by
  have hword : ∀ n : UInt64, n.toNat < 256 ^ 32 := fun n => n.toNat_lt.trans (by decide)
  unfold toBytes at h
  obtain ⟨h₃, hval⟩ := List.append_inj' h (by simp)
  obtain ⟨h₂, hkey⟩ := List.append_inj' h₃ (by simp)
  obtain ⟨hprev, hnext⟩ := List.append_inj' h₂ (by simp)
  have hp := UInt64.toNat_inj.mp (BigEndian.encode_injective 32 (hword _) (hword _) hprev)
  have hn := UInt64.toNat_inj.mp (BigEndian.encode_injective 32 (hword _) (hword _) hnext)
  have hk := SH256.bytes_injective hkey
  have hv := SH256.bytes_injective hval
  cases l
  cases k
  simp only at hp hn hk hv
  rw [hp, hn, hk, hv]

end LeafOpening

end LineaSgxProver.Zktrie
