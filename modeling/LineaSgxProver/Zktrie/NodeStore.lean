import LineaSgxProver.Zktrie.SparseMerkleTrie
import LineaSgxProver.Zktrie.Storage

namespace LineaSgxProver.Zktrie

open Library

section Store

variable [TrieHash]

abbrev TreeNode := MerkleTree.Node SH256 LeafValue

def treeDigest (n : TreeNode) : SH256 := (Node.ofTree n).hash

/-- A database that keeps its nodes as `MemStore` does: the table of empty subtrees first, then
a map that only grows. -/
class NodeStore (D : Type) [Database D] where
  nodes : D → NodeMap
  getNode_eq : ∀ (db : D) (key : SH256),
    Database.getNode db key = .ok ((emptyTrieNode ++ nodes db).get key)
  updateNode_eq : ∀ (db : D) (key : SH256) (node : Node),
    ∃ db', Database.updateNode key node db = (.ok node, db') ∧ nodes db' = (key, node) :: nodes db
  nodes_updateIndex : ∀ (db : D) (k : SH256) (v : FlattenedLeaf),
    nodes (Database.updateIndex k v db) = nodes db
  nodes_removeIndex : ∀ (db : D) (k : SH256), nodes (Database.removeIndex k db) = nodes db

theorem MemStore.getNode_eq (s : MemStore) (key : SH256) :
    s.getNode key = .ok ((emptyTrieNode ++ s.nodes).get key) := by
  unfold MemStore.getNode BTreeMap.get
  rw [List.lookup_append]
  cases emptyTrieNode.lookup key <;> rfl

instance : NodeStore PrefixDB where
  nodes db := db.raw.nodes
  getNode_eq db key := db.raw.getNode_eq key
  updateNode_eq db key node := ⟨{ db with raw := { db.raw with nodes := (key, node) :: db.raw.nodes } }, rfl, rfl⟩
  nodes_updateIndex _ _ _ := rfl
  nodes_removeIndex _ _ := rfl

end Store

namespace NodeValue

/-- The shapes of the nodes a trie is made of. -/
def Kinded : NodeValue → Prop
  | branch _ => True
  | leaf node => node.path = [LeafType.value] ∧ node.value.length = 128
  | emptyLeaf => True
  | nextFree node => node.path = [] ∧ node.value.length = 32

def size : NodeValue → ℕ
  | branch _ => 64
  | leaf _ => 128
  | emptyLeaf => 0
  | nextFree _ => 32

theorem toBytes_size {v : NodeValue} (hv : v.Kinded) {b : Bytes} (h : v.toBytes = some b) :
    b.length = v.size := by
  cases v with
  | branch n =>
    rw [← Option.some.inj h]
    simp [size]
  | leaf n =>
    rw [← Option.some.inj h]
    exact hv.2
  | emptyLeaf => cases h
  | nextFree n =>
    rw [← Option.some.inj h]
    exact hv.2

/-- The length of an encoding tells the kinds of the trie apart, so equal encodings are equal nodes. -/
theorem eq_of_toBytes {v w : NodeValue} (hv : v.Kinded) (hw : w.Kinded) {b : Bytes}
    (hvb : v.toBytes = some b) (hwb : w.toBytes = some b) : v = w := by
  have hsize : v.size = w.size := (toBytes_size hv hvb).symm.trans (toBytes_size hw hwb)
  have hb : v.toBytes = w.toBytes := hvb.trans hwb.symm
  cases v <;> cases w <;> simp [size] at hsize
  case emptyLeaf.emptyLeaf => rfl
  case branch.branch n m =>
    obtain ⟨hl, hr⟩ := List.append_inj (Option.some.inj hb) (by simp)
    have hl' := SH256.bytes_injective hl
    have hr' := SH256.bytes_injective hr
    cases n
    cases m
    simp_all
  case leaf.leaf n m =>
    have hp : n.path = m.path := hv.1.trans hw.1.symm
    have hval : n.value = m.value := Option.some.inj hb
    cases n
    cases m
    simp_all
  case nextFree.nextFree n m =>
    have hp : n.path = m.path := hv.1.trans hw.1.symm
    have hval : n.value = m.value := Option.some.inj hb
    cases n
    cases m
    simp_all

end NodeValue

section Sound

variable [TrieHash]

/-- The trie hash separates the encodings of a set, and none of them has the empty leaf's hash. -/
structure CollisionFree (E : Set Bytes) : Prop where
  injective : ∀ x ∈ E, ∀ y ∈ E, ∀ h, TrieHash.sum x = .ok h → TrieHash.sum y = .ok h → x = y
  nonzero : ∀ x ∈ E, TrieHash.sum x ≠ .ok 0

theorem CollisionFree.mono {E F : Set Bytes} (h : CollisionFree F) (hEF : E ⊆ F) :
    CollisionFree E :=
  ⟨fun x hx y hy => h.injective x (hEF hx) y (hEF hy), fun x hx => h.nonzero x (hEF hx)⟩

def encodings (m : NodeMap) : Set Bytes := {b | ∃ e ∈ m, e.2.raw.toBytes = some b}

theorem encodings_mono {m m' : NodeMap} (h : ∀ e ∈ m, e ∈ m') : encodings m ⊆ encodings m' := by
  rintro b ⟨e, he, hb⟩
  exact ⟨e, h e he, hb⟩

def separated (m : NodeMap) : Bool :=
  (m.all fun e => m.all fun e' =>
    !Nat.beq e.2.hash.toNat e'.2.hash.toNat || decide (e.2.raw = e'.2.raw)) &&
  m.all fun e => !Nat.beq e.2.hash.toNat 0 || decide (e.2.raw = .emptyLeaf)

/-- Every entry is a node of the trie, stored under its own hash. -/
def Proper (m : NodeMap) : Prop := ∀ e ∈ m, e.1 = e.2.hash ∧ e.2.raw.Kinded

theorem Node.sum_of_toBytes (n : Node) {b : Bytes} (h : n.raw.toBytes = some b) :
    TrieHash.sum b = .ok n.hash := by
  have hash : (TrieHash.sum b).toOption = some n.hash := by
    have hn := n.hash_raw
    cases hraw : n.raw <;> simp only [hraw, NodeValue.hash] at hn h
    · simpa only [h, Option.bind_some] using hn
    · simpa only [h, Option.bind_some] using hn
    · cases h
    · simpa only [h, Option.bind_some] using hn
  cases hs : TrieHash.sum b with
  | ok x =>
    rw [hs] at hash
    rw [Option.some.inj hash]
  | error e =>
    rw [hs] at hash
    cases hash

theorem collisionFree_of_separated {m : NodeMap} (h : separated m = true) :
    CollisionFree (encodings m) := by
  simp only [separated, Bool.and_eq_true, List.all_eq_true, Bool.or_eq_true, Bool.not_eq_true',
    decide_eq_true_eq] at h
  obtain ⟨hpairs, hzero⟩ := h
  have hash {b : Bytes} {n : Node} {k : SH256} (hb : n.raw.toBytes = some b)
      (hk : TrieHash.sum b = .ok k) : n.hash = k :=
    Except.ok.inj ((n.sum_of_toBytes hb).symm.trans hk)
  constructor
  · rintro x ⟨e, he, hx⟩ y ⟨e', he', hy⟩ k hkx hky
    have heq : e.2.hash = e'.2.hash := (hash hx hkx).trans (hash hy hky).symm
    rcases hpairs e he e' he' with hne | hraw
    · rw [heq, Nat.beq_refl] at hne
      cases hne
    · rw [hraw, hy] at hx
      exact (Option.some.inj hx).symm
  · rintro x ⟨e, he, hx⟩ hk
    have heq : e.2.hash = 0 := hash hx hk
    rcases hzero e he with hne | hraw
    · rw [heq] at hne
      cases hne
    · rw [hraw] at hx
      cases hx

theorem Node.toBytes_eq_none {n : Node} (h : n.raw.toBytes = none) : n = Node.emptyLeaf := by
  apply Node.ext_raw
  cases hraw : n.raw <;> simp [hraw, NodeValue.toBytes] at h
  rfl

theorem Node.unique {E : Set Bytes} (hE : CollisionFree E) {n m : Node} (hn : n.raw.Kinded)
    (hm : m.raw.Kinded) (hnE : ∀ b, n.raw.toBytes = some b → b ∈ E)
    (hmE : ∀ b, m.raw.toBytes = some b → b ∈ E) (h : n.hash = m.hash) : n = m := by
  have hzero : ∀ k : Node, k.hash = 0 → (∀ b, k.raw.toBytes = some b → b ∈ E) →
      k = Node.emptyLeaf := by
    intro k hk hkE
    apply Node.toBytes_eq_none
    by_contra hne
    obtain ⟨b, hb⟩ := Option.ne_none_iff_exists'.mp hne
    exact hE.nonzero b (hkE b hb) (hk ▸ k.sum_of_toBytes hb)
  cases hnb : n.raw.toBytes with
  | none =>
    obtain rfl := Node.toBytes_eq_none hnb
    exact (hzero m h.symm hmE).symm
  | some b =>
    cases hmb : m.raw.toBytes with
    | none =>
      obtain rfl := Node.toBytes_eq_none hmb
      exact hzero n h hnE
    | some c =>
      have hbc : b = c := hE.injective b (hnE b hnb) c (hmE c hmb) n.hash (n.sum_of_toBytes hnb)
        (h ▸ m.sum_of_toBytes hmb)
      subst hbc
      exact Node.ext_raw (NodeValue.eq_of_toBytes hn hm hnb hmb)

theorem mem_of_get {m : NodeMap} {h : SH256} {n : Node} (hget : m.get h = some n) : (h, n) ∈ m := by
  obtain ⟨l₁, l₂, hsplit, _⟩ := List.lookup_eq_some_iff.mp hget
  simp [hsplit]

theorem get_of_mem {E : Set Bytes} (hE : CollisionFree E) {m : NodeMap} (hm : Proper m)
    (hmE : encodings m ⊆ E) {n : Node} (h : (n.hash, n) ∈ m) : m.get n.hash = some n := by
  obtain ⟨n', hget⟩ : ∃ n', m.get n.hash = some n' := by
    apply Option.ne_none_iff_exists'.mp
    intro hnone
    have hne := List.lookup_eq_none_iff.mp hnone _ h
    simp at hne
  have hmem := mem_of_get hget
  have heq : n = n' := Node.unique hE (hm _ h).2 (hm _ hmem).2 (fun b hb => hmE ⟨_, h, hb⟩)
    (fun b hb => hmE ⟨_, hmem, hb⟩) (hm _ hmem).1
  rw [hget, heq]

end Sound

section Tree

variable [TrieHash]

def entry (n : TreeNode) : SH256 × Node := (treeDigest n, Node.ofTree n)

theorem ofTree_kinded (n : TreeNode) : (Node.ofTree n).raw.Kinded := by
  cases n with
  | empty => trivial
  | leaf v => exact ⟨rfl, v.2⟩
  | branch l r => trivial

theorem ofTree_injective {n m : TreeNode} (h : Node.ofTree n = Node.ofTree m) : n = m := by
  have hraw := congrArg Node.raw h
  cases n <;> cases m <;> simp [Node.ofTree, Node.ofLeafValue, Node.ofHashed, Node.branch, Node.emptyLeaf] at hraw
  · rfl
  · rw [Subtype.ext hraw]
  · rw [hraw.1, hraw.2]

def within (E : Set Bytes) : Set TreeNode := {n | ∀ b, (Node.ofTree n).raw.toBytes = some b → b ∈ E}

theorem treeDigest_injOn {E : Set Bytes} (hE : CollisionFree E) : Set.InjOn treeDigest (within E) := by
  intro n hn m hm h
  exact ofTree_injective (Node.unique hE (ofTree_kinded n) (ofTree_kinded m) hn hm h)

def worldTop (n : UInt64) (m : MerkleTree.Leaves LeafValue) : TreeNode :=
  .branch (formatNodeIndex n) (MerkleTree.root treeDigest zkTrieDepth m)

def worldRoot (n : UInt64) (m : MerkleTree.Leaves LeafValue) : SH256 := treeDigest (worldTop n m)

def emptyNodes : ℕ → NodeMap
  | 0 => [entry (MerkleTree.top treeDigest 0 MerkleTree.Leaves.none)]
  | k + 1 => entry (MerkleTree.top treeDigest (k + 1) MerkleTree.Leaves.none) :: emptyNodes k

theorem initWorldState_fold (k : ℕ) :
    (List.range k).foldl
      (fun (p : Node × NodeMap) _ =>
        (Node.branch p.1.hash p.1.hash,
          p.2.insert (Node.branch p.1.hash p.1.hash).hash (Node.branch p.1.hash p.1.hash)))
      (Node.emptyLeaf, BTreeMap.insert [] Node.emptyLeaf.hash Node.emptyLeaf) =
    (Node.ofTree (MerkleTree.top treeDigest k MerkleTree.Leaves.none), emptyNodes k) := by
  induction k with
  | zero => rfl
  | succ k ih =>
    rw [List.range_succ, List.foldl_append, ih]
    rfl

theorem initWorldState_eq :
    initWorldState = (Node.ofTree (worldTop 0 MerkleTree.Leaves.none),
      entry (worldTop 0 MerkleTree.Leaves.none) :: emptyNodes zkTrieDepth) := by
  have h := initWorldState_fold zkTrieDepth
  unfold initWorldState
  simp only [h]
  rfl

theorem emptyNodes_proper (k : ℕ) : Proper (emptyNodes k) := by
  induction k with
  | zero =>
    intro e he
    rw [List.mem_singleton.mp he]
    exact ⟨rfl, ofTree_kinded _⟩
  | succ k ih =>
    intro e he
    rcases List.mem_cons.mp he with rfl | he
    · exact ⟨rfl, ofTree_kinded _⟩
    · exact ih e he

theorem emptyNodes_mem {d k : ℕ} (h : d ≤ k) :
    entry (MerkleTree.top treeDigest d MerkleTree.Leaves.none) ∈ emptyNodes k := by
  induction k with
  | zero =>
    obtain rfl : d = 0 := by omega
    exact List.mem_singleton.mpr rfl
  | succ k ih =>
    by_cases hd : d = k + 1
    · subst hd
      exact List.mem_cons_self ..
    · exact List.mem_cons_of_mem _ (ih (by omega))

theorem emptyTrieNode_proper : Proper emptyTrieNode := by
  rw [emptyTrieNode, initWorldState_eq]
  intro e he
  rcases List.mem_cons.mp he with rfl | he
  · exact ⟨rfl, ofTree_kinded _⟩
  · exact emptyNodes_proper _ e he

theorem empty_mem_emptyTrieNode {d : ℕ} (h : d ≤ zkTrieDepth) :
    entry (MerkleTree.top treeDigest d MerkleTree.Leaves.none) ∈ emptyTrieNode := by
  rw [emptyTrieNode, initWorldState_eq]
  exact List.mem_cons_of_mem _ (emptyNodes_mem h)

theorem init_mem_emptyTrieNode : entry (worldTop 0 MerkleTree.Leaves.none) ∈ emptyTrieNode := by
  rw [emptyTrieNode, initWorldState_eq]
  exact List.mem_cons_self ..

end Tree

end LineaSgxProver.Zktrie
