import LineaSgxProver.Zktrie.NodeStore

namespace LineaSgxProver.Zktrie

open Library
open MerkleTree (Leaves)

section Known

variable [TrieHash] {D : Type} [Database D] [NodeStore D]

/-- Everything `get_node` can answer from: the table of empty subtrees and the store's own nodes. -/
def known (db : D) : NodeMap := emptyTrieNode ++ NodeStore.nodes db

structure Sound (E : Set Bytes) (db : D) : Prop where
  proper : Proper (known db)
  within : encodings (known db) ⊆ E

def Extends (db db' : D) : Prop := ∃ new, NodeStore.nodes db' = new ++ NodeStore.nodes db

theorem Extends.refl (db : D) : Extends db db := ⟨[], rfl⟩

theorem Extends.trans {db db' db'' : D} (h : Extends db db') (h' : Extends db' db'') :
    Extends db db'' := by
  obtain ⟨new, hnew⟩ := h
  obtain ⟨new', hnew'⟩ := h'
  exact ⟨new' ++ new, by rw [hnew', hnew, List.append_assoc]⟩

theorem Extends.known_subset {db db' : D} (h : Extends db db') {e : SH256 × Node}
    (he : e ∈ known db) : e ∈ known db' := by
  obtain ⟨new, hnew⟩ := h
  rcases List.mem_append.mp he with he | he
  · exact List.mem_append_left _ he
  · apply List.mem_append_right
    rw [hnew]
    exact List.mem_append_right _ he

theorem Extends.encodings_subset {db db' : D} (h : Extends db db') :
    encodings (known db) ⊆ encodings (known db') :=
  encodings_mono fun _ he => h.known_subset he

/-- What a write of the tree leaves behind: its new nodes, in the store's log. -/
def Records (db db' : D) (written : List TreeNode) : Prop :=
  ∃ new : List TreeNode, NodeStore.nodes db' = new.map entry ++ NodeStore.nodes db ∧
    (∀ n ∈ new, n ∈ written) ∧ ∀ n ∈ written, n ∈ new ∨ n = .empty

theorem Records.trans {db db' db'' : D} {t t' : List TreeNode} (h : Records db db' t)
    (h' : Records db' db'' t') : Records db db'' (t' ++ t) := by
  obtain ⟨new, hnew, hsub, hall⟩ := h
  obtain ⟨new', hnew', hsub', hall'⟩ := h'
  refine ⟨new' ++ new, ?_, ?_, ?_⟩
  · rw [hnew', hnew, List.map_append, List.append_assoc]
  · intro n hn
    rcases List.mem_append.mp hn with hn | hn
    · exact List.mem_append_left _ (hsub' n hn)
    · exact List.mem_append_right _ (hsub n hn)
  · intro n hn
    rcases List.mem_append.mp hn with hn | hn
    · exact (hall' n hn).imp_left (List.mem_append_left _)
    · exact (hall n hn).imp_left (List.mem_append_right _)

theorem Records.extends {db db' : D} {t : List TreeNode} (h : Records db db' t) : Extends db db' := by
  obtain ⟨new, hnew, _⟩ := h
  exact ⟨_, hnew⟩

theorem empty_mem_known (db : D) : entry .empty ∈ known db :=
  List.mem_append_left _ (empty_mem_emptyTrieNode (Nat.zero_le _))

theorem Records.mem_known {db db' : D} {t : List TreeNode} (h : Records db db' t) {n : TreeNode}
    (hn : n ∈ t) : entry n ∈ known db' := by
  obtain ⟨new, hnew, _, hall⟩ := h
  rcases hall n hn with hn | rfl
  · apply List.mem_append_right
    rw [hnew]
    exact List.mem_append_left _ (List.mem_map_of_mem hn)
  · exact empty_mem_known db'

theorem Records.proper {db db' : D} {t : List TreeNode} (h : Records db db' t)
    (hdb : Proper (known db)) : Proper (known db') := by
  obtain ⟨new, hnew, _⟩ := h
  intro e he
  rcases List.mem_append.mp he with he | he
  · exact emptyTrieNode_proper e he
  rw [hnew] at he
  rcases List.mem_append.mp he with he | he
  · obtain ⟨n, _, rfl⟩ := List.mem_map.mp he
    exact ⟨rfl, ofTree_kinded n⟩
  · exact hdb e (List.mem_append_right _ he)

theorem Records.sound {E : Set Bytes} {db db' : D} {t : List TreeNode} (h : Records db db' t)
    (hdb : Sound E db) (hE : encodings (known db') ⊆ E) : Sound E db' :=
  ⟨h.proper hdb.proper, hE⟩

theorem rootBranch_eq_ok {s : Session D} {branch : BranchNode} :
    SpareMerkleTrie.rootBranch s = .ok branch ↔
      ∃ k, (known s.db).get s.trie.rootHash = some k ∧ k.raw.branch? = some branch := by
  have hnode : Database.getNode s.db s.trie.rootHash = .ok ((known s.db).get s.trie.rootHash) :=
    NodeStore.getNode_eq _ _
  unfold SpareMerkleTrie.rootBranch SpareMerkleTrie.rootNode
  rw [hnode]
  cases (known s.db).get s.trie.rootHash with
  | none =>
    constructor
    · intro h
      cases h
    · rintro ⟨_, ⟨⟩, _⟩
  | some k =>
    simp only [ok_bind, Option.some.injEq, exists_eq_left']
    cases k.raw.branch? with
    | none =>
      constructor
      · intro h
        cases h
      · intro h
        cases h
    | some branch' => simp

end Known

namespace SpareMerkleTrie

section Path

def joinNode (b : Bool) (child sibling : SH256) : BranchNode :=
  if b then ⟨sibling, child⟩ else ⟨child, sibling⟩

theorem child_joinNode (b : Bool) (child sibling : SH256) :
    (joinNode b child sibling).child (bitByte b) = some child := by
  cases b <;> rfl

def Remains (path : Bytes) (p : List Bool) : Prop :=
  p.length ≤ zkTrieDepth ∧
    path.drop (zkTrieDepth + 1 - p.length) = p.map bitByte ++ [LeafType.value]

theorem Remains.head {path : Bytes} {b : Bool} {p : List Bool} (h : Remains path (b :: p)) :
    path[zkTrieDepth + 1 - (p.length + 1)]? = some (bitByte b) := by
  have hd := congrArg (·[0]?) h.2
  simpa only [List.getElem?_drop, List.length_cons, List.map_cons, List.cons_append,
    List.getElem?_cons_zero, Nat.add_zero] using hd

theorem Remains.tail {path : Bytes} {b : Bool} {p : List Bool} (h : Remains path (b :: p)) :
    Remains path p := by
  have hlen : p.length + 1 ≤ zkTrieDepth := h.1
  have hd := congrArg (List.drop 1) h.2
  rw [List.drop_drop] at hd
  refine ⟨by omega, ?_⟩
  have hlvl : zkTrieDepth + 1 - p.length = zkTrieDepth + 1 - (b :: p).length + 1 := by
    simp only [List.length_cons]
    omega
  rw [hlvl, hd]
  rfl

theorem remains_leafPath {p : List Bool} (hp : p.length = zkTrieDepth) : Remains (leafPath p) p := by
  refine ⟨hp.le, ?_⟩
  rw [hp]
  rfl

end Path

section Walk

variable [TrieHash] {D : Type} [Database D]

/-- The walk that `add_leaf` and `remove_leaf` share: down to the bottom, then up again with every
branch replaced. -/
def rebuild (path : Bytes) (bottom : ℕ → NodeValue → Call D Node) : ℕ → SH256 → Call D Node
  | 0, _ => Action.lift (.error (.error .reachedMaxLevel))
  | rem + 1, current => do
    let lvl := zkTrieDepth + 1 - rem
    let n ← Action.read (fetch lvl current)
    match n.raw with
    | .branch branch => do
      let idx ← Action.lift (orPanic path[lvl]?)
      let child ← Action.lift (orPanic (branch.child idx))
      let updatedChild ← rebuild path bottom rem child
      let replaced := branch.newReplace idx updatedChild.hash
      dbAdd (Node.branch replaced.left replaced.right)
    | v => bottom lvl v

def addBottom (path value : Bytes) (lvl : ℕ) : NodeValue → Call D Node
  | .leaf leaf =>
    if prefixLen leaf.path (path.drop lvl) = leaf.path.length then do
      let node ← Action.lift (orPanic (Node.leaf (path.drop lvl) value))
      dbAdd node
    else Action.lift (.error (.error .pathNotAllow))
  | .nextFree node =>
    if prefixLen node.path (path.drop lvl) = node.path.length then do
      let node ← Action.lift (orPanic (Node.leaf (path.drop lvl) value))
      dbAdd node
    else Action.lift (.error .panic)
  | _ => do
    let node ← Action.lift (orPanic (Node.leaf (path.drop lvl) value))
    dbAdd node

def removeBottom (_ : ℕ) (_ : NodeValue) : Call D Node := pure Node.emptyLeaf

theorem addLeaf_eq (path value : Bytes) (rem : ℕ) (current : SH256) :
    (addLeaf path value rem current : Call D Node) = rebuild path (addBottom path value) rem current := by
  induction rem generalizing current with
  | zero => rfl
  | succ rem ih =>
    unfold addLeaf rebuild
    refine bind_congr fun n => ?_
    cases n.raw <;> simp only [ih] <;> rfl

theorem removeLeaf_eq (path : Bytes) (rem : ℕ) (current : SH256) :
    (removeLeaf path rem current : Call D Node) = rebuild path removeBottom rem current := by
  induction rem generalizing current with
  | zero => rfl
  | succ rem ih =>
    unfold removeLeaf rebuild
    refine bind_congr fun n => ?_
    cases n.raw <;> simp only [ih] <;> rfl

variable [NodeStore D] {E : Set Bytes}

theorem getNode_known (hE : CollisionFree E) {db : D} (hdb : Sound E db) {n : TreeNode}
    (hn : entry n ∈ known db) : Database.getNode db (treeDigest n) = .ok (some (Node.ofTree n)) := by
  rw [NodeStore.getNode_eq]
  exact congrArg _ (get_of_mem hE hdb.proper hdb.within hn)

theorem fetch_known (hE : CollisionFree E) {db : D} (hdb : Sound E db) {n : TreeNode}
    (hn : entry n ∈ known db) (lvl : ℕ) : fetch lvl (treeDigest n) db = .ok (Node.ofTree n) := by
  unfold fetch
  rw [getNode_known hE hdb hn]
  rfl

theorem dbAdd_returns (db : D) (n : TreeNode) :
    ∃ db', (dbAdd (Node.ofTree n)).Returns db (Node.ofTree n) db' ∧ Records db db' [n] := by
  obtain ⟨db', hret, hnodes⟩ := NodeStore.updateNode_eq db (treeDigest n) (Node.ofTree n)
  exact ⟨db', hret, [n], hnodes, by simp, by simp⟩

theorem ofTree_join (b : Bool) (child sibling : SH256) :
    (Node.ofTree (MerkleTree.join b child sibling)).raw = .branch (joinNode b child sibling) := by
  cases b <;> rfl

theorem branch_newReplace (b : Bool) (child sibling h : SH256) :
    Node.branch ((joinNode b child sibling).newReplace (bitByte b) h).left
      ((joinNode b child sibling).newReplace (bitByte b) h).right =
      Node.ofTree (MerkleTree.join b h sibling) := by
  cases b <;> rfl


def Sets (bottom : ℕ → NodeValue → Call D Node) (v : Option LeafValue) : Prop :=
  ∀ (w : Option LeafValue) (db : D), ∃ db',
    (bottom (zkTrieDepth + 1) (Node.ofTree (MerkleTree.bottom w)).raw).Returns db
        (Node.ofTree (MerkleTree.bottom v)) db' ∧
      Records db db' [MerkleTree.bottom v]

theorem addBottom_sets {path : Bytes} (hpath : Remains path []) (v : LeafValue) :
    Sets (addBottom path v.1 : ℕ → NodeValue → Call D Node) (some v) := by
  intro w db
  have hdrop : path.drop (zkTrieDepth + 1) = [LeafType.value] := hpath.2
  have hleaf : orPanic (Node.leaf (path.drop (zkTrieDepth + 1)) v.1) =
      (.ok (Node.ofTree (.leaf v)) : Except (Fault Error) Node) := by
    rw [hdrop, Node.leaf_eq]
    rfl
  obtain ⟨db', hadd, hrec⟩ := dbAdd_returns db (.leaf v)
  refine ⟨db', ?_, hrec⟩
  have hwrite : (Action.lift (orPanic (Node.leaf (path.drop (zkTrieDepth + 1)) v.1)) >>= dbAdd :
      Call D Node).Returns db (Node.ofTree (.leaf v)) db' := by
    rw [hleaf]
    exact (Action.Returns.lift _ _).bind hadd
  cases w with
  | none => exact hwrite
  | some w =>
    have hraw : (Node.ofTree (MerkleTree.bottom (some w))).raw =
        .leaf ⟨[LeafType.value], w.1⟩ := rfl
    have hpre : prefixLen [LeafType.value] (path.drop (zkTrieDepth + 1)) = 1 := by
      rw [hdrop]
      rfl
    rw [hraw]
    unfold addBottom
    simp only [hpre, List.length_singleton, ↓reduceIte]
    exact hwrite

theorem removeBottom_sets : Sets (removeBottom : ℕ → NodeValue → Call D Node) none := by
  intro w db
  exact ⟨db, rfl, [], rfl, by simp, by simp [MerkleTree.bottom]⟩

theorem rebuild_returns (hE : CollisionFree E) {path : Bytes}
    {bottom : ℕ → NodeValue → Call D Node} {v : Option LeafValue} (hbottom : Sets bottom v)
    (p : List Bool) (m : Leaves LeafValue) (db : D) (hpath : Remains path p) (hdb : Sound E db)
    (hroute : ∀ n ∈ MerkleTree.route treeDigest p m, entry n ∈ known db) :
    ∃ db', (rebuild path bottom (p.length + 1) (MerkleTree.root treeDigest p.length m)).Returns db
        (Node.ofTree (MerkleTree.top treeDigest p.length (m.set p v))) db' ∧
      Records db db' (MerkleTree.route treeDigest p (m.set p v)) := by
  induction p generalizing m with
  | nil =>
    have hfetch := fetch_known hE hdb (hroute _ (MerkleTree.top_mem_route treeDigest [] m))
      (zkTrieDepth + 1)
    have htop : MerkleTree.top treeDigest 0 (m.set [] v) = MerkleTree.bottom v := by
      change MerkleTree.bottom (m.set [] v []) = _
      rw [MerkleTree.set_same]
    obtain ⟨db', hret, hrec⟩ := hbottom (m []) db
    refine ⟨db', ?_, ?_⟩
    · rw [List.length_nil, htop]
      refine (Action.Returns.read hfetch).bind ?_
      change Action.Returns (match (Node.ofTree (MerkleTree.bottom (m []))).raw with
        | .branch branch => _
        | v => bottom (zkTrieDepth + 1) v) db _ db'
      cases hm : m [] <;> rw [hm] at hret <;> exact hret
    · rw [MerkleTree.route, htop]
      exact hrec
  | cons b p ih =>
    have hfetch := fetch_known hE hdb (hroute _ (MerkleTree.top_mem_route treeDigest (b :: p) m))
      (zkTrieDepth + 1 - (p.length + 1))
    rw [List.length_cons, MerkleTree.top_succ treeDigest _ m b] at hfetch
    obtain ⟨db₁, hbelow, hrec₁⟩ := ih (m.below b) hpath.tail
      fun n hn => hroute n (List.mem_cons_of_mem _ hn)
    obtain ⟨db₂, hadd, hrec₂⟩ := dbAdd_returns db₁ (MerkleTree.join b
      (treeDigest (MerkleTree.top treeDigest p.length ((m.below b).set p v)))
      (MerkleTree.root treeDigest p.length (m.below !b)))
    have htop : MerkleTree.top treeDigest (b :: p).length (m.set (b :: p) v) = MerkleTree.join b
        (treeDigest (MerkleTree.top treeDigest p.length ((m.below b).set p v)))
        (MerkleTree.root treeDigest p.length (m.below !b)) := by
      rw [List.length_cons, MerkleTree.top_succ treeDigest _ _ b, MerkleTree.below_set_same,
        MerkleTree.below_set_other]
      rfl
    refine ⟨db₂, ?_, ?_⟩
    · rw [htop, List.length_cons]
      have hroot : MerkleTree.root treeDigest (p.length + 1) m = treeDigest (MerkleTree.join b
          (MerkleTree.root treeDigest p.length (m.below b))
          (MerkleTree.root treeDigest p.length (m.below !b))) := by
        rw [MerkleTree.root, MerkleTree.top_succ treeDigest _ m b]
      rw [hroot]
      refine (Action.Returns.read hfetch).bind ?_
      rw [ofTree_join]
      refine Action.Returns.bind (a := bitByte b) (t := db) ?_ ?_
      · rw [hpath.head]
        exact Action.Returns.lift _ _
      refine Action.Returns.bind (t := db) (a := MerkleTree.root treeDigest p.length (m.below b)) ?_ ?_
      · rw [child_joinNode]
        exact Action.Returns.lift _ _
      refine hbelow.bind ?_
      change (dbAdd (Node.branch ((joinNode b _ _).newReplace (bitByte b) (treeDigest _)).left
        ((joinNode b _ _).newReplace (bitByte b) (treeDigest _)).right)).Returns _ _ _
      rw [branch_newReplace]
      exact hadd
    · rw [MerkleTree.route, MerkleTree.below_set_same, ← List.length_cons, htop]
      exact hrec₁.trans hrec₂

theorem getNodeFrom_returns (hE : CollisionFree E) {path : Bytes} (p : List Bool)
    (m : Leaves LeafValue) (db : D) (hpath : Remains path p) (hdb : Sound E db)
    (hroute : ∀ n ∈ MerkleTree.route treeDigest p m, entry n ∈ known db) :
    getNodeFrom db path (p.length + 1) (MerkleTree.root treeDigest p.length m) =
      .ok ((m p).map Node.ofLeafValue) := by
  induction p generalizing m with
  | nil =>
    have hfetch : fetch (zkTrieDepth + 1) (MerkleTree.root treeDigest 0 m) db =
        .ok (Node.ofTree (MerkleTree.bottom (m []))) :=
      fetch_known hE hdb (hroute _ (MerkleTree.top_mem_route treeDigest [] m)) (zkTrieDepth + 1)
    have hdrop : path.drop (zkTrieDepth + 1) = [LeafType.value] := hpath.2
    unfold getNodeFrom
    refine (congrArg (· >>= _) hfetch).trans ?_
    cases m [] with
    | none => rfl
    | some w => exact if_pos hdrop.symm
  | cons b p ih =>
    have hfetch := fetch_known hE hdb (hroute _ (MerkleTree.top_mem_route treeDigest (b :: p) m))
      (zkTrieDepth + 1 - (p.length + 1))
    rw [List.length_cons, MerkleTree.top_succ treeDigest _ m b] at hfetch
    have hbelow := ih (m.below b) hpath.tail fun n hn => hroute n (List.mem_cons_of_mem _ hn)
    have hroot : MerkleTree.root treeDigest (p.length + 1) m = treeDigest (MerkleTree.join b
        (MerkleTree.root treeDigest p.length (m.below b))
        (MerkleTree.root treeDigest p.length (m.below !b))) := by
      rw [MerkleTree.root, MerkleTree.top_succ treeDigest _ m b]
    rw [List.length_cons, hroot]
    unfold getNodeFrom
    simp only [hfetch, ok_bind, ofTree_join, hpath.head]
    refine Eq.trans ?_ hbelow
    cases b <;> rfl

end Walk

end SpareMerkleTrie

end LineaSgxProver.Zktrie
