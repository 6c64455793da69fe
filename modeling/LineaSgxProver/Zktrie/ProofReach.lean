import LineaSgxProver.Zktrie.LookupAgreement

namespace LineaSgxProver.Zktrie

open Library
open SpareMerkleTrie (getNodeFrom Remains remains_leafPath joinNode ofTree_join)

section Descent

variable [TrieHash] {D : Type} [Database D] [NodeStore D]

theorem getNodeFrom_ascend {db : D} {path : Bytes} (p : List Bool) (hpath : Remains path p)
    (hs : List SH256) (hlen : hs.length = p.length) (h : SH256)
    (hsteps : ∀ n ∈ MerkleTree.steps treeDigest (List.zip p.reverse hs) h,
      (known db).get (treeDigest n) = some (Node.ofTree n)) :
    getNodeFrom db path (p.length + 1) (MerkleTree.ascend treeDigest (List.zip p.reverse hs) h) =
      getNodeFrom db path 1 h := by
  induction p generalizing hs with
  | nil =>
    obtain rfl := List.length_eq_zero_iff.mp hlen
    rfl
  | cons b p ih =>
    obtain ⟨hs, s, rfl, hlen'⟩ := MerkleTree.exists_concat hlen
    rw [MerkleTree.zip_reverse_cons hlen', MerkleTree.steps_append] at hsteps
    have hbelow := ih hpath.tail hs hlen' fun n hn => hsteps n (List.mem_append_left _ hn)
    have hget := hsteps _ (List.mem_append_right _ (List.mem_singleton.mpr rfl))
    rw [MerkleTree.zip_reverse_cons hlen', MerkleTree.ascend_append, List.length_cons, getNodeFrom_succ, hget,
      ← hbelow]
    simp only [ofTree_join, hpath.head]
    cases b <;> rfl

theorem getNodeFrom_bottom {db : D} {path : Bytes} (hpath : Remains path []) (h : SH256) (value : Bytes) :
    (∃ n, getNodeFrom db path 1 h = .ok (some n) ∧ n.raw = .leaf ⟨[LeafType.value], value⟩) ↔
      ∃ n, (known db).get h = some n ∧ n.raw = .leaf ⟨[LeafType.value], value⟩ := by
  have hdrop : path.drop (zkTrieDepth + 1 - 0) = [LeafType.value] := hpath.2
  rw [getNodeFrom_succ]
  cases hget : (known db).get h with
  | none => simp
  | some n =>
    simp only [Option.some.injEq, exists_eq_left', hdrop]
    constructor
    · rintro ⟨m, hm, hraw⟩
      cases hn : n.raw with
      | branch b =>
        rw [hn] at hm
        cases hx : path[zkTrieDepth + 1 - 0]? <;> rw [hx] at hm <;> cases hm
      | emptyLeaf =>
        rw [hn] at hm
        cases hm
      | leaf l =>
        rw [hn] at hm
        dsimp only at hm
        split_ifs at hm
        · obtain rfl := Option.some.inj (Except.ok.inj hm)
          rw [← hn, hraw]
        · cases Except.ok.inj hm
      | nextFree l =>
        rw [hn] at hm
        dsimp only at hm
        split_ifs at hm
        obtain rfl := Option.some.inj (Except.ok.inj hm)
        rw [hn] at hraw
        cases hraw
    · intro hraw
      refine ⟨n, ?_, hraw⟩
      rw [hraw]
      rfl

omit [TrieHash] in
theorem remains_nil {p : List Bool} (hp : p.length = zkTrieDepth) : Remains (leafPath p) [] := by
  refine ⟨Nat.zero_le _, ?_⟩
  have hlen : (1 :: p.map bitByte).length = zkTrieDepth + 1 := by
    rw [List.length_cons, List.length_map, hp]
  exact List.drop_left' hlen

theorem getNode_climbed {s : Session D} {p : List Bool} (hp : p.length = zkTrieDepth)
    {hs : List SH256} (hlen : hs.length = zkTrieDepth) {free sub h : SH256}
    (hroot : s.trie.rootHash = (Node.branch free sub).hash)
    (hsub : sub = MerkleTree.ascend treeDigest (List.zip p.reverse hs) h)
    (htop : (known s.db).get (Node.branch free sub).hash = some (Node.branch free sub))
    (hsteps : ∀ n ∈ MerkleTree.steps treeDigest (List.zip p.reverse hs) h,
      (known s.db).get (treeDigest n) = some (Node.ofTree n)) :
    SpareMerkleTrie.getNode (leafPath p) s = getNodeFrom s.db (leafPath p) 1 h := by
  have hbelow := getNodeFrom_ascend p (remains_leafPath hp) hs (hlen.trans hp.symm) h hsteps
  rw [hp, ← hsub] at hbelow
  have hfirst : (leafPath p)[zkTrieDepth + 1 - (zkTrieDepth + 1)]? = some 1 := by
    rw [Nat.sub_self]
    rfl
  rw [← hbelow, SpareMerkleTrie.getNode, hroot, getNodeFrom_succ, htop]
  simp only [hfirst]
  rfl

end Descent

section Store

variable [TrieHash]

theorem addNodes_eq (m : NodeMap) (ns : List Node) :
    addNodes m ns = (ns.reverse.map fun n => (n.hash, n)) ++ m := by
  induction ns generalizing m with
  | nil => rfl
  | cons n ns ih =>
    change addNodes (m.insert n.hash n) ns = _
    rw [ih]
    simp [BTreeMap.insert]

theorem get_append (m m' : NodeMap) (h : SH256) : (m ++ m').get h = (m.get h).or (m'.get h) :=
  List.lookup_append

theorem get_cons (e : SH256 × Node) (m : NodeMap) (h : SH256) :
    BTreeMap.get (e :: m) h = if h = e.1 then some e.2 else m.get h :=
  BTreeMap.get_insert m e.1 h e.2

theorem emptyTrieNode_not_leaf {e : SH256 × Node} (he : e ∈ emptyTrieNode) (l : LeafNode) :
    e.2.raw ≠ .leaf l := by
  have htable : ∀ k, ∀ e ∈ emptyNodes k, e.2.raw ≠ .leaf l := by
    intro k
    induction k with
    | zero =>
      intro e he
      rw [List.mem_singleton.mp he]
      intro h
      cases h
    | succ k ih =>
      intro e he
      rcases List.mem_cons.mp he with rfl | he
      · intro h
        cases h
      · exact ih e he
  rw [emptyTrieNode, initWorldState_eq] at he
  rcases List.mem_cons.mp he with rfl | he
  · intro h
    cases h
  · exact htable zkTrieDepth e he

end Store

namespace ProofCall

section Reach

variable [TrieHash] [Profile]

def nodes (c : ProofCall) : List Node := (c.checked.toOption.map Prod.snd).getD []

def leafBytes (c : ProofCall) : Bytes := c.siblings.getLastD []

def Shadowed (c : ProofCall) : Prop :=
  (∃ e ∈ emptyTrieNode, e.2.raw.toBytes = some c.leafBytes) ∨
    ∃ n ∈ c.nodes, (∃ b, n.raw = .branch b) ∧ n.raw.toBytes = some c.leafBytes

def LeafStored (c : ProofCall) (s : MemStore) : Prop :=
  ∃ h n, TrieHash.sum c.leafBytes = .ok h ∧ s.nodes.get h = some n ∧
    n.raw = .leaf ⟨[LeafType.value], c.leafBytes⟩

def hashed (c : ProofCall) : Set Bytes :=
  insert c.leafBytes (encodings (emptyTrieNode ++ addNodes [] c.nodes))

def front (rest : List Node) : NodeMap := emptyTrieNode ++ rest.reverse.map fun n => (n.hash, n)

omit [Profile] in
theorem front_proper {rest : List Node} (hrest : ∀ n ∈ rest, ∃ b, n.raw = .branch b) :
    Proper (front rest) := by
  intro e he
  rcases List.mem_append.mp he with he | he
  · exact emptyTrieNode_proper e he
  · obtain ⟨n, hn, rfl⟩ := List.mem_map.mp he
    obtain ⟨b, hb⟩ := hrest n (List.mem_reverse.mp hn)
    refine ⟨rfl, ?_⟩
    rw [hb]
    trivial

omit [Profile] in
theorem mem_front {rest : List Node} {n : Node} (hn : n ∈ rest) : (n.hash, n) ∈ front rest :=
  List.mem_append_right _ (List.mem_map_of_mem (List.mem_reverse.mpr hn))

theorem front_hashed {c : ProofCall} {sibling : Node} {rest : List Node}
    (hnodes : c.nodes = sibling :: rest) : encodings (front rest) ⊆ c.hashed := by
  rintro b ⟨e, he, hb⟩
  refine Or.inr ⟨e, ?_, hb⟩
  rcases List.mem_append.mp he with he | he
  · exact List.mem_append_left _ he
  · apply List.mem_append_right
    obtain ⟨n, hn, rfl⟩ := List.mem_map.mp he
    rw [hnodes]
    exact mem_addNodes.mpr (Or.inr ⟨n, List.mem_cons_of_mem _ (List.mem_reverse.mp hn), rfl⟩)

theorem shadowed_iff {c : ProofCall} (hE : CollisionFree c.hashed) {sibling : Node} {rest : List Node}
    (hnodes : c.nodes = sibling :: rest) (hsibling : ∀ b, sibling.raw ≠ .branch b)
    (hrest : ∀ n ∈ rest, ∃ b, n.raw = .branch b) {h : SH256} (hsum : TrieHash.sum c.leafBytes = .ok h) :
    c.Shadowed ↔ ∃ n, (front rest).get h = some n := by
  have hsub := front_hashed hnodes
  have hproper := front_proper hrest
  constructor
  · intro hshadowed
    obtain ⟨n, hn, hbytes⟩ : ∃ n, (n.hash, n) ∈ front rest ∧ n.raw.toBytes = some c.leafBytes := by
      rcases hshadowed with ⟨e, he, hb⟩ | ⟨n, hn, ⟨b, hbranch⟩, hb⟩
      · refine ⟨e.2, ?_, hb⟩
        rw [← (emptyTrieNode_proper e he).1]
        exact List.mem_append_left _ he
      · rw [hnodes] at hn
        rcases List.mem_cons.mp hn with rfl | hn
        · exact absurd hbranch (hsibling b)
        · exact ⟨n, mem_front hn, hb⟩
    have hhash : n.hash = h := Except.ok.inj ((n.sum_of_toBytes hbytes).symm.trans hsum)
    exact ⟨n, hhash ▸ get_of_mem hE hproper hsub hn⟩
  · rintro ⟨n, hget⟩
    have hmem := mem_of_get hget
    have hhash : h = n.hash := (hproper _ hmem).1
    obtain ⟨b, hb⟩ : ∃ b, n.raw.toBytes = some b := by
      by_contra hnone
      obtain rfl := Node.toBytes_eq_none (Option.eq_none_iff_forall_ne_some.mpr fun b hb => hnone ⟨b, hb⟩)
      rw [hhash] at hsum
      exact hE.nonzero _ (Set.mem_insert _ _) hsum
    have heq : b = c.leafBytes :=
      hE.injective b (hsub ⟨_, hmem, hb⟩) _ (Set.mem_insert _ _) h (hhash ▸ n.sum_of_toBytes hb) hsum
    rw [heq] at hb
    rcases List.mem_append.mp hmem with hmem | hmem
    · exact Or.inl ⟨_, hmem, hb⟩
    · right
      obtain ⟨m, hm, hpair⟩ := List.mem_map.mp hmem
      obtain rfl : m = n := (Prod.mk.inj hpair).2
      have hm := List.mem_reverse.mp hm
      refine ⟨m, ?_, hrest m hm, hb⟩
      rw [hnodes]
      exact List.mem_cons_of_mem _ hm

omit [Profile] in
theorem front_not_leaf {rest : List Node} (hrest : ∀ n ∈ rest, ∃ b, n.raw = .branch b) {h : SH256}
    {n : Node} (hget : (front rest).get h = some n) (l : LeafNode) : n.raw ≠ .leaf l := by
  rcases List.mem_append.mp (mem_of_get hget) with hmem | hmem
  · exact emptyTrieNode_not_leaf hmem l
  · obtain ⟨m, hm, hpair⟩ := List.mem_map.mp hmem
    obtain rfl : m = n := (Prod.mk.inj hpair).2
    obtain ⟨b, hb⟩ := hrest m (List.mem_reverse.mp hm)
    rw [hb]
    exact fun h => nomatch h

/-- An accepted proof makes its leaf reachable exactly when the leaf is in the store already, or is its
own sibling: the leaf itself is never added. -/
theorem run_reachable_iff {c : ProofCall} {s s' : MemStore} {root : SH256}
    (h : c.run.Returns s root s') (hE : CollisionFree c.hashed) (pfx : UInt64) :
    ∃ path, getLeafPath c.leafIndex = some path ∧
      ((∃ leaf, SpareMerkleTrie.getNode path (⟨⟨root⟩, ⟨pfx, s'⟩⟩ : Session PrefixDB) = .ok (some leaf) ∧
          leaf.raw = .leaf ⟨[LeafType.value], c.leafBytes⟩) ↔
        ¬ c.Shadowed ∧ (c.leafSibling = c.leafBytes ∨ c.LeafStored s)) := by
  obtain ⟨out, hchecked, hnodes, _, _⟩ := run_returns h
  obtain ⟨path, hpath, _⟩ := bind_eq_ok.mp hchecked
  have hpath := orPanic_eq_ok.mp hpath
  have hleafPath : path = leafPath (indexPath c.leafIndex) := getLeafPath_some hpath
  have hout : c.nodes = out := by rw [nodes, hchecked]; rfl
  obtain ⟨sibling, rest, hsplit, hsibling, hrest⟩ := checkProof_split hchecked
  obtain ⟨leaf, hraw, free, sub, hroot, htop, hs, hlen, hsub, hsteps⟩ := checkProof_ok hchecked
  rw [hsplit] at hout
  have hsum : TrieHash.sum c.leafBytes = .ok leaf.hash := leaf.sum_of_toBytes (by rw [hraw]; rfl)
  have hbranches : ∀ n ∈ out, (∃ b, n.raw = .branch b) → n ∈ rest := by
    rintro n hn ⟨b, hb⟩
    rw [hsplit] at hn
    rcases List.mem_cons.mp hn with rfl | hn
    · rw [hsibling] at hb
      cases hb
    · exact hn
  have hknown : known (⟨pfx, s'⟩ : PrefixDB) = front rest ++ (sibling.hash, sibling) :: s.nodes := by
    change emptyTrieNode ++ s'.nodes = _
    rw [hnodes, hsplit, addNodes_eq, front]
    simp
  have hfound : ∀ n ∈ rest, (known (⟨pfx, s'⟩ : PrefixDB)).get n.hash = some n := by
    intro n hn
    rw [hknown, get_append, get_of_mem hE (front_proper hrest) (front_hashed hout) (mem_front hn)]
    rfl
  refine ⟨path, hpath, ?_⟩
  have hp := indexPath_length c.leafIndex
  generalize indexPath c.leafIndex = p at hleafPath hsub hsteps hp
  subst hleafPath
  have hclimbed : ∀ x ∈ MerkleTree.steps treeDigest (List.zip p.reverse hs) leaf.hash,
      (known (⟨pfx, s'⟩ : PrefixDB)).get (treeDigest x) = some (Node.ofTree x) := by
    intro x hx
    obtain ⟨left, right, rfl⟩ := MerkleTree.steps_branch treeDigest _ _ hx
    exact hfound _ (hbranches _ (hsteps _ hx) ⟨_, rfl⟩)
  have hdescent := getNode_climbed (s := (⟨⟨root⟩, ⟨pfx, s'⟩⟩ : Session PrefixDB)) hp hlen hroot hsub
    (hfound _ (hbranches _ htop ⟨_, rfl⟩)) hclimbed
  have hnot : ∀ b, sibling.raw ≠ .branch b := by
    intro b hb
    rw [hsibling] at hb
    cases hb
  rw [hdescent, getNodeFrom_bottom (remains_nil hp), hknown, shadowed_iff hE hout hnot hrest hsum,
    get_append, get_cons]
  cases hfront : (front rest).get leaf.hash with
  | some n =>
    have hleaf := front_not_leaf hrest hfront
    simp [hleaf]
  | none =>
    have hbytes : sibling.raw.toBytes = some c.leafSibling := by
      rw [hsibling]
      rfl
    have hsame : leaf.hash = sibling.hash ↔ c.leafSibling = c.leafBytes := by
      have hsibsum := sibling.sum_of_toBytes hbytes
      constructor
      · intro heq
        rw [← heq] at hsibsum
        refine hE.injective _ (Or.inr ⟨(sibling.hash, sibling), ?_, hbytes⟩) _ (Set.mem_insert _ _) _ hsibsum hsum
        apply List.mem_append_right
        rw [hout]
        exact mem_addNodes.mpr (Or.inr ⟨sibling, List.mem_cons_self .., rfl⟩)
      · intro heq
        rw [heq] at hsibsum
        exact Except.ok.inj (hsum.symm.trans hsibsum)
    have hstored : c.LeafStored s ↔
        ∃ n, s.nodes.get leaf.hash = some n ∧ n.raw = .leaf ⟨[LeafType.value], c.leafBytes⟩ := by
      simp [LeafStored, hsum]
    by_cases heq : c.leafSibling = c.leafBytes
    · rw [heq] at hsibling
      simp [hsame, heq, hsibling]
    · simp [hsame, heq, hstored]

end Reach

theorem sample_collisionFree :
    letI := residueHash
    letI := debugProfile
    CollisionFree (sampleProof LeafOpening.tail.toBytes).hashed := by
  let := residueHash
  let := debugProfile
  have hfree : CollisionFree (encodings ((0, Node.ofLeafValue sampleLeaf.leafValue) ::
      (emptyTrieNode ++ addNodes [] (sampleProof LeafOpening.tail.toBytes).nodes))) :=
    collisionFree_of_separated (by decide +kernel)
  refine hfree.mono ?_
  rintro b (rfl | ⟨e, he, hb⟩)
  · exact ⟨_, List.mem_cons_self .., rfl⟩
  · exact ⟨e, List.mem_cons_of_mem _ he, hb⟩

theorem sample_run_isOk :
    letI := residueHash
    letI := debugProfile
    ((sampleProof LeafOpening.tail.toBytes).run MemStore.new).1.isOk = true := by
  let := residueHash
  let := debugProfile
  decide +kernel

theorem run_reachable_iff_sample :
    letI := residueHash
    letI := debugProfile
    let c := sampleProof LeafOpening.tail.toBytes
    ∃ root s' path, c.run.Returns MemStore.new root s' ∧ getLeafPath c.leafIndex = some path ∧
      ((∃ leaf, SpareMerkleTrie.getNode path (⟨⟨root⟩, ⟨0, s'⟩⟩ : Session PrefixDB) = .ok (some leaf) ∧
          leaf.raw = .leaf ⟨[LeafType.value], c.leafBytes⟩) ↔
        ¬ c.Shadowed ∧ (c.leafSibling = c.leafBytes ∨ c.LeafStored MemStore.new)) := by
  let := residueHash
  let := debugProfile
  intro c
  obtain ⟨root, hroot⟩ := isOk_iff.mp sample_run_isOk
  have hrun : c.run.Returns MemStore.new root (c.run MemStore.new).2 := Prod.ext hroot rfl
  obtain ⟨path, hpath, hiff⟩ := run_reachable_iff hrun sample_collisionFree 0
  exact ⟨root, _, path, hrun, hpath, hiff⟩

/-- The store is left without the leaf that the accepted proof ends in. -/
theorem run_unreachable :
    letI := residueHash
    letI := debugProfile
    let c := sampleProof LeafOpening.tail.toBytes
    ∃ root s' path, c.run.Returns MemStore.new root s' ∧ CollisionFree c.hashed ∧
      getLeafPath c.leafIndex = some path ∧
      ¬ ∃ leaf, SpareMerkleTrie.getNode path (⟨⟨root⟩, ⟨0, s'⟩⟩ : Session PrefixDB) = .ok (some leaf) := by
  let := residueHash
  let := debugProfile
  intro c
  obtain ⟨root, hroot⟩ := isOk_iff.mp sample_run_isOk
  have hrun : c.run.Returns MemStore.new root (c.run MemStore.new).2 := Prod.ext hroot rfl
  have hlost : (SpareMerkleTrie.getNode (leafPath (indexPath 0))
      (⟨⟨(c.run MemStore.new).1.toOption.getD 0⟩, ⟨0, (c.run MemStore.new).2⟩⟩ : Session PrefixDB)).isOk =
        false := by
    decide +kernel
  refine ⟨root, _, _, hrun, sample_collisionFree,
    getLeafPath_of_lt (show (0 : ℕ) < 2 ^ zkTrieDepth by decide), ?_⟩
  · rintro ⟨leaf, hleaf⟩
    rw [hroot] at hlost
    exact nomatch (congrArg Except.isOk hleaf).symm.trans hlost

end ProofCall

end LineaSgxProver.Zktrie
