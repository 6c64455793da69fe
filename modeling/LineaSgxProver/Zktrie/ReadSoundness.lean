import LineaSgxProver.Zktrie.ProofStore
import LineaSgxProver.Zktrie.Trie

namespace LineaSgxProver.Zktrie

open Library
open MerkleTree (Leaves)

section Answers

variable [TrieHash]

def KeyHolds (m : IndexMap) (hkey : SH256) (v : Bytes) : Prop :=
  ∃ (i : UInt64) (l : LeafOpening), i.toNat < 2 ^ zkTrieDepth ∧ m i = some l.leafValue ∧
    l.hkey = hkey ∧ trieHash v = .ok l.hval

def KeyAbsent (m : IndexMap) (hkey : SH256) : Prop :=
  ∃ (i j : UInt64) (l r : LeafOpening), i.toNat < 2 ^ zkTrieDepth ∧ j.toNat < 2 ^ zkTrieDepth ∧
    m i = some l.leafValue ∧ m j = some r.leafValue ∧ l.nextLeaf = j ∧ r.prevLeaf = i ∧
    l.hkey < hkey ∧ hkey < r.hkey

def Authentic (m : IndexMap) (hkey : SH256) : Option Bytes → Prop
  | some v => KeyHolds m hkey v
  | none => KeyAbsent m hkey

def Trace.TrueIn (m : IndexMap) (hkey : SH256) : Trace → Prop
  | .read n => KeyHolds m hkey n.value
  | .readZero _ => KeyAbsent m hkey
  | .insertion _ => KeyAbsent m hkey
  | .update n => KeyHolds m hkey n.oldValue
  | .deletion n => KeyHolds m hkey n.deleteValue

def ProofCall.TrueIn (m : IndexMap) (hkey : SH256) (c : ProofCall) : Prop :=
  ∃ v, c.value = some v ∧ KeyHolds m hkey v

def Record.TrueIn (m : IndexMap) (hkey : SH256) : Record → Prop
  | .trace t => t.TrueIn m hkey
  | .proof c => c.TrueIn m hkey

def ProofCall.Bound (c : ProofCall) : Prop :=
  ∃ v l, c.value = some v ∧ c.siblings.getLastD [] = LeafOpening.toBytes l ∧ l.hkey = c.hkey ∧
    trieHash v = .ok l.hval

theorem Record.authentic_iff {rec : Record} (hvalue : ∀ c, rec = .proof c → c.value.isSome = true)
    (m : IndexMap) (hkey : SH256) :
    Authentic m hkey (rec.keyRange.center.map FlattenedLeaf.leafValue) ↔ rec.TrueIn m hkey := by
  cases rec with
  | trace t => cases t <;> exact Iff.rfl
  | proof c =>
    obtain ⟨v, hv⟩ := Option.isSome_iff_exists.mp (hvalue c rfl)
    simp [Record.keyRange, ProofCall.keyRange, Record.TrueIn, ProofCall.TrueIn, hv, Authentic]

end Answers

section Reads

variable [TrieHash] [Profile] {traces : List Trace} {calls : List ProofCall} {s : MemStore}

theorem read_ok_iff (hbuilt : Built traces calls s) {pfx : UInt64} {root hkey : SH256} {k : Bytes}
    (hk : trieHash k = .ok hkey) (a : Option Bytes) :
    ZkTrie.read k (⟨⟨root⟩, ⟨pfx, s⟩⟩ : Session PrefixDB) = .ok a ↔
      ∃ rec, Record.supplied pfx traces calls root hkey = some rec ∧
        a = rec.keyRange.center.map FlattenedLeaf.leafValue := by
  have hnear : Database.getNearestKeys (⟨pfx, s⟩ : PrefixDB) root hkey =
      (Record.supplied pfx traces calls root hkey).map Record.keyRange := by
    rw [← hbuilt.lookup]
    exact getNearestKeys_eq _ root hkey
  have hread : ZkTrie.read k (⟨⟨root⟩, ⟨pfx, s⟩⟩ : Session PrefixDB) =
      orPanic (Database.getNearestKeys (⟨pfx, s⟩ : PrefixDB) root hkey) >>= fun r =>
        .ok (r.center.map FlattenedLeaf.leafValue) := by
    unfold ZkTrie.read ZkTrie.nearestKeys
    rw [hk]
    change (orPanic (Database.getNearestKeys (⟨pfx, s⟩ : PrefixDB) root hkey) >>= _) = _
    refine bind_congr fun r => ?_
    cases r.center <;> rfl
  rw [hread, hnear, bind_eq_ok]
  constructor
  · rintro ⟨r, hr, ha⟩
    obtain ⟨rec, hrec, rfl⟩ := Option.map_eq_some_iff.mp (orPanic_eq_ok.mp hr)
    exact ⟨rec, hrec, (Except.ok.inj ha).symm⟩
  · rintro ⟨rec, hrec, rfl⟩
    exact ⟨rec.keyRange, by rw [hrec]; rfl, rfl⟩

theorem Built.checked (hbuilt : Built traces calls s) {c : ProofCall} (hc : c ∈ calls) :
    ∃ root out, c.checked = .ok (root, out) ∧ ∀ n ∈ out, (n.hash, n) ∈ s.nodes := by
  obtain ⟨nodes, index, _, _, hrun⟩ := hbuilt.start
  obtain ⟨root, out, hchecked⟩ := ProofCall.runAll_checked hrun hc
  refine ⟨root, out, hchecked, ?_⟩
  intro n hn
  exact (ProofCall.runAll_nodes hrun _).mpr (Or.inr ⟨c, hc, root, out, hchecked, n, hn, rfl⟩)

omit [Profile] in
theorem Commits.leaf {E : Set Bytes} (hE : CollisionFree E) {root free sub : SH256} {n : UInt64}
    {m : IndexMap} (hm : Commits E root n m) (hroot : root = (Node.branch free sub).hash)
    (htop : MerkleTree.Node.branch free sub ∈ within E) {p : List Bool} (hp : p.length = zkTrieDepth)
    {hs : List SH256} (hlen : hs.length = zkTrieDepth) {leaf : Node}
    (hsub : sub = MerkleTree.ascend treeDigest (List.zip p.reverse hs) leaf.hash)
    (hsteps : ∀ x ∈ MerkleTree.steps treeDigest (List.zip p.reverse hs) leaf.hash, x ∈ within E)
    {v : LeafValue} (hraw : leaf = Node.ofTree (.leaf v)) (hv : v.1 ∈ E) :
    leavesOf m p = some v := by
  have hinj := treeDigest_injOn hE
  have htree : worldTop n (leavesOf m) = MerkleTree.Node.branch free sub :=
    hinj hm.top htop (hm.root_eq.trans hroot)
  have hroot40 : MerkleTree.root treeDigest zkTrieDepth (leavesOf m) = sub :=
    (MerkleTree.Node.branch.inj htree).2
  have hroute : ∀ x ∈ MerkleTree.route treeDigest p (leavesOf m), x ∈ within E := by
    intro x hx
    refine hm.nodes x ?_
    rw [← hp]
    exact MerkleTree.route_subset_nodes treeDigest p (leavesOf m) hx
  have hbottom : leaf.hash = treeDigest (MerkleTree.bottom (leavesOf m p)) := by
    refine MerkleTree.ascend_binding hinj p hs leaf.hash (leavesOf m) (hlen.trans hp.symm) hroute
      hsteps ?_
    rw [← hsub, hp, hroot40]
  have hfound : (MerkleTree.bottom (leavesOf m p) : TreeNode) = .leaf v := by
    refine hinj (hroute _ (MerkleTree.bottom_mem_route treeDigest p (leavesOf m))) ?_
      (hbottom.symm.trans (congrArg Node.hash hraw))
    intro b hb
    obtain rfl : v.1 = b := Option.some.inj hb
    exact hv
  cases hw : leavesOf m p with
  | none =>
    rw [hw] at hfound
    cases hfound
  | some w =>
    rw [hw] at hfound
    rw [MerkleTree.Node.leaf.inj hfound]

omit [TrieHash] [Profile] in
theorem leavesOf_eq_some {m : IndexMap} {p : List Bool} (hp : p.length = zkTrieDepth)
    {v : LeafValue} (h : leavesOf m p = some v) :
    ∃ i : UInt64, i.toNat < 2 ^ zkTrieDepth ∧ m i = some v := by
  have hword : 2 ^ zkTrieDepth < 2 ^ 64 := by decide
  have hlt : indexOf p < 2 ^ zkTrieDepth := by
    have hlt := indexOf_lt p
    rwa [hp] at hlt
  rw [leavesOf, if_pos hp] at h
  refine ⟨UInt64.ofNat (indexOf p), ?_, h⟩
  rw [UInt64.toNat_ofNat', Nat.mod_eq_of_lt (by omega)]
  exact hlt

theorem ProofCall.Bound.trueIn {E : Set Bytes} (hE : CollisionFree E) {c : ProofCall}
    (hbound : c.Bound) (hleaf : c.siblings.getLastD [] ∈ E) {root : SH256} {out : List Node}
    (hchecked : c.checked = .ok (root, out))
    (hout : ∀ n ∈ out, ∀ b, n.raw.toBytes = some b → b ∈ E) {n : UInt64} {m : IndexMap}
    (hm : Commits E root n m) : c.TrueIn m c.hkey := by
  obtain ⟨v, l, hv, hopen, hkey, hval⟩ := hbound
  obtain ⟨leaf, hraw, free, sub, hroot, htop, hs, hlen, hsub, hsteps⟩ := checkProof_ok hchecked
  have hnode : leaf = Node.ofTree (.leaf l.leafValue) := by
    apply Node.ext_raw
    rw [hraw, hopen]
    rfl
  rw [hopen] at hleaf
  have hp := indexPath_length c.leafIndex
  have hat := hm.leaf hE hroot (hout _ htop) hp hlen hsub (fun x hx => hout _ (hsteps x hx)) hnode hleaf
  obtain ⟨i, hi, hmi⟩ := leavesOf_eq_some hp hat
  exact ⟨v, hv, i, l, hi, hmi, hkey, hval⟩

/-- A read is authentic exactly when what was supplied for its key is true: of all the evidence the
store checks none is bound to the answer, though a bound proof would be enough. -/
theorem read_authentic_iff {E : Set Bytes} (hE : CollisionFree E) (hbuilt : Built traces calls s)
    (hnodes : encodings s.nodes ⊆ E) (hleaves : ∀ c ∈ calls, c.siblings.getLastD [] ∈ E)
    (pfx : UInt64) (root hkey : SH256) (k : Bytes) (hk : trieHash k = .ok hkey) :
    ((∀ a, ZkTrie.read k (⟨⟨root⟩, ⟨pfx, s⟩⟩ : Session PrefixDB) = .ok a →
        ∀ n m, Commits E root n m → Authentic m hkey a) ↔
      ∀ rec, Record.supplied pfx traces calls root hkey = some rec →
        ∀ n m, Commits E root n m → rec.TrueIn m hkey) ∧
    ∀ c ∈ calls, c.Answering pfx root hkey → c.Bound →
      ∀ n m, Commits E root n m → c.TrueIn m hkey := by
  have htrue : ∀ rec, Record.supplied pfx traces calls root hkey = some rec → ∀ m,
      Authentic m hkey (rec.keyRange.center.map FlattenedLeaf.leafValue) ↔ rec.TrueIn m hkey := by
    intro rec hrec m
    refine Record.authentic_iff ?_ m hkey
    rintro c rfl
    exact hbuilt.value hrec
  refine ⟨⟨?_, ?_⟩, ?_⟩
  · intro h rec hrec n m hm
    exact (htrue rec hrec m).mp (h _ ((read_ok_iff hbuilt hk _).mpr ⟨rec, hrec, rfl⟩) n m hm)
  · intro h a ha n m hm
    obtain ⟨rec, hrec, rfl⟩ := (read_ok_iff hbuilt hk a).mp ha
    exact (htrue rec hrec m).mpr (h rec hrec n m hm)
  · rintro c hc ⟨hkey', hroot⟩ hbound n m hm
    obtain ⟨root', out, hchecked, hout⟩ := hbuilt.checked hc
    rw [hchecked] at hroot
    obtain rfl : root' = root := Option.some.inj hroot
    obtain rfl : c.hkey = hkey := (Prod.mk.inj hkey').2
    exact hbound.trueIn hE (hleaves c hc) hchecked
      (fun x hx b hb => hnodes ⟨_, hout x hx, hb⟩) hm

end Reads

section Sample

variable [TrieHash]

def sampleLeaf : LeafOpening := LeafOpening.new 0 1 2 8

def sampleSiblings (beside : Bytes) : List Bytes :=
  ((emptyTrieNode.drop 2).take 39).map (fun e => e.2.raw.toBytes.getD []) ++ [beside]

def sampleSubRoot (beside : Bytes) : SH256 :=
  ((MemStore.proofLoop (leafPath (indexPath 0)) (sampleSiblings beside).reverse
    (Node.ofLeafValue sampleLeaf.leafValue).hash []).toOption.map Prod.fst).getD 0

def sampleTop (beside : Bytes) : Bytes :=
  SH256.bytes (formatNodeIndex 2) ++ SH256.bytes (sampleSubRoot beside)

def sampleProof (beside : Bytes) : ProofCall :=
  ⟨0, 0, 2, some [7], sampleTop beside :: (sampleSiblings beside ++ [sampleLeaf.toBytes])⟩

end Sample

section Forged

variable [TrieHash]

def emptySubRoot : SH256 := (initWorldState.1.raw.branch?.map BranchNode.right).getD 0

theorem emptySubRoot_eq : emptySubRoot = MerkleTree.root treeDigest zkTrieDepth Leaves.none := by
  rw [emptySubRoot, initWorldState_eq]
  rfl

def forgedTrace : Trace :=
  .read ⟨[], 5, emptySubRoot, LeafOpening.new 0 1 0 0, ⟨2, []⟩, [1], [7]⟩

theorem emptyTop_eq (n : UInt64) :
    Node.ofTree (worldTop n (leavesOf fun _ => none)) = Node.topNode n emptySubRoot := by
  rw [leavesOf_none, emptySubRoot_eq]
  rfl

theorem commits_none {E : Set Bytes} (n : UInt64) (hempty : encodings emptyTrieNode ⊆ E)
    (htop : ∀ b, (Node.topNode n emptySubRoot).raw.toBytes = some b → b ∈ E) :
    Commits E (Node.topNode n emptySubRoot).hash n fun _ => none := by
  refine ⟨?_, ?_, ?_⟩
  · rw [← emptyTop_eq]
    rfl
  · intro b hb
    rw [emptyTop_eq] at hb
    exact htop b hb
  · intro x hx b hb
    rw [leavesOf_none] at hx
    have hknown := empty_nodes_mem_known (⟨0, MemStore.new⟩ : PrefixDB) zkTrieDepth le_rfl x hx
    rw [known, List.mem_append] at hknown
    rcases hknown with hmem | hmem
    · exact hempty ⟨_, hmem, hb⟩
    · cases hmem

end Forged

section Sample

variable [TrieHash] [Profile]

def sampleStart : MemStore := (MemStore.fromTraces [forgedTrace]).toOption.getD MemStore.new

def sampleStore (beside : Bytes) : MemStore :=
  (ProofCall.runAll [sampleProof beside] sampleStart).2

theorem sampleStore_built {beside : Bytes}
    (hstart : (MemStore.fromTraces [forgedTrace]).isOk = true)
    (hrun : (ProofCall.runAll [sampleProof beside] sampleStart).1.isOk = true) :
    Built [forgedTrace] [sampleProof beside] (sampleStore beside) := by
  obtain ⟨s, hs⟩ := isOk_iff.mp hstart
  obtain ⟨_, h⟩ := isOk_iff.mp hrun
  refine ⟨sampleStart, ?_, Prod.ext h rfl⟩
  rw [sampleStart, hs]
  rfl

def sampleHashed : Set Bytes :=
  encodings ((0, Node.ofLeafValue sampleLeaf.leafValue) :: (sampleStore LeafOpening.tail.toBytes).nodes)

end Sample

theorem sampleStart_isOk :
    letI := residueHash
    letI := debugProfile
    (MemStore.fromTraces [forgedTrace]).isOk = true := by
  let := residueHash
  let := debugProfile
  decide +kernel

theorem tailStore_built :
    letI := residueHash
    letI := debugProfile
    Built [forgedTrace] [sampleProof LeafOpening.tail.toBytes] (sampleStore LeafOpening.tail.toBytes) := by
  let := residueHash
  let := debugProfile
  exact sampleStore_built sampleStart_isOk (by decide +kernel)

theorem read_authentic_iff_sample :
    letI := residueHash
    letI := debugProfile
    ∃ root : SH256,
      (sampleProof LeafOpening.tail.toBytes).Answering 0 root 2 ∧
      (sampleProof LeafOpening.tail.toBytes).Bound ∧
      ((∀ a, ZkTrie.read [1]
            (⟨⟨root⟩, ⟨0, sampleStore LeafOpening.tail.toBytes⟩⟩ : Session PrefixDB) = .ok a →
          ∀ n m, Commits sampleHashed root n m → Authentic m 2 a) ↔
        ∀ rec, Record.supplied 0 [forgedTrace] [sampleProof LeafOpening.tail.toBytes] root 2 = some rec →
          ∀ n m, Commits sampleHashed root n m → rec.TrueIn m 2) ∧
      ∀ c ∈ [sampleProof LeafOpening.tail.toBytes], c.Answering 0 root 2 → c.Bound →
        ∀ n m, Commits sampleHashed root n m → c.TrueIn m 2 := by
  let := residueHash
  let := debugProfile
  have hbuilt : Built [forgedTrace] [sampleProof LeafOpening.tail.toBytes]
      (sampleStore LeafOpening.tail.toBytes) := tailStore_built
  have hfree : CollisionFree sampleHashed := collisionFree_of_separated (by decide +kernel)
  have hlast : (sampleProof LeafOpening.tail.toBytes).siblings.getLastD [] = sampleLeaf.toBytes := rfl
  obtain ⟨root, out, hchecked, _⟩ := hbuilt.checked (List.mem_singleton.mpr rfl)
  refine ⟨root, ⟨rfl, by rw [hchecked]; rfl⟩, ⟨[7], sampleLeaf, rfl, hlast, rfl, rfl⟩, ?_⟩
  refine read_authentic_iff hfree hbuilt ?_ ?_ 0 root 2 [1] rfl
  · exact encodings_mono fun e he => List.mem_cons_of_mem _ he
  · intro c hc
    rw [List.mem_singleton.mp hc, hlast]
    exact ⟨_, List.mem_cons_self .., rfl⟩

/-- The store built from the forged trace answers with its value, at the root of a trie without
leaves. -/
theorem read_forged :
    letI := residueHash
    letI := debugProfile
    ∃ s root hkey E, Built [forgedTrace] [] s ∧ CollisionFree E ∧ encodings s.nodes ⊆ E ∧
      trieHash [1] = .ok hkey ∧ Commits E root 5 (fun _ => none) ∧
      ZkTrie.read [1] (⟨⟨root⟩, ⟨UInt64.ofNat (2 ^ 64 - 1), s⟩⟩ : Session PrefixDB) =
        .ok (some [7]) ∧
      ¬ Authentic (fun _ => none) hkey (some [7]) := by
  let := residueHash
  let := debugProfile
  obtain ⟨nodes, hnodes⟩ : ∃ nodes, traceNodes [forgedTrace] = some nodes := ⟨_, rfl⟩
  obtain ⟨index, hindex⟩ : ∃ index, LevelMap.fromTraces [forgedTrace] = .ok index := ⟨_, rfl⟩
  have hbuilt : Built [forgedTrace] [] ⟨nodes, index, []⟩ := by
    refine ⟨⟨nodes, index, []⟩, ?_, rfl⟩
    rw [MemStore.fromTraces, hnodes, hindex]
    rfl
  have hfree : CollisionFree (encodings ((0, Node.topNode 5 emptySubRoot) ::
      (emptyTrieNode ++ (traceNodes [forgedTrace]).getD []))) :=
    collisionFree_of_separated (by decide +kernel)
  have hanswer : LevelMap.Answering (Node.topNode 5 emptySubRoot).hash 2 forgedTrace := ⟨rfl, rfl⟩
  rw [hnodes] at hfree
  refine ⟨⟨nodes, index, []⟩, (Node.topNode 5 emptySubRoot).hash, 2, _, hbuilt, hfree, ?_, rfl, ?_, ?_, ?_⟩
  · exact encodings_mono fun e he => List.mem_cons_of_mem _ (List.mem_append_right _ he)
  · refine commits_none 5 (encodings_mono fun e he => ?_) fun b hb => ⟨_, List.mem_cons_self .., hb⟩
    exact List.mem_cons_of_mem _ (List.mem_append_left _ he)
  · have hkey : trieHash [1] = .ok 2 := rfl
    refine (read_ok_iff hbuilt hkey _).mpr ⟨.trace forgedTrace, ?_, rfl⟩
    unfold Record.supplied
    rw [if_pos rfl, List.reverse_singleton, List.find?_cons, decide_eq_true hanswer]
    rfl
  · rintro ⟨i, l, _, hl, _⟩
    cases hl

end LineaSgxProver.Zktrie
