import LineaSgxProver.Zktrie.ReadSoundness

namespace LineaSgxProver.Zktrie

open Library

section Roots

variable [TrieHash] [Profile]

def Trace.Adds (t : Trace) (n : Node) : Prop :=
  (∃ ns, t.nodes = some ns ∧ n ∈ ns) ∨
    ∃ free subRoot, t.oldState = some (free, subRoot) ∧
      n = Node.rawBranch (Node.nextFreeNode free).hash subRoot

/-- A top node that the table of empty subtrees or one of the traces has among its nodes. -/
def Covered (traces : List Trace) (top : Node) : Prop :=
  (∃ e ∈ emptyTrieNode, e.2 = top) ∨ ∃ t ∈ traces, t.Adds top

theorem fromTraces_eq_ok {traces : List Trace} {s : MemStore}
    (h : MemStore.fromTraces traces = .ok s) :
    traceNodes traces = some s.nodes ∧ ∃ index, LevelMap.fromTraces traces = .ok index := by
  unfold MemStore.fromTraces at h
  obtain ⟨nodes, hnodes, h⟩ := bind_eq_ok.mp h
  obtain ⟨index, hindex, h⟩ := bind_eq_ok.mp h
  rw [← Except.ok.inj h]
  exact ⟨orPanic_eq_ok.mp hnodes, index, hindex⟩

theorem foldlM_addTraceNodes_state {traces : List Trace} {m m' : NodeMap}
    (h : traces.foldlM addTraceNodes m = some m') {t : Trace} (ht : t ∈ traces) :
    ∃ free subRoot ns, t.oldState = some (free, subRoot) ∧ t.nodes = some ns := by
  induction traces generalizing m with
  | nil => cases ht
  | cons u traces ih =>
    obtain ⟨m₁, hstep, hrest⟩ := Option.bind_eq_some_iff.mp h
    rcases List.mem_cons.mp ht with rfl | ht
    · obtain ⟨free, subRoot, ns, hstate, hns, _⟩ := addTraceNodes_eq_some hstep
      exact ⟨free, subRoot, ns, hstate, hns⟩
    · exact ih hrest ht

theorem covered_iff {traces : List Trace} {s : MemStore} (h : MemStore.fromTraces traces = .ok s)
    (free : UInt64) (subRoot : SH256) :
    Covered traces (Node.topNode free subRoot) ↔
      ((Node.topNode free subRoot).hash, Node.topNode free subRoot) ∈ emptyTrieNode ++ s.nodes := by
  have hmem := foldlM_addTraceNodes_mem (fromTraces_eq_ok h).1
    ((Node.topNode free subRoot).hash, Node.topNode free subRoot)
  have hkind (n : UInt64) : Node.topNode free subRoot ≠ Node.nextFreeNode n :=
    fun heq => nomatch congrArg Node.raw heq
  rw [List.mem_append, hmem]
  constructor
  · rintro (⟨e, he, heq⟩ | ⟨t, ht, hadds⟩)
    · left
      have hkey := (emptyTrieNode_proper e he).1
      rw [heq] at hkey
      rwa [← hkey, ← heq]
    · right
      obtain ⟨free', subRoot', ns, hstate, hns⟩ :=
        foldlM_addTraceNodes_state (fromTraces_eq_ok h).1 ht
      refine Or.inr ⟨t, ht, free', subRoot', ns, hstate, hns, ?_⟩
      rcases hadds with ⟨ns', hns', hn⟩ | ⟨free'', subRoot'', hstate', heq⟩
      · obtain rfl := Option.some.inj (hns.symm.trans hns')
        exact Or.inl ⟨_, hn, rfl⟩
      · obtain ⟨rfl, rfl⟩ := Prod.mk.inj (Option.some.inj (hstate.symm.trans hstate'))
        right
        right
        rw [heq]
  · rintro (hempty | hnil | ⟨t, ht, free', subRoot', ns, hstate, hns, hnew⟩)
    · exact Or.inl ⟨_, hempty, rfl⟩
    · cases hnil
    · right
      refine ⟨t, ht, ?_⟩
      rcases hnew with ⟨n, hn, heq⟩ | heq | heq
      · left
        rw [(Prod.mk.inj heq).2]
        exact ⟨ns, hns, hn⟩
      · exact absurd (Prod.mk.inj heq).2 (hkind free')
      · exact Or.inr ⟨free', subRoot', hstate, (Prod.mk.inj heq).2⟩

/-- The trie resolves the root of a trace exactly when its top node got into the store some other
way: the branch the store keeps for it is over the hash of the next free node, not its index. -/
theorem fromTraces_resolves_iff {traces : List Trace} {s : MemStore}
    (h : MemStore.fromTraces traces = .ok s) {t : Trace} (ht : t ∈ traces) :
    ∃ free subRoot, t.oldState = some (free, subRoot) ∧
      t.oldTopHash = some (Node.topNode free subRoot).hash ∧
      ∀ pfx, CollisionFree (encodings ((0, Node.topNode free subRoot) :: (emptyTrieNode ++ s.nodes))) →
        (ZkTrie.nextFreeNode (⟨⟨(Node.topNode free subRoot).hash⟩, ⟨pfx, s⟩⟩ : Session PrefixDB) = .ok free ∧
            ZkTrie.subRootHash (⟨⟨(Node.topNode free subRoot).hash⟩, ⟨pfx, s⟩⟩ : Session PrefixDB) =
              .ok subRoot ↔
          Covered traces (Node.topNode free subRoot)) := by
  obtain ⟨hnodes, _⟩ := fromTraces_eq_ok h
  obtain ⟨free, subRoot, _, hstate, _⟩ := foldlM_addTraceNodes_state hnodes ht
  have htop : t.oldTopHash = some (Node.topNode free subRoot).hash := by
    rw [Trace.oldTopHash, Trace.oldTopNode, hstate]
    rfl
  refine ⟨free, subRoot, hstate, htop, ?_⟩
  intro pfx hE
  have hproper : Proper (emptyTrieNode ++ s.nodes) := by
    intro e he
    rcases List.mem_append.mp he with he | he
    · exact emptyTrieNode_proper e he
    · exact traceNodes_proper hnodes e he
  have hsub : encodings (emptyTrieNode ++ s.nodes) ⊆
      encodings ((0, Node.topNode free subRoot) :: (emptyTrieNode ++ s.nodes)) :=
    encodings_mono fun e he => List.mem_cons_of_mem _ he
  rw [covered_iff h]
  constructor
  · rintro ⟨hfree, _⟩
    obtain ⟨b, hb, _⟩ := bind_eq_ok.mp hfree
    obtain ⟨n, hget, _⟩ := rootBranch_eq_ok.mp hb
    have hmem := mem_of_get hget
    have heq : Node.topNode free subRoot = n :=
      Node.unique hE trivial (hproper _ hmem).2 (fun b hb => ⟨_, List.mem_cons_self .., hb⟩)
        (fun b hb => hsub ⟨_, hmem, hb⟩) (hproper _ hmem).1
    rwa [← heq] at hmem
  · intro hmem
    have hget : Database.getNode (⟨pfx, s⟩ : PrefixDB) (Node.topNode free subRoot).hash =
        .ok (some (Node.topNode free subRoot)) := by
      rw [NodeStore.getNode_eq]
      exact congrArg _ (get_of_mem hE hproper hsub hmem)
    have hbranch : SpareMerkleTrie.rootBranch
        (⟨⟨(Node.topNode free subRoot).hash⟩, ⟨pfx, s⟩⟩ : Session PrefixDB) =
          .ok ⟨formatNodeIndex free, subRoot⟩ := by
      unfold SpareMerkleTrie.rootBranch SpareMerkleTrie.rootNode
      rw [hget]
      rfl
    constructor
    · change SpareMerkleTrie.nextFreeNode _ = _
      unfold SpareMerkleTrie.nextFreeNode
      rw [hbranch]
      change orPanic (parseNodeIndex (SH256.bytes (formatNodeIndex free))) = _
      rw [parseNodeIndex_format]
      rfl
    · change SpareMerkleTrie.subRootHash _ = _
      unfold SpareMerkleTrie.subRootHash
      rw [hbranch]
      rfl

end Roots

def tableTrace : Trace := .read ⟨[], 1, 1, LeafOpening.head, ⟨0, []⟩, [1], [7]⟩

theorem fromTraces_resolves_iff_sample :
    letI := residueHash
    letI := debugProfile
    ∃ s, MemStore.fromTraces [tableTrace] = .ok s ∧
      (ZkTrie.nextFreeNode (⟨⟨(Node.topNode 1 1).hash⟩, ⟨3, s⟩⟩ : Session PrefixDB) = .ok 1 ∧
          ZkTrie.subRootHash (⟨⟨(Node.topNode 1 1).hash⟩, ⟨3, s⟩⟩ : Session PrefixDB) =
            .ok 1 ↔
        Covered [tableTrace] (Node.topNode 1 1)) := by
  let := residueHash
  let := debugProfile
  obtain ⟨s, hs⟩ := isOk_iff.mp (show (MemStore.fromTraces [tableTrace]).isOk = true by decide +kernel)
  obtain ⟨free, subRoot, hstate, _, hiff⟩ := fromTraces_resolves_iff hs (List.mem_singleton.mpr rfl)
  obtain ⟨rfl, rfl⟩ := Prod.mk.inj (Option.some.inj hstate)
  have hfree : CollisionFree (encodings ((0, Node.topNode 1 1) ::
      (emptyTrieNode ++ (traceNodes [tableTrace]).getD []))) :=
    collisionFree_of_separated (by decide +kernel)
  rw [(fromTraces_eq_ok hs).1] at hfree
  exact ⟨s, hs, hiff 3 hfree⟩

/-- At the root of a trace that only reads the store does not find the top node. -/
theorem fromTraces_unresolved :
    letI := residueHash
    letI := debugProfile
    ∃ s root, MemStore.fromTraces [forgedTrace] = .ok s ∧ forgedTrace.oldTopHash = some root ∧
      CollisionFree (encodings ((0, Node.topNode 5 emptySubRoot) :: (emptyTrieNode ++ s.nodes))) ∧
      ZkTrie.nextFreeNode (⟨⟨root⟩, ⟨0, s⟩⟩ : Session PrefixDB) ≠ .ok 5 := by
  let := residueHash
  let := debugProfile
  obtain ⟨s, hs⟩ := isOk_iff.mp (show (MemStore.fromTraces [forgedTrace]).isOk = true by decide +kernel)
  have hnodes := (fromTraces_eq_ok hs).1
  have hfree : CollisionFree (encodings ((0, Node.topNode 5 emptySubRoot) ::
      (emptyTrieNode ++ (traceNodes [forgedTrace]).getD []))) :=
    collisionFree_of_separated (by decide +kernel)
  have hnone : (emptyTrieNode ++ (traceNodes [forgedTrace]).getD []).get
      (Node.topNode 5 emptySubRoot).hash = none := by
    decide +kernel
  rw [hnodes] at hfree hnone
  refine ⟨s, (Node.topNode 5 emptySubRoot).hash, hs, rfl, hfree, ?_⟩
  intro h
  obtain ⟨b, hb, _⟩ := bind_eq_ok.mp h
  obtain ⟨n, hget, _⟩ := rootBranch_eq_ok.mp hb
  exact nomatch hget.symm.trans hnone

end LineaSgxProver.Zktrie
