import LineaSgxProver.Zktrie.AdmittedOps

namespace LineaSgxProver.Zktrie

open Library

theorem leavesOf_congr {m m' : IndexMap} (h : ∀ i : UInt64, i.toNat < 2 ^ zkTrieDepth → m i = m' i) :
    leavesOf m = leavesOf m' := by
  funext p
  unfold leavesOf
  split_ifs with hp
  · apply h
    have hlt := indexOf_lt p
    rw [hp] at hlt
    have hword : indexOf p < 2 ^ 64 := hlt.trans (by decide)
    rw [UInt64.toNat_ofNat', Nat.mod_eq_of_lt hword]
    exact hlt
  · rfl

section Roots

variable [TrieHash] {E : Set Bytes} {root root' : SH256} {n n' : UInt64} {m m' : IndexMap}

theorem Commits.free_eq (hE : CollisionFree E) (h : Commits E root n m) (h' : Commits E root n' m') : n = n' := by
  have htop : worldTop n (leavesOf m) = worldTop n' (leavesOf m') :=
    treeDigest_injOn hE h.top h'.top (h.root_eq.trans h'.root_eq.symm)
  exact formatNodeIndex_injective (MerkleTree.Node.branch.inj htop).1

/-- A root stands for one map and one count, and they have no other root. -/
theorem Commits.root_eq_iff (hE : CollisionFree E) (h : Commits E root n m) (h' : Commits E root' n' m') :
    root = root' ↔ n = n' ∧ ∀ i : UInt64, i.toNat < 2 ^ zkTrieDepth → m i = m' i := by
  constructor
  · rintro rfl
    exact ⟨h.free_eq hE h', fun i hi => h.agree hE h' hi⟩
  · rintro ⟨rfl, hm⟩
    rw [← h.root_eq, ← h'.root_eq, leavesOf_congr hm]

end Roots

namespace TrieOp

variable [TrieHash] [Profile] {D : Type} [Database D] [NodeStore D]

theorem runAll_commits {E : Set Bytes} (hE : CollisionFree E) (ops : List TrieOp) (hops : ∀ op ∈ ops, op.InRange)
    (db : D) (hdb : Proper (NodeStore.nodes db))
    (hwithin : encodings (known (runAll ops ⟨⟨initWorldState.1.hash⟩, db⟩).2.db) ⊆ E) :
    ∃ s, (runAll ops).Returns ⟨⟨initWorldState.1.hash⟩, db⟩ () s ∧
      Commits E s.trie.rootHash (ops.foldl nextFree 0) (ops.foldl apply fun _ => none) := by
  have hstart := runAll_moves ops (⟨⟨initWorldState.1.hash⟩, db⟩ : Session D)
  have hinit : Represents E (⟨⟨initWorldState.1.hash⟩, db⟩ : Session D) 0 fun _ => none :=
    represents_initWorldState db hdb (hstart.encodings_subset.trans hwithin)
  obtain ⟨_, s, hret, hrep⟩ := runAll_reaches hE ops hops hinit hwithin
  exact ⟨s, hret, hrep.commits⟩

/-- Of two runs, over stores of any kind and in any order of their writes. -/
theorem runAll_root_eq_iff {D' : Type} [Database D'] [NodeStore D'] (ops ops' : List TrieOp)
    (hops : ∀ op ∈ ops, op.InRange) (hops' : ∀ op ∈ ops', op.InRange) (db : D) (db' : D')
    (hdb : Proper (NodeStore.nodes db)) (hdb' : Proper (NodeStore.nodes db'))
    (hhash : CollisionFree (encodings (known (runAll ops ⟨⟨initWorldState.1.hash⟩, db⟩).2.db) ∪
      encodings (known (runAll ops' ⟨⟨initWorldState.1.hash⟩, db'⟩).2.db))) :
    ∃ s s', (runAll ops).Returns ⟨⟨initWorldState.1.hash⟩, db⟩ () s ∧
      (runAll ops').Returns ⟨⟨initWorldState.1.hash⟩, db'⟩ () s' ∧
      (s.trie.rootHash = s'.trie.rootHash ↔ ops.foldl nextFree 0 = ops'.foldl nextFree 0 ∧
        ∀ i : UInt64, i.toNat < 2 ^ zkTrieDepth →
          ops.foldl apply (fun _ => none) i = ops'.foldl apply (fun _ => none) i) := by
  obtain ⟨s, hret, hcommits⟩ := runAll_commits hhash ops hops db hdb Set.subset_union_left
  obtain ⟨s', hret', hcommits'⟩ := runAll_commits hhash ops' hops' db' hdb' Set.subset_union_right
  exact ⟨s, s', hret, hret', hcommits.root_eq_iff hhash hcommits'⟩

end TrieOp

namespace TrieOp

def sampleWrites : List TrieOp := [put 5 sampleValue, remove 5]

theorem runAll_root_eq_iff_sample :
    letI := residueHash
    letI := debugProfile
    ∃ s s' : Session PrefixDB,
      (runAll sampleWrites).Returns ⟨⟨initWorldState.1.hash⟩, ⟨0, MemStore.new⟩⟩ () s ∧
      (runAll []).Returns ⟨⟨initWorldState.1.hash⟩, ⟨1, MemStore.new⟩⟩ () s' ∧
      s.trie.rootHash = s'.trie.rootHash := by
  let := residueHash
  let := debugProfile
  have hfree : CollisionFree (encodings (known (runAll sampleWrites
      (⟨⟨initWorldState.1.hash⟩, ⟨0, MemStore.new⟩⟩ : Session PrefixDB)).2.db)) :=
    collisionFree_of_separated (by decide +kernel)
  have hsub : encodings (known (runAll []
        (⟨⟨initWorldState.1.hash⟩, ⟨1, MemStore.new⟩⟩ : Session PrefixDB)).2.db) ⊆
      encodings (known (runAll sampleWrites
        (⟨⟨initWorldState.1.hash⟩, ⟨0, MemStore.new⟩⟩ : Session PrefixDB)).2.db) :=
    encodings_mono fun e he => List.mem_append_left _ (List.append_nil emptyTrieNode ▸ he)
  have hnew : Proper (NodeStore.nodes (⟨0, MemStore.new⟩ : PrefixDB)) := by
    intro e he
    cases he
  have hnew' : Proper (NodeStore.nodes (⟨1, MemStore.new⟩ : PrefixDB)) := by
    intro e he
    cases he
  have hin : ∀ op ∈ sampleWrites, op.InRange := by simp [sampleWrites, InRange, zkTrieDepth]
  have hnone : ∀ op ∈ ([] : List TrieOp), op.InRange := by simp
  have hmap : ∀ i : UInt64, i.toNat < 2 ^ zkTrieDepth →
      sampleWrites.foldl apply (fun _ => none) i = [].foldl apply (fun _ => none) i := by
    intro i _
    simp [sampleWrites, apply]
  obtain ⟨s, s', hret, hret', hiff⟩ := runAll_root_eq_iff sampleWrites [] hin hnone (⟨0, MemStore.new⟩ : PrefixDB)
    (⟨1, MemStore.new⟩ : PrefixDB) hnew hnew' (hfree.mono (Set.union_subset subset_rfl hsub))
  exact ⟨s, s', hret, hret', hiff.mpr ⟨rfl, hmap⟩⟩

end TrieOp

end LineaSgxProver.Zktrie
