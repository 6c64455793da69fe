import LineaSgxProver.Zktrie.TableHash
import LineaSgxProver.Zktrie.WriteAlgebra

namespace LineaSgxProver.Zktrie

open Library
open MerkleTree (Leaves)
open ZkTrie (Decodes)

section Admits

variable [TrieHash]

/-- The trees of a map are hashed within `E`, whatever the count of free leaves. -/
def Admits (E : Set Bytes) (m : IndexMap) : Prop :=
  ∀ free, Commits E (worldRoot free (leavesOf m)) free m

variable {D : Type} [Database D] [NodeStore D] {E : Set Bytes} {s : Session D} {n : UInt64} {m : IndexMap}

theorem Admits.walk (h : Admits E m) (n : UInt64) {p : List Bool} (hp : p.length = zkTrieDepth) :
    ∀ x ∈ SpareMerkleTrie.walk n p (leavesOf m), x ∈ within E := by
  intro x hx
  rcases List.mem_cons.mp hx with rfl | hx
  · exact (h n).top
  · exact (h n).route hp x hx

theorem Records.encodings_subset {db db' : D} {t : List TreeNode} (h : Records db db' t)
    (hdb : encodings (known db) ⊆ E) (ht : ∀ x ∈ t, x ∈ within E) : encodings (known db') ⊆ E := by
  obtain ⟨new, hnew, hsub, _⟩ := h
  rintro b ⟨e, he, hb⟩
  rcases List.mem_append.mp he with he | he
  · exact hdb ⟨e, List.mem_append_left _ he, hb⟩
  rw [hnew] at he
  rcases List.mem_append.mp he with he | he
  · obtain ⟨x, hx, rfl⟩ := List.mem_map.mp he
    exact ht x (hsub x hx) b hb
  · exact hdb ⟨e, List.mem_append_right _ he, hb⟩

variable {C : Coverage D}

theorem Holds.put_returns (hE : CollisionFree E) (h : Holds E C s n m) {i : UInt64}
    (hi : i.toNat < 2 ^ zkTrieDepth) (hu : C.usable m i) (v : LeafValue)
    (hv : Admits E (Function.update m i (some v))) :
    ∃ s', (SpareMerkleTrie.put (leafPath (indexPath i)) v.1).Returns s () s' ∧
      Holds E C s' n (Function.update m i (some v)) := by
  obtain ⟨db', hret, hrec⟩ := SpareMerkleTrie.put_returns hE (indexPath_length i) v h.rootHash
    h.sound (h.walk hu)
  have hwalk := hv.walk n (indexPath_length i)
  rw [leavesOf_update m hi] at hwalk
  exact ⟨_, hret, h.written hi hrec (hrec.encodings_subset h.sound.within hwalk)⟩

theorem Holds.remove_returns (hE : CollisionFree E) (h : Holds E C s n m) {i : UInt64}
    (hi : i.toNat < 2 ^ zkTrieDepth) (hu : C.usable m i) (hv : Admits E (Function.update m i none)) :
    ∃ s', (SpareMerkleTrie.remove (leafPath (indexPath i))).Returns s () s' ∧
      Holds E C s' n (Function.update m i none) := by
  obtain ⟨db', hret, hrec⟩ := SpareMerkleTrie.remove_returns hE (indexPath_length i) h.rootHash
    h.sound (h.walk hu)
  have hwalk := hv.walk n (indexPath_length i)
  rw [leavesOf_update m hi] at hwalk
  exact ⟨_, hret, h.written hi hrec (hrec.encodings_subset h.sound.within hwalk)⟩

theorem Holds.setNextFreeNode_returns (hE : CollisionFree E) (h : Holds E C s n m) (hm : Admits E m)
    (free : UInt64) :
    ∃ s', (SpareMerkleTrie.setNextFreeNode free).Returns s () s' ∧ Holds E C s' free m := by
  obtain ⟨db', hret, hrec⟩ := SpareMerkleTrie.setNextFreeNode_returns hE free h.rootHash h.sound h.top
  refine ⟨_, hret, h.freed hrec (hrec.encodings_subset h.sound.within ?_)⟩
  intro x hx
  rw [List.mem_singleton.mp hx]
  exact (hm free).top

theorem known_within {db : D} (hdb : encodings (known db) ⊆ E) {x : TreeNode} (hx : entry x ∈ known db) :
    x ∈ within E :=
  fun _ hb => hdb ⟨entry x, hx, hb⟩

theorem Holds.commits (h : Represents E s n m) : Commits E s.trie.rootHash n m where
  root_eq := h.rootHash.symm
  top := known_within h.sound.within h.top
  nodes x hx := known_within h.sound.within (h.cover x hx)

end Admits

namespace ZkTrie

variable [TrieHash] {D : Type} [Database D] [NodeStore D] {E : Set Bytes} {s : Session D}
  {C : Coverage D} {n : UInt64} {m : IndexMap} {parse : Bytes → Option LeafOpening}
  {dec : LeafOpening → LeafOpening}

theorem rewriteLeaf_returns (hE : CollisionFree E) (hparse : Decodes parse dec)
    (h : Holds E C s n m) {i : UInt64} (hi : i.toNat < 2 ^ zkTrieDepth) (hu : C.usable m i)
    {l : LeafOpening} (hl : m i = some l.leafValue) (change : LeafOpening → LeafOpening)
    (hv : Admits E (Function.update m i (some (change (dec l)).leafValue))) :
    ∃ s', (rewriteLeaf parse (leafPath (indexPath i)) change).Returns s () s' ∧
      Holds E C s' n (Function.update m i (some (change (dec l)).leafValue)) := by
  obtain ⟨s', hret, hs'⟩ := h.put_returns hE hi hu (change (dec l)).leafValue hv
  exact ⟨s', (Action.Returns.read (parseNode_eq hE hparse h hi hu hl)).bind hret, hs'⟩

theorem updateIndex_returns (h : Holds E C s n m) (k : SH256) (v : FlattenedLeaf) :
    ∃ s', (updateIndex k v).Returns s () s' ∧ Holds E C s' n m :=
  ⟨{ s with db := Database.updateIndex k v s.db }, rfl,
    h.of_nodes_eq rfl (NodeStore.nodes_updateIndex s.db k v)⟩

theorem removeIndex_returns (h : Holds E C s n m) (k : SH256) :
    ∃ s', (removeIndex k).Returns s () s' ∧ Holds E C s' n m :=
  ⟨{ s with db := Database.removeIndex k s.db }, rfl,
    h.of_nodes_eq rfl (NodeStore.nodes_removeIndex s.db k)⟩

variable [Profile]

theorem incrementNextFreeLeafNodeIndex_returns (hE : CollisionFree E) (h : Holds E C s n m)
    (hm : Admits E m) (hn : n.toNat < 2 ^ zkTrieDepth) :
    ∃ s', incrementNextFreeLeafNodeIndex.Returns s (n + 1) s' ∧ Holds E C s' (n + 1) m := by
  obtain ⟨s', hret, hs'⟩ := h.setNextFreeNode_returns hE hm (n + 1)
  refine ⟨s', ?_, hs'⟩
  unfold incrementNextFreeLeafNodeIndex
  apply (Action.Returns.read (h.nextFreeNode hE)).bind
  rw [addU64_one hn]
  exact (Action.Returns.lift _ _).bind (hret.bind (Action.Returns.pure _ _))

section Operations

variable {m₁ m₂ m₃ : IndexMap} {li ci xi : UInt64} {l c x : LeafOpening} {hkey hval : SH256}
  {key value : Bytes}

theorem insertLeaf_stops (hE : CollisionFree E) (hparse : Decodes parse dec) (h : Holds E C s n m)
    (hli : li.toNat < 2 ^ zkTrieDepth) (hxi : xi.toNat < 2 ^ zkTrieDepth) (hul : C.usable m li)
    (hl : m li = some l.leafValue)
    (hm₁ : Function.update m li (some ((dec l).newNextLeaf n).leafValue) = m₁) (hv₁ : Admits E m₁)
    (hfull : getLeafPath n = none) :
    ∃ s', (insertLeaf parse hkey ⟨li, none, xi⟩ value).Stops s .panic s' ∧ Holds E C s' n m₁ := by
  subst hm₁
  obtain ⟨s₁, hret₁, h₁⟩ := rewriteLeaf_returns hE hparse h hli hul hl (·.newNextLeaf n) hv₁
  refine ⟨s₁, ?_, h₁⟩
  unfold insertLeaf
  simp only [KeyRange.leftPath, KeyRange.rightPath, getLeafPath_of_lt hli, getLeafPath_of_lt hxi,
    orPanic_some]
  apply (Action.Returns.lift _ _).stops
  apply (Action.Returns.lift _ _).stops
  apply (Action.Returns.read (h.nextFreeNode hE)).stops
  apply hret₁.stops
  rw [hfull]
  exact Action.Stops.head rfl

theorem insertLeaf_returns (hE : CollisionFree E) (hparse : Decodes parse dec) (h : Holds E C s n m)
    (hli : li.toNat < 2 ^ zkTrieDepth) (hxi : xi.toNat < 2 ^ zkTrieDepth)
    (hn : n.toNat < 2 ^ zkTrieDepth) (hul : C.usable m li) (hun : C.usable m₁ n) (hux : C.usable m₂ xi)
    (hl : m li = some l.leafValue)
    (hm₁ : Function.update m li (some ((dec l).newNextLeaf n).leafValue) = m₁)
    (hm₂ : Function.update m₁ n (some (LeafOpening.new li xi hkey hval).leafValue) = m₂)
    (hx : m₂ xi = some x.leafValue)
    (hm₃ : Function.update m₂ xi (some ((dec x).newPrevLeaf n).leafValue) = m₃)
    (hv₁ : Admits E m₁) (hv₂ : Admits E m₂) (hv₃ : Admits E m₃)
    (hvalue : TrieHash.sum value = .ok hval) :
    ∃ s', (insertLeaf parse hkey ⟨li, none, xi⟩ value).Returns s () s' ∧ Holds E C s' (n + 1) m₃ := by
  subst hm₁ hm₂ hm₃
  have hhash : trieHash value = .ok hval := by rw [trieHash, hvalue]
  obtain ⟨s₁, hret₁, h₁⟩ := rewriteLeaf_returns hE hparse h hli hul hl (·.newNextLeaf n) hv₁
  obtain ⟨s₂, hret₂, h₂⟩ := updateIndex_returns h₁ hkey ⟨n, value⟩
  obtain ⟨s₃, hret₃, h₃⟩ := h₂.put_returns hE hn hun (LeafOpening.new li xi hkey hval).leafValue hv₂
  obtain ⟨s₄, hret₄, h₄⟩ := rewriteLeaf_returns hE hparse h₃ hxi hux hx (·.newPrevLeaf n) hv₃
  obtain ⟨s₅, hret₅, h₅⟩ := incrementNextFreeLeafNodeIndex_returns hE h₄ hv₃ hn
  refine ⟨s₅, ?_, h₅⟩
  unfold insertLeaf
  simp only [KeyRange.leftPath, KeyRange.rightPath, getLeafPath_of_lt hli, getLeafPath_of_lt hxi,
    orPanic_some]
  apply (Action.Returns.lift _ _).bind
  apply (Action.Returns.lift _ _).bind
  apply (Action.Returns.read (h.nextFreeNode hE)).bind
  apply hret₁.bind
  rw [getLeafPath_of_lt hn, hhash]
  apply (Action.Returns.lift _ _).bind
  apply (Action.Returns.lift _ _).bind
  apply hret₂.bind
  apply hret₃.bind
  apply hret₄.bind
  exact hret₅.bind (Action.Returns.pure _ _)

theorem updateLeaf_returns (hE : CollisionFree E) (hparse : Decodes parse dec) (h : Holds E C s n m)
    (hci : ci.toNat < 2 ^ zkTrieDepth) (hu : C.usable m ci) (hc : m ci = some c.leafValue)
    (hm₁ : Function.update m ci (some ((dec c).newHval hval).leafValue) = m₁) (hv₁ : Admits E m₁)
    (old : Bytes)
    (hvalue : TrieHash.sum value = .ok hval) :
    ∃ s', (updateLeaf parse hkey ⟨ci, old⟩ value).Returns s () s' ∧ Holds E C s' n m₁ := by
  subst hm₁
  have hhash : trieHash value = .ok hval := by rw [trieHash, hvalue]
  obtain ⟨s₁, hret₁, h₁⟩ := updateIndex_returns h hkey ⟨ci, value⟩
  obtain ⟨s₂, hret₂, h₂⟩ := rewriteLeaf_returns hE hparse h₁ hci hu hc (·.newHval hval) hv₁
  refine ⟨s₂, ?_, h₂⟩
  unfold updateLeaf
  simp only [FlattenedLeaf.leafPath, getLeafPath_of_lt hci, hhash, orPanic_some]
  apply (Action.Returns.lift _ _).bind
  apply (Action.Returns.lift _ _).bind
  exact hret₁.bind hret₂

theorem remove_returns (hE : CollisionFree E) (hparse : Decodes parse dec) (h : Holds E C s n m)
    (hli : li.toNat < 2 ^ zkTrieDepth) (hci : ci.toNat < 2 ^ zkTrieDepth)
    (hxi : xi.toNat < 2 ^ zkTrieDepth) (hul : C.usable m li) (huc : C.usable m₁ ci) (hux : C.usable m₂ xi)
    (hl : m li = some l.leafValue)
    (hm₁ : Function.update m li (some ((dec l).newNextLeaf xi).leafValue) = m₁)
    (hc : m₁ ci = some c.leafValue) (hm₂ : Function.update m₁ ci none = m₂)
    (hx : m₂ xi = some x.leafValue)
    (hm₃ : Function.update m₂ xi (some ((dec x).newPrevLeaf li).leafValue) = m₃)
    (hv₁ : Admits E m₁) (hv₂ : Admits E m₂) (hv₃ : Admits E m₃) (hsum : TrieHash.sum key = .ok hkey)
    {old : Bytes} (hrange : Database.getNearestKeys s.db s.trie.rootHash hkey = some ⟨li, some ⟨ci, old⟩, xi⟩) :
    ∃ s', (remove parse key).Returns s () s' ∧ Holds E C s' n m₃ := by
  subst hm₁ hm₂ hm₃
  have hhash : trieHash key = .ok hkey := by rw [trieHash, hsum]
  have hnear : nearestKeys hkey s = .ok ⟨li, some ⟨ci, old⟩, xi⟩ := by
    rw [nearestKeys, hrange]
    rfl
  obtain ⟨s₁, hret₁, h₁⟩ := rewriteLeaf_returns hE hparse h hli hul hl (·.newNextLeaf xi) hv₁
  obtain ⟨s₂, hret₂, h₂⟩ := removeIndex_returns h₁ hkey
  obtain ⟨s₃, hret₃, h₃⟩ := h₂.remove_returns hE hci huc hv₂
  obtain ⟨s₄, hret₄, h₄⟩ := rewriteLeaf_returns hE hparse h₃ hxi hux hx (·.newPrevLeaf li) hv₃
  refine ⟨s₄, ?_, h₄⟩
  unfold remove
  rw [hhash]
  apply (Action.Returns.lift _ _).bind
  apply (Action.Returns.read hnear).bind
  simp only [KeyRange.leftPath, KeyRange.rightPath, getLeafPath_of_lt hli, getLeafPath_of_lt hci,
    getLeafPath_of_lt hxi, orPanic_some]
  apply (Action.Returns.lift _ _).bind
  apply (Action.Returns.lift _ _).bind
  apply hret₁.bind
  apply (Action.Returns.lift _ _).bind
  apply (Action.Returns.read (parseNode_eq hE hparse h₁ hci huc hc)).bind
  apply hret₂.bind
  apply hret₃.bind
  exact hret₄

theorem put_of_insert (hE : CollisionFree E) (h : Holds E C s n m)
    (hsum : TrieHash.sum key = .ok hkey)
    (hrange : Database.getNearestKeys s.db s.trie.rootHash hkey = some ⟨li, none, xi⟩)
    {s' : Session D} {n' : UInt64} (hins : (insertLeaf parse hkey ⟨li, none, xi⟩ value).Returns s () s')
    (h' : Holds E C s' n' m₁) : (put parse key value).Returns s () s' := by
  have hhash : trieHash key = .ok hkey := by rw [trieHash, hsum]
  have hnear : nearestKeys hkey s = .ok ⟨li, none, xi⟩ := by
    rw [nearestKeys, hrange]
    rfl
  unfold put
  rw [hhash]
  apply (Action.Returns.lift _ _).bind
  apply (Action.Returns.read hnear).bind
  apply (Action.Returns.read (h.subRootHash hE)).bind
  apply hins.bind
  exact (Action.Returns.read (h'.subRootHash hE)).bind (Action.Returns.pure _ _)

theorem put_stops (hE : CollisionFree E) (h : Holds E C s n m) (hsum : TrieHash.sum key = .ok hkey)
    (hrange : Database.getNearestKeys s.db s.trie.rootHash hkey = some ⟨li, none, xi⟩)
    {s' : Session D} (hins : (insertLeaf parse hkey ⟨li, none, xi⟩ value).Stops s .panic s') :
    (put parse key value).Stops s .panic s' := by
  have hhash : trieHash key = .ok hkey := by rw [trieHash, hsum]
  have hnear : nearestKeys hkey s = .ok ⟨li, none, xi⟩ := by
    rw [nearestKeys, hrange]
    rfl
  unfold put
  rw [hhash]
  apply (Action.Returns.lift _ _).stops
  apply (Action.Returns.read hnear).stops
  apply (Action.Returns.read (h.subRootHash hE)).stops
  exact hins.head

theorem put_of_update (hE : CollisionFree E) (h : Holds E C s n m)
    (hsum : TrieHash.sum key = .ok hkey) {old : Bytes}
    (hrange : Database.getNearestKeys s.db s.trie.rootHash hkey = some ⟨li, some ⟨ci, old⟩, xi⟩)
    {s' : Session D} {n' : UInt64} (hupd : (updateLeaf parse hkey ⟨ci, old⟩ value).Returns s () s')
    (h' : Holds E C s' n' m₁) : (put parse key value).Returns s () s' := by
  have hhash : trieHash key = .ok hkey := by rw [trieHash, hsum]
  have hnear : nearestKeys hkey s = .ok ⟨li, some ⟨ci, old⟩, xi⟩ := by
    rw [nearestKeys, hrange]
    rfl
  unfold put
  rw [hhash]
  apply (Action.Returns.lift _ _).bind
  apply (Action.Returns.read hnear).bind
  apply (Action.Returns.read (h.subRootHash hE)).bind
  apply hupd.bind
  exact (Action.Returns.read (h'.subRootHash hE)).bind (Action.Returns.pure _ _)

theorem setHeadAndTail_returns (hE : CollisionFree E) (h : Represents E s 0 m)
    (hm₁ : Function.update m 0 (some LeafOpening.head.leafValue) = m₁)
    (hm₂ : Function.update m₁ 1 (some LeafOpening.tail.leafValue) = m₂)
    (hv₁ : Admits E m₁) (hv₂ : Admits E m₂) :
    ∃ s', setHeadAndTail.Returns s () s' ∧ Represents E s' 2 m₂ := by
  subst hm₁ hm₂
  have hzero : (0 : UInt64).toNat < 2 ^ zkTrieDepth := by decide
  have hone : (1 : UInt64).toNat < 2 ^ zkTrieDepth := by decide
  obtain ⟨s₁, hret₁, h₁⟩ := h.put_returns hE hzero hzero LeafOpening.head.leafValue hv₁
  obtain ⟨s₂, hret₂, h₂⟩ := updateIndex_returns h₁ LeafOpening.head.hkey FlattenedLeaf.head
  obtain ⟨s₃, hret₃, h₃⟩ := incrementNextFreeLeafNodeIndex_returns hE h₂ hv₁ hzero
  obtain ⟨s₄, hret₄, h₄⟩ := updateIndex_returns h₃ LeafOpening.tail.hkey FlattenedLeaf.tail
  obtain ⟨s₅, hret₅, h₅⟩ := h₄.put_returns hE hone hone LeafOpening.tail.leafValue hv₂
  obtain ⟨s₆, hret₆, h₆⟩ := incrementNextFreeLeafNodeIndex_returns hE h₅ hv₂ hone
  refine ⟨s₆, ?_, h₆⟩
  unfold setHeadAndTail
  apply (Action.Returns.read (h.nextFreeNode hE)).bind
  rw [getLeafPath_of_lt hzero]
  apply (Action.Returns.lift _ _).bind
  apply hret₁.bind
  apply hret₂.bind
  apply hret₃.bind
  apply (Action.Returns.read (h₃.nextFreeNode hE)).bind
  apply hret₄.bind
  rw [show (0 : UInt64) + 1 = 1 from rfl, getLeafPath_of_lt hone]
  apply (Action.Returns.lift _ _).bind
  apply hret₅.bind
  exact hret₆.bind (Action.Returns.pure _ _)

end Operations

end ZkTrie

end LineaSgxProver.Zktrie
