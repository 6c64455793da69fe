import LineaSgxProver.Zktrie.LeafList

namespace LineaSgxProver.Zktrie

open Library
open LinkedList (Linked link store first last)

section Calls

variable [TrieHash] {D : Type} [Database D] [NodeStore D] {E : Set Bytes} {C : Coverage D}

theorem Holds.of_nodes_eq {s s' : Session D} {n : UInt64} {m : IndexMap} (h : Holds E C s n m)
    (htrie : s'.trie = s.trie) (hnodes : NodeStore.nodes s'.db = NodeStore.nodes s.db) :
    Holds E C s' n m := by
  have hknown : known s'.db = known s.db := by rw [known, known, hnodes]
  refine ⟨?_, ⟨?_, ?_⟩, ?_, C.extend h.cover ⟨[], hnodes⟩⟩
  · rw [htrie]
    exact h.rootHash
  · rw [hknown]
    exact h.sound.proper
  · rw [hknown]
    exact h.sound.within
  · rw [hknown]
    exact h.top

theorem Holds.nextFreeNode (hE : CollisionFree E) {s : Session D} {n : UInt64} {m : IndexMap}
    (h : Holds E C s n m) : ZkTrie.nextFreeNode s = .ok n :=
  SpareMerkleTrie.nextFreeNode_eq hE h.rootHash h.sound h.top

theorem Holds.subRootHash (hE : CollisionFree E) {s : Session D} {n : UInt64} {m : IndexMap}
    (h : Holds E C s n m) :
    ZkTrie.subRootHash s = .ok (MerkleTree.root treeDigest zkTrieDepth (leavesOf m)) :=
  SpareMerkleTrie.subRootHash_eq hE h.rootHash h.sound h.top

end Calls

namespace ZkTrie

section Moves

variable [TrieHash] {D : Type} [Database D] {R : D → D → Prop} {parse : Bytes → Option LeafOpening}

theorem rewriteLeaf_moves [NodeSteady R] (path : Bytes) (change : LeafOpening → LeafOpening) :
    Moves R (rewriteLeaf parse path change : Call (Session D) Unit) :=
  (Moves.read _).bind fun _ => SpareMerkleTrie.put_moves _ _

variable [Steady R]

theorem updateIndex_moves (k : SH256) (v : FlattenedLeaf) :
    Moves R (updateIndex k v : Call (Session D) Unit) :=
  fun s => Steady.index s.db k v

theorem removeIndex_moves (k : SH256) : Moves R (removeIndex k : Call (Session D) Unit) :=
  fun s => Steady.unindex s.db k

variable [Profile]

theorem incrementNextFreeLeafNodeIndex_moves :
    Moves R (incrementNextFreeLeafNodeIndex : Call (Session D) UInt64) := by
  refine (Moves.read _).bind fun found => ?_
  refine (Moves.lift _).bind fun next => ?_
  exact (SpareMerkleTrie.setNextFreeNode_moves next).bind fun _ => Moves.pure next

theorem setHeadAndTail_moves : Moves R (setHeadAndTail : Call (Session D) Unit) := by
  refine (Moves.read _).bind fun index => (Moves.lift _).bind fun path => ?_
  refine (SpareMerkleTrie.put_moves _ _).bind fun _ => (updateIndex_moves _ _).bind fun _ => ?_
  refine incrementNextFreeLeafNodeIndex_moves.bind fun _ => (Moves.read _).bind fun index => ?_
  refine (updateIndex_moves _ _).bind fun _ => (Moves.lift _).bind fun path => ?_
  refine (SpareMerkleTrie.put_moves _ _).bind fun _ => ?_
  exact incrementNextFreeLeafNodeIndex_moves.bind fun _ => Moves.pure ()

theorem insertLeaf_moves (hkey : SH256) (range : KeyRange) (value : Bytes) :
    Moves R (insertLeaf parse hkey range value : Call (Session D) Unit) := by
  refine (Moves.lift _).bind fun left => ?_
  refine (Moves.lift _).bind fun right => ?_
  refine (Moves.read _).bind fun free => ?_
  refine (rewriteLeaf_moves _ _).bind fun _ => ?_
  refine (Moves.lift _).bind fun new => ?_
  refine (Moves.lift _).bind fun hval => ?_
  refine (updateIndex_moves _ _).bind fun _ => ?_
  refine (SpareMerkleTrie.put_moves _ _).bind fun _ => ?_
  refine (rewriteLeaf_moves _ _).bind fun _ => ?_
  exact incrementNextFreeLeafNodeIndex_moves.bind fun _ => Moves.pure ()

theorem updateLeaf_moves (hkey : SH256) (current : FlattenedLeaf) (value : Bytes) :
    Moves R (updateLeaf parse hkey current value : Call (Session D) Unit) := by
  refine (Moves.lift _).bind fun path => ?_
  refine (Moves.lift _).bind fun hval => ?_
  exact (updateIndex_moves _ _).bind fun _ => rewriteLeaf_moves _ _

theorem remove_moves (key : Bytes) : Moves R (remove parse key : Call (Session D) Unit) := by
  refine (Moves.lift _).bind fun hkey => ?_
  refine (Moves.read _).bind fun range => ?_
  cases range.center with
  | none => exact Moves.pure ()
  | some current =>
    refine (Moves.lift _).bind fun left => ?_
    refine (Moves.lift _).bind fun right => ?_
    refine (rewriteLeaf_moves _ _).bind fun _ => ?_
    refine (Moves.lift _).bind fun path => ?_
    refine (Moves.read _).bind fun _ => ?_
    refine (removeIndex_moves _).bind fun _ => ?_
    exact (SpareMerkleTrie.remove_moves _).bind fun _ => rewriteLeaf_moves _ _

theorem put_moves (key value : Bytes) : Moves R (put parse key value : Call (Session D) Unit) := by
  refine (Moves.lift _).bind fun hkey => ?_
  refine (Moves.read _).bind fun range => ?_
  refine (Moves.read _).bind fun _ => ?_
  have hafter : Moves R (do
      let _ ← Action.read subRootHash
      pure () : Call (Session D) Unit) := (Moves.read _).bind fun _ => Moves.pure ()
  cases range.center with
  | none => exact (insertLeaf_moves _ _ _).bind fun _ => hafter
  | some current => exact (updateLeaf_moves _ _ _).bind fun _ => hafter

end Moves

section Leaves

variable [TrieHash] {D : Type} [Database D] [NodeStore D] {E : Set Bytes} {C : Coverage D}

theorem updateIndex_reaches {s : Session D} {n : UInt64} {m : IndexMap} (h : Holds E C s n m)
    (k : SH256) (v : FlattenedLeaf) :
    Reaches E s (updateIndex k v) fun _ s' => Holds E C s' n m :=
  fun _ => ⟨(), { s with db := Database.updateIndex k v s.db }, rfl,
    h.of_nodes_eq rfl (NodeStore.nodes_updateIndex s.db k v)⟩

theorem removeIndex_reaches {s : Session D} {n : UInt64} {m : IndexMap} (h : Holds E C s n m)
    (k : SH256) : Reaches E s (removeIndex k) fun _ s' => Holds E C s' n m :=
  fun _ => ⟨(), { s with db := Database.removeIndex k s.db }, rfl,
    h.of_nodes_eq rfl (NodeStore.nodes_removeIndex s.db k)⟩

/-- The decoder reads back what `to_bytes` writes, up to `dec`. -/
def Decodes (parse : Bytes → Option LeafOpening) (dec : LeafOpening → LeafOpening) : Prop :=
  ∀ l : LeafOpening, parse l.toBytes = some (dec l)

/-- The decoder is right about everything except, perhaps, the next leaf. -/
def SafeButNext (dec : LeafOpening → LeafOpening) : Prop :=
  ∀ (l : LeafOpening) (next : UInt64), (dec l).newNextLeaf next = l.newNextLeaf next

variable {parse : Bytes → Option LeafOpening} {dec : LeafOpening → LeafOpening}

theorem parseNode_eq (hE : CollisionFree E) (hparse : Decodes parse dec) {s : Session D}
    {n : UInt64} {m : IndexMap} (h : Holds E C s n m) {i : UInt64} (hi : i.toNat < 2 ^ zkTrieDepth)
    (hu : C.usable m i) {l : LeafOpening} (hl : m i = some l.leafValue) :
    parseNode parse (leafPath (indexPath i)) s = .ok (dec l) := by
  unfold parseNode
  rw [h.getNode hE hi hu, hl]
  change orPanic (parse l.toBytes) = _
  rw [hparse]
  rfl

theorem rewriteLeaf_reaches (hE : CollisionFree E) (hparse : Decodes parse dec) {s : Session D}
    {n : UInt64} {m : IndexMap} (h : Holds E C s n m) {i : UInt64} (hi : i.toNat < 2 ^ zkTrieDepth)
    (hu : C.usable m i) {l : LeafOpening} (hl : m i = some l.leafValue)
    (change : LeafOpening → LeafOpening) :
    Reaches E s (rewriteLeaf parse (leafPath (indexPath i)) change)
      fun _ s' => Holds E C s' n (Function.update m i (some (change (dec l)).leafValue)) ∧
        Wrote s'.db (Function.update m i (some (change (dec l)).leafValue)) i :=
  Reaches.read (parseNode_eq hE hparse h hi hu hl) (h.put hE hi hu (change (dec l)).leafValue)

end Leaves

section Operations

variable [TrieHash] [Profile] {D : Type} [Database D] [NodeStore D] {E : Set Bytes}
  {C : Coverage D} {parse : Bytes → Option LeafOpening} {dec : LeafOpening → LeafOpening}
  {as bs : List Cell} {l c x : Cell} {free : UInt64}

omit [TrieHash] in
theorem addU64_one {n : UInt64} (hn : n.toNat < 2 ^ zkTrieDepth) : addU64 n 1 = some (n + 1) := by
  apply addU64_of_lt
  have hword : 2 ^ zkTrieDepth < 2 ^ 64 := by decide
  change n.toNat + 1 < 2 ^ 64
  omega

theorem incrementNextFreeLeafNodeIndex_reaches (hE : CollisionFree E) {s : Session D} {n : UInt64}
    {m : IndexMap} (h : Holds E C s n m) (hn : n.toNat < 2 ^ zkTrieDepth) :
    Reaches E s incrementNextFreeLeafNodeIndex fun _ s' => Holds E C s' (n + 1) m := by
  refine Reaches.read (h.nextFreeNode hE) ?_
  rw [addU64_one hn]
  refine Reaches.lift ?_
  refine (h.setNextFreeNode hE (n + 1)).bind (fun _ => Moves.pure _) ?_
  intro _ s' h'
  exact Reaches.pure _ h'

theorem insertLeaf_reaches (hE : CollisionFree E) (hparse : Decodes parse dec)
    (hdec : SafeButNext dec) {s : Session D}
    (h : Holds E C s free (treeMap (as ++ l :: x :: bs)))
    (ho : Ordered (as ++ l :: x :: bs) free) {e : Entry} (hl : l.2.hkey < e.hkey)
    (hx : e.hkey < x.2.hkey) (hfree : free.toNat < 2 ^ zkTrieDepth)
    (hul : C.usable (treeMap (as ++ l :: x :: bs)) l.1)
    (huc : C.usable (insertLeft as l (free, e) x bs) free)
    (hux : C.usable (insertNew as l (free, e) x bs) x.1) {value : Bytes}
    (hval : TrieHash.sum value = .ok e.hval) :
    Reaches E s (insertLeaf parse e.hkey ⟨l.1, none, x.1⟩ value) fun _ s' =>
      Holds E C s' (free + 1) (Function.update (insertNew as l (free, e) x bs) x.1
        (some ((dec (opening ⟨l.1, x.2, first 1 bs⟩)).newPrevLeaf free).leafValue)) ∧
      Wrote s'.db (Function.update (insertNew as l (free, e) x bs) x.1
        (some ((dec (opening ⟨l.1, x.2, first 1 bs⟩)).newPrevLeaf free).leafValue)) x.1 := by
  have hnew := ho.insert hl hx hfree
  have hleft := (treeMap_pair ho.nodup).1
  have hright := insertNew_right hnew.nodup
  have hli : l.1.toNat < 2 ^ zkTrieDepth := ho.index_lt (by simp)
  have hxi : x.1.toNat < 2 ^ zkTrieDepth := ho.index_lt (by simp)
  have hhash : trieHash value = .ok e.hval := by rw [trieHash, hval]
  unfold insertLeaf
  simp only [KeyRange.leftPath, KeyRange.rightPath, getLeafPath_of_lt hli, getLeafPath_of_lt hxi,
    orPanic_some]
  refine Reaches.lift (Reaches.lift (Reaches.read (h.nextFreeNode hE) ?_))
  rw [getLeafPath_of_lt hfree, hhash]
  have hinc : Moves Extends (do
      let _ ← incrementNextFreeLeafNodeIndex
      pure () : Call (Session D) Unit) :=
    incrementNextFreeLeafNodeIndex_moves.bind fun _ => Moves.pure ()
  have hlast : Moves Extends (do
      rewriteLeaf parse (leafPath (bits zkTrieDepth x.1.toNat)) (·.newPrevLeaf free)
      let _ ← incrementNextFreeLeafNodeIndex
      pure () : Call (Session D) Unit) :=
    (rewriteLeaf_moves _ _).bind fun _ => hinc
  refine (rewriteLeaf_reaches hE hparse h hli hul hleft (·.newNextLeaf free)).bind ?_ ?_
  · intro _
    refine (Moves.lift _).bind fun _ => (Moves.lift _).bind fun _ => ?_
    exact (updateIndex_moves _ _).bind fun _ => (SpareMerkleTrie.put_moves _ _).bind fun _ => hlast
  rintro _ s₁ ⟨h₁, _⟩
  rw [hdec] at h₁
  refine Reaches.lift (Reaches.lift ?_)
  refine (updateIndex_reaches h₁ _ _).bind
    (fun _ => (SpareMerkleTrie.put_moves _ _).bind fun _ => hlast) ?_
  intro _ s₂ h₂
  refine (h₂.put hE hfree huc (LeafOpening.new l.1 x.1 e.hkey e.hval).leafValue).bind
    (fun _ => hlast) ?_
  rintro _ s₃ ⟨h₃, _⟩
  refine (rewriteLeaf_reaches hE hparse h₃ hxi hux hright (·.newPrevLeaf free)).bind
    (fun _ => hinc) ?_
  rintro _ s₄ ⟨h₄, hwrote⟩
  have hgrow : Extends s₄.db (incrementNextFreeLeafNodeIndex s₄).2.db :=
    incrementNextFreeLeafNodeIndex_moves s₄
  refine (incrementNextFreeLeafNodeIndex_reaches hE h₄ hfree).self.bind (fun _ => Moves.pure ()) ?_
  rintro _ s₅ ⟨hret, h₅⟩
  rw [hret] at hgrow
  exact Reaches.pure () ⟨h₅, hwrote.mono hgrow⟩

theorem updateLeaf_reaches (hE : CollisionFree E) (hparse : Decodes parse dec) {s : Session D}
    (h : Holds E C s free (treeMap (as ++ l :: c :: x :: bs)))
    (ho : Ordered (as ++ l :: c :: x :: bs) free)
    (hu : C.usable (treeMap (as ++ l :: c :: x :: bs)) c.1) (old : Bytes) {value : Bytes}
    {hval : SH256} (hsum : TrieHash.sum value = .ok hval) :
    Reaches E s (updateLeaf parse c.2.hkey ⟨c.1, old⟩ value) fun _ s' =>
      Holds E C s' free (Function.update (treeMap (as ++ l :: c :: x :: bs)) c.1
        (some ((dec (opening ⟨l.1, c.2, x.1⟩)).newHval hval).leafValue)) ∧
      Wrote s'.db (Function.update (treeMap (as ++ l :: c :: x :: bs)) c.1
        (some ((dec (opening ⟨l.1, c.2, x.1⟩)).newHval hval).leafValue)) c.1 := by
  have hci : c.1.toNat < 2 ^ zkTrieDepth := ho.index_lt (by simp)
  have hhash : trieHash value = .ok hval := by rw [trieHash, hsum]
  have hread := (treeMap_three ho.nodup).2.1
  unfold updateLeaf
  simp only [FlattenedLeaf.leafPath, getLeafPath_of_lt hci, hhash, orPanic_some]
  refine Reaches.lift (Reaches.lift ?_)
  refine (updateIndex_reaches h _ _).bind (fun _ => rewriteLeaf_moves _ _) ?_
  intro _ s₁ h₁
  exact rewriteLeaf_reaches hE hparse h₁ hci hu hread (·.newHval hval)

theorem remove_reaches (hE : CollisionFree E) (hparse : Decodes parse dec)
    (hdec : SafeButNext dec) {s : Session D}
    (h : Holds E C s free (treeMap (as ++ l :: c :: x :: bs)))
    (ho : Ordered (as ++ l :: c :: x :: bs) free)
    (hul : C.usable (treeMap (as ++ l :: c :: x :: bs)) l.1)
    (huc : C.usable (deleteLeft as l c x bs) c.1) (hux : C.usable (deleteOld as l c x bs) x.1)
    {key value : Bytes} (hkey : TrieHash.sum key = .ok c.2.hkey)
    (hrange : Database.getNearestKeys s.db s.trie.rootHash c.2.hkey =
      some ⟨l.1, some ⟨c.1, value⟩, x.1⟩) :
    Reaches E s (remove parse key) fun _ s' =>
      Holds E C s' free (Function.update (deleteOld as l c x bs) x.1
        (some ((dec (opening ⟨c.1, x.2, first 1 bs⟩)).newPrevLeaf l.1).leafValue)) ∧
      Wrote s'.db (Function.update (deleteOld as l c x bs) x.1
        (some ((dec (opening ⟨c.1, x.2, first 1 bs⟩)).newPrevLeaf l.1).leafValue)) x.1 := by
  have hleft := (treeMap_three ho.nodup).1
  have hli : l.1.toNat < 2 ^ zkTrieDepth := ho.index_lt (by simp)
  have hci : c.1.toNat < 2 ^ zkTrieDepth := ho.index_lt (by simp)
  have hxi : x.1.toNat < 2 ^ zkTrieDepth := ho.index_lt (by simp)
  have hhash : trieHash key = .ok c.2.hkey := by rw [trieHash, hkey]
  have hnear : nearestKeys c.2.hkey s = .ok ⟨l.1, some ⟨c.1, value⟩, x.1⟩ := by
    rw [nearestKeys, hrange]
    rfl
  unfold remove
  rw [hhash]
  refine Reaches.lift (Reaches.read hnear ?_)
  simp only [KeyRange.leftPath, KeyRange.rightPath, getLeafPath_of_lt hli, getLeafPath_of_lt hci,
    getLeafPath_of_lt hxi, orPanic_some]
  refine Reaches.lift (Reaches.lift ?_)
  have hlast : Moves Extends (rewriteLeaf parse (leafPath (bits zkTrieDepth x.1.toNat))
      (·.newPrevLeaf l.1) : Call (Session D) Unit) := rewriteLeaf_moves _ _
  refine (rewriteLeaf_reaches hE hparse h hli hul hleft (·.newNextLeaf x.1)).bind ?_ ?_
  · intro _
    refine (Moves.lift _).bind fun _ => (Moves.read _).bind fun _ => ?_
    exact (removeIndex_moves _).bind fun _ => (SpareMerkleTrie.remove_moves _).bind fun _ => hlast
  rintro _ s₁ ⟨h₁, _⟩
  rw [hdec] at h₁
  refine Reaches.lift (Reaches.read
    (parseNode_eq hE hparse h₁ hci huc (deleteLeft_old ho.nodup)) ?_)
  refine (removeIndex_reaches h₁ _).bind
    (fun _ => (SpareMerkleTrie.remove_moves _).bind fun _ => hlast) ?_
  intro _ s₂ h₂
  refine (h₂.remove hE hci huc).bind (fun _ => hlast) ?_
  intro _ s₃ h₃
  exact rewriteLeaf_reaches hE hparse h₃ hxi hux (deleteOld_right ho.nodup) (·.newPrevLeaf l.1)

theorem remove_absent_reaches {s : Session D} {n : UInt64} {m : IndexMap} (h : Holds E C s n m)
    {key : Bytes} {hkey : SH256} {l x : UInt64} (hsum : TrieHash.sum key = .ok hkey)
    (hrange : Database.getNearestKeys s.db s.trie.rootHash hkey = some ⟨l, none, x⟩) :
    Reaches E s (remove parse key) fun _ s' => Holds E C s' n m := by
  have hhash : trieHash key = .ok hkey := by rw [trieHash, hsum]
  have hnear : nearestKeys hkey s = .ok ⟨l, none, x⟩ := by
    rw [nearestKeys, hrange]
    rfl
  unfold remove
  rw [hhash]
  exact Reaches.lift (Reaches.read hnear (Reaches.pure () h))

theorem put_insert_reaches (hE : CollisionFree E) (hparse : Decodes parse dec)
    (hdec : SafeButNext dec) {s : Session D}
    (h : Holds E C s free (treeMap (as ++ l :: x :: bs)))
    (ho : Ordered (as ++ l :: x :: bs) free) {e : Entry} (hl : l.2.hkey < e.hkey)
    (hx : e.hkey < x.2.hkey) (hfree : free.toNat < 2 ^ zkTrieDepth)
    (hul : C.usable (treeMap (as ++ l :: x :: bs)) l.1)
    (huc : C.usable (insertLeft as l (free, e) x bs) free)
    (hux : C.usable (insertNew as l (free, e) x bs) x.1) {key value : Bytes}
    (hkey : TrieHash.sum key = .ok e.hkey) (hval : TrieHash.sum value = .ok e.hval)
    (hrange : Database.getNearestKeys s.db s.trie.rootHash e.hkey = some ⟨l.1, none, x.1⟩) :
    Reaches E s (put parse key value) fun _ s' =>
      Holds E C s' (free + 1) (Function.update (insertNew as l (free, e) x bs) x.1
        (some ((dec (opening ⟨l.1, x.2, first 1 bs⟩)).newPrevLeaf free).leafValue)) ∧
      Wrote s'.db (Function.update (insertNew as l (free, e) x bs) x.1
        (some ((dec (opening ⟨l.1, x.2, first 1 bs⟩)).newPrevLeaf free).leafValue)) x.1 := by
  have hhash : trieHash key = .ok e.hkey := by rw [trieHash, hkey]
  have hnear : nearestKeys e.hkey s = .ok ⟨l.1, none, x.1⟩ := by
    rw [nearestKeys, hrange]
    rfl
  unfold put
  rw [hhash]
  refine Reaches.lift (Reaches.read hnear (Reaches.read (h.subRootHash hE) ?_))
  refine (insertLeaf_reaches hE hparse hdec h ho hl hx hfree hul huc hux hval).bind
    (fun _ => (Moves.read _).bind fun _ => Moves.pure ()) ?_
  intro _ s' h'
  exact Reaches.read (h'.1.subRootHash hE) (Reaches.pure () h')

theorem put_update_reaches (hE : CollisionFree E) (hparse : Decodes parse dec) {s : Session D}
    (h : Holds E C s free (treeMap (as ++ l :: c :: x :: bs)))
    (ho : Ordered (as ++ l :: c :: x :: bs) free)
    (hu : C.usable (treeMap (as ++ l :: c :: x :: bs)) c.1) {key old value : Bytes} {hval : SH256}
    (hkey : TrieHash.sum key = .ok c.2.hkey) (hsum : TrieHash.sum value = .ok hval)
    (hrange : Database.getNearestKeys s.db s.trie.rootHash c.2.hkey =
      some ⟨l.1, some ⟨c.1, old⟩, x.1⟩) :
    Reaches E s (put parse key value) fun _ s' =>
      Holds E C s' free (Function.update (treeMap (as ++ l :: c :: x :: bs)) c.1
        (some ((dec (opening ⟨l.1, c.2, x.1⟩)).newHval hval).leafValue)) ∧
      Wrote s'.db (Function.update (treeMap (as ++ l :: c :: x :: bs)) c.1
        (some ((dec (opening ⟨l.1, c.2, x.1⟩)).newHval hval).leafValue)) c.1 := by
  have hhash : trieHash key = .ok c.2.hkey := by rw [trieHash, hkey]
  have hnear : nearestKeys c.2.hkey s = .ok ⟨l.1, some ⟨c.1, old⟩, x.1⟩ := by
    rw [nearestKeys, hrange]
    rfl
  unfold put
  rw [hhash]
  refine Reaches.lift (Reaches.read hnear (Reaches.read (h.subRootHash hE) ?_))
  refine (updateLeaf_reaches hE hparse h ho hu old hsum).bind
    (fun _ => (Moves.read _).bind fun _ => Moves.pure ()) ?_
  intro _ s' h'
  exact Reaches.read (h'.1.subRootHash hE) (Reaches.pure () h')

theorem setHeadAndTail_reaches (hE : CollisionFree E) {s : Session D}
    (h : Represents E s 0 fun _ => none) :
    Reaches E s setHeadAndTail fun _ s' =>
      Represents E s' 2 (treeMap [Cell.head, Cell.tail]) := by
  have hzero : (0 : UInt64).toNat < 2 ^ zkTrieDepth := by decide
  have hone : (1 : UInt64).toNat < 2 ^ zkTrieDepth := by decide
  have hlast : Moves Extends (do
      let _ ← incrementNextFreeLeafNodeIndex
      pure () : Call (Session D) Unit) :=
    incrementNextFreeLeafNodeIndex_moves.bind fun _ => Moves.pure ()
  have htail : ∀ path : Bytes, Moves Extends (do
      SpareMerkleTrie.put path LeafOpening.tail.toBytes
      let _ ← incrementNextFreeLeafNodeIndex
      pure () : Call (Session D) Unit) :=
    fun path => (SpareMerkleTrie.put_moves _ _).bind fun _ => hlast
  have hsecond : Moves Extends (do
      let tailIndex ← Action.read nextFreeNode
      updateIndex LeafOpening.tail.hkey FlattenedLeaf.tail
      let tailPath ← Action.lift (orPanic (getLeafPath tailIndex))
      SpareMerkleTrie.put tailPath LeafOpening.tail.toBytes
      let _ ← incrementNextFreeLeafNodeIndex
      pure () : Call (Session D) Unit) :=
    (Moves.read _).bind fun _ => (updateIndex_moves _ _).bind fun _ => (Moves.lift _).bind fun _ =>
      htail _
  unfold setHeadAndTail
  refine Reaches.read (h.nextFreeNode hE) ?_
  rw [getLeafPath_of_lt hzero]
  refine Reaches.lift ?_
  refine (h.put hE hzero hzero LeafOpening.head.leafValue).bind (fun _ => (updateIndex_moves _ _).bind
    fun _ => incrementNextFreeLeafNodeIndex_moves.bind fun _ => hsecond) ?_
  rintro _ s₁ ⟨h₁, _⟩
  refine (updateIndex_reaches h₁ _ _).bind
    (fun _ => incrementNextFreeLeafNodeIndex_moves.bind fun _ => hsecond) ?_
  intro _ s₂ h₂
  refine (incrementNextFreeLeafNodeIndex_reaches hE h₂ hzero).bind (fun _ => hsecond) ?_
  intro _ s₃ h₃
  refine Reaches.read (h₃.nextFreeNode hE) ?_
  rw [show (0 : UInt64) + 1 = 1 from rfl, getLeafPath_of_lt hone]
  refine (updateIndex_reaches h₃ _ _).bind (fun _ => (Moves.lift _).bind fun _ => htail _) ?_
  intro _ s₄ h₄
  refine Reaches.lift ((h₄.put hE hone hone LeafOpening.tail.leafValue).bind (fun _ => hlast) ?_)
  rintro _ s₅ ⟨h₅, _⟩
  refine (incrementNextFreeLeafNodeIndex_reaches hE h₅ hone).bind (fun _ => Moves.pure ()) ?_
  intro _ s₆ h₆
  rw [treeMap_ends]
  exact Reaches.pure () h₆

end Operations

end ZkTrie

end LineaSgxProver.Zktrie
