import LineaSgxProver.Zktrie.LeafOps
import LineaSgxProver.Zktrie.TraceStore

namespace LineaSgxProver.Zktrie

open Library
open MerkleTree (Leaves)
open LinkedList (first last)

/-- A trie: its leaves, sorted between the head and the tail, and its next free index. -/
structure TrieState where
  cells : List Cell
  free : UInt64
  ordered : Ordered cells free

def TrieState.map (st : TrieState) : IndexMap := treeMap st.cells

section Honest

variable [TrieHash]

def subRootOf (m : IndexMap) : SH256 := MerkleTree.root treeDigest zkTrieDepth (leavesOf m)

def TrieState.root (st : TrieState) : SH256 := worldRoot st.free (leavesOf st.map)

/-- The siblings of a leaf, from the leaf upwards. -/
def proofAt (m : IndexMap) (i : UInt64) : TraceProof :=
  ⟨i, MerkleTree.siblings treeDigest (indexPath i) (leavesOf m)⟩

/-- The trace of an operation, written by one who has the whole tree: every proof is taken from the
tree as it is before its own leaf is written. -/
inductive Honest : TrieState → Trace → TrieState → Prop
  | read {as bs : List Cell} {l c x : Cell} {free : UInt64} (h : Ordered (as ++ l :: c :: x :: bs) free)
      (location key value : Bytes) (hkey : TrieHash.sum key = .ok c.2.hkey)
      (hval : TrieHash.sum value = .ok c.2.hval) :
      Honest ⟨as ++ l :: c :: x :: bs, free, h⟩
        (.read {
          location := location, nextFreeNode := free, key := key, value := value
          subRoot := subRootOf (treeMap (as ++ l :: c :: x :: bs))
          leaf := opening ⟨l.1, c.2, x.1⟩
          proof := proofAt (treeMap (as ++ l :: c :: x :: bs)) c.1 })
        ⟨as ++ l :: c :: x :: bs, free, h⟩
  | readZero {as bs : List Cell} {l x : Cell} {free : UInt64} (h : Ordered (as ++ l :: x :: bs) free)
      {k : SH256} (location key : Bytes) (hkey : TrieHash.sum key = .ok k)
      (hl : l.2.hkey < k) (hx : k < x.2.hkey) :
      Honest ⟨as ++ l :: x :: bs, free, h⟩
        (.readZero {
          location := location, nextFreeNode := free, key := key
          subRoot := subRootOf (treeMap (as ++ l :: x :: bs))
          leftLeaf := opening ⟨last 0 as, l.2, x.1⟩
          rightLeaf := opening ⟨l.1, x.2, first 1 bs⟩
          leftProof := proofAt (treeMap (as ++ l :: x :: bs)) l.1
          rightProof := proofAt (treeMap (as ++ l :: x :: bs)) x.1 })
        ⟨as ++ l :: x :: bs, free, h⟩
  | insertion {as bs : List Cell} {l x : Cell} {free : UInt64} (h : Ordered (as ++ l :: x :: bs) free)
      {e : Entry} (location key value : Bytes) (hkey : TrieHash.sum key = .ok e.hkey)
      (hval : TrieHash.sum value = .ok e.hval) (hl : l.2.hkey < e.hkey) (hx : e.hkey < x.2.hkey)
      (hfree : free.toNat < 2 ^ zkTrieDepth) :
      Honest ⟨as ++ l :: x :: bs, free, h⟩
        (.insertion {
          location := location, newNextFreeNode := free + 1, key := key, value := value
          oldSubRoot := subRootOf (treeMap (as ++ l :: x :: bs))
          newSubRoot := subRootOf (treeMap (as ++ l :: (free, e) :: x :: bs))
          leftProof := proofAt (treeMap (as ++ l :: x :: bs)) l.1
          newProof := proofAt (insertLeft as l (free, e) x bs) free
          rightProof := proofAt (insertNew as l (free, e) x bs) x.1
          priorLeftLeaf := opening ⟨last 0 as, l.2, x.1⟩
          priorRightLeaf := opening ⟨l.1, x.2, first 1 bs⟩ })
        ⟨as ++ l :: (free, e) :: x :: bs, free + 1, h.insert hl hx hfree⟩
  | update {as bs : List Cell} {l c x : Cell} {free : UInt64} (h : Ordered (as ++ l :: c :: x :: bs) free)
      {hval : SH256} (location key oldValue newValue : Bytes) (hkey : TrieHash.sum key = .ok c.2.hkey)
      (hold : TrieHash.sum oldValue = .ok c.2.hval) (hnew : TrieHash.sum newValue = .ok hval) :
      Honest ⟨as ++ l :: c :: x :: bs, free, h⟩
        (.update {
          location := location, newNextFreeNode := free, key := key, oldValue := oldValue
          newValue := newValue
          oldSubRoot := subRootOf (treeMap (as ++ l :: c :: x :: bs))
          newSubRoot := subRootOf (treeMap (as ++ l :: (c.1, ⟨c.2.hkey, hval⟩) :: x :: bs))
          proof := proofAt (treeMap (as ++ l :: c :: x :: bs)) c.1
          priorUpdatedLeaf := opening ⟨l.1, c.2, x.1⟩ })
        ⟨as ++ l :: (c.1, ⟨c.2.hkey, hval⟩) :: x :: bs, free, h.update hval⟩
  | deletion {as bs : List Cell} {l c x : Cell} {free : UInt64}
      (h : Ordered (as ++ l :: c :: x :: bs) free) (location key deleteValue : Bytes)
      (hkey : TrieHash.sum key = .ok c.2.hkey) (hold : TrieHash.sum deleteValue = .ok c.2.hval) :
      Honest ⟨as ++ l :: c :: x :: bs, free, h⟩
        (.deletion {
          location := location, newNextFreeNode := free, key := key, deleteValue := deleteValue
          oldSubRoot := subRootOf (treeMap (as ++ l :: c :: x :: bs))
          newSubRoot := subRootOf (treeMap (as ++ l :: x :: bs))
          leftProof := proofAt (treeMap (as ++ l :: c :: x :: bs)) l.1
          deleteProof := proofAt (deleteLeft as l c x bs) c.1
          rightProof := proofAt (deleteOld as l c x bs) x.1
          priorLeftLeaf := opening ⟨last 0 as, l.2, c.1⟩
          priorDeleteLeaf := opening ⟨l.1, c.2, x.1⟩
          priorRightLeaf := opening ⟨c.1, x.2, first 1 bs⟩ })
        ⟨as ++ l :: x :: bs, free, h.erase⟩

/-- A run, as its traces, each with the state after it. -/
def HonestRun : TrieState → List (Trace × TrieState) → Prop
  | _, [] => True
  | st, (t, st') :: run => Honest st t st' ∧ HonestRun st' run

end Honest

section Nodes

variable [TrieHash]

theorem buildLoop_climb (q rest : List Bool) {path : Bytes} (hpath : path = leafPath (q ++ rest))
    {sibs : List SH256} (hlen : sibs.length = q.length) (n : TreeNode) :
    TraceProof.buildLoop path sibs (Node.ofTree n) =
      some ((MerkleTree.climb treeDigest (List.zip q.reverse sibs) n).map Node.ofTree) := by
  induction sibs generalizing q rest n with
  | nil =>
    obtain rfl := List.length_eq_zero_iff.mp hlen.symm
    rfl
  | cons s sibs ih =>
    obtain ⟨q, b, rfl, hlen'⟩ := MerkleTree.exists_concat hlen.symm
    rw [List.append_assoc] at hpath
    have hbit : path[sibs.length + 1]? = some (bitByte b) := by
      rw [hpath, ← hlen']
      exact leafPath_bit q rest b
    have hstep : (if bitByte b = 0 then Node.rawBranch (Node.ofTree n).hash s
        else Node.rawBranch s (Node.ofTree n).hash) =
        Node.ofTree (MerkleTree.join b (treeDigest n) s) := by
      cases b <;> rfl
    unfold TraceProof.buildLoop
    rw [hbit]
    change (TraceProof.buildLoop path sibs (if bitByte b = 0 then _ else _)).bind _ = _
    rw [hstep, ih q (b :: rest) hpath hlen'.symm, List.reverse_append]
    rfl

theorem buildNodes_climb [Profile] {i : UInt64} {sibs : List SH256} {p : List Bool}
    (hpath : getLeafPath i = some (leafPath p)) (hlen : sibs.length = p.length)
    (leaf : Option LeafOpening) :
    TraceProof.buildNodes ⟨i, sibs⟩ leaf = some ((MerkleTree.climb treeDigest (List.zip p.reverse sibs)
      (MerkleTree.bottom (leaf.map LeafOpening.leafValue))).map Node.ofTree) := by
  have hdrop : (leafPath p).drop ((leafPath p).length - 1) = [LeafType.value] :=
    List.drop_left' (by simp [leafPath])
  have hloop := buildLoop_climb p [] (by simp : leafPath p = leafPath (p ++ [])) hlen
    (MerkleTree.bottom (leaf.map LeafOpening.leafValue))
  unfold TraceProof.buildNodes
  rw [hpath]
  cases leaf with
  | none => exact hloop
  | some l =>
    have hnode : Node.leaf ((leafPath p).drop ((leafPath p).length - 1)) l.toBytes =
        some (Node.ofTree (MerkleTree.bottom (some l.leafValue))) := by
      rw [hdrop]
      exact Node.leaf_eq l.leafValue
    change (Node.leaf ((leafPath p).drop ((leafPath p).length - 1)) l.toBytes).bind _ = _
    rw [hnode]
    exact hloop

/-- An honest proof rebuilds the nodes from the leaf to the sub root. -/
theorem buildNodes_route [Profile] {m : IndexMap} {i : UInt64} (hi : i.toNat < 2 ^ zkTrieDepth)
    {leaf : Option LeafOpening} (hleaf : m i = leaf.map LeafOpening.leafValue) :
    (proofAt m i).buildNodes leaf =
      some ((MerkleTree.route treeDigest (indexPath i) (leavesOf m)).reverse.map Node.ofTree) := by
  have hroute := MerkleTree.climb_siblings treeDigest (indexPath i) (leavesOf m)
  have hlen := MerkleTree.siblings_length treeDigest (indexPath i) (leavesOf m)
  have hpath := getLeafPath_of_lt hi
  rw [leavesOf_indexPath m hi, hleaf] at hroute
  rw [proofAt, ← hroute, buildNodes_climb hpath hlen]

theorem wrote_of_route {D : Type} [Database D] [NodeStore D] {db : D} {m : IndexMap} {i : UInt64}
    (h : ∀ n ∈ (MerkleTree.route treeDigest (indexPath i) (leavesOf m)).reverse.map Node.ofTree,
      (n.hash, n) ∈ known db) : Wrote db m i := by
  intro x hx
  exact h (Node.ofTree x) (List.mem_map_of_mem (List.mem_reverse.mpr hx))

theorem one_proof [Profile] {m : IndexMap} {i : UInt64} (hi : i.toNat < 2 ^ zkTrieDepth)
    {leaf : Option LeafOpening} (hleaf : m i = leaf.map LeafOpening.leafValue) :
    ∃ ns, (proofAt m i).buildNodes leaf = some ns ∧
      ∀ {D : Type} [Database D] [NodeStore D] (db : D), (∀ n ∈ ns, (n.hash, n) ∈ known db) →
        Wrote db m i :=
  ⟨_, buildNodes_route hi hleaf, fun _ h => wrote_of_route h⟩

theorem three_proofs [Profile] {a b c : IndexMap} {i j k : UInt64} (hi : i.toNat < 2 ^ zkTrieDepth)
    (hj : j.toNat < 2 ^ zkTrieDepth) (hk : k.toNat < 2 ^ zkTrieDepth) {l d r : Option LeafOpening}
    (hl : a i = l.map LeafOpening.leafValue) (hd : b j = d.map LeafOpening.leafValue)
    (hr : c k = r.map LeafOpening.leafValue) :
    ∃ ns, (do
        let left ← (proofAt a i).buildNodes l
        let mid ← (proofAt b j).buildNodes d
        let right ← (proofAt c k).buildNodes r
        some (left ++ mid ++ right)) = some ns ∧
      ∀ {D : Type} [Database D] [NodeStore D] (db : D), (∀ n ∈ ns, (n.hash, n) ∈ known db) →
        Wrote db a i ∧ Wrote db b j ∧ Wrote db c k := by
  obtain ⟨left, hleft, hwl⟩ := one_proof hi hl
  obtain ⟨mid, hmid, hwd⟩ := one_proof hj hd
  obtain ⟨right, hright, hwr⟩ := one_proof hk hr
  refine ⟨left ++ mid ++ right, by rw [hleft, hmid, hright]; rfl, ?_⟩
  intro D _ _ db h
  refine ⟨hwl db fun n hn => h n ?_, hwd db fun n hn => h n ?_, hwr db fun n hn => h n ?_⟩
  · exact List.mem_append_left _ (List.mem_append_left _ hn)
  · exact List.mem_append_left _ (List.mem_append_right _ hn)
  · exact List.mem_append_right _ hn

end Nodes

namespace Honest

variable [TrieHash] [Profile] {st st' : TrieState} {t : Trace}

theorem oldState (h : Honest st t st') : t.oldState = some (st.free, subRootOf st.map) := by
  cases h with
  | read h => rfl
  | readZero h => rfl
  | update h => rfl
  | deletion h => rfl
  | @insertion as bs l x free h e location key value hkey hval hl hx hfree =>
    have hnext := next_toNat hfree
    have hone : (1 : UInt64).toNat ≤ (free + 1).toNat := by
      change 1 ≤ (free + 1).toNat
      omega
    have hsub : subU64 (free + 1) 1 = some free := by
      rw [subU64_of_le hone, UInt64.add_sub_cancel]
    change (subU64 (free + 1) 1).map _ = _
    rw [hsub]
    rfl

theorem oldTopNode (h : Honest st t st') :
    t.oldTopNode = some (Node.ofTree (worldTop st.free (leavesOf st.map))) := by
  rw [Trace.oldTopNode, h.oldState]
  rfl

theorem oldTopHash (h : Honest st t st') : t.oldTopHash = some st.root := by
  rw [Trace.oldTopHash, h.oldTopNode]
  rfl

omit [Profile] in
/-- What an honest trace says about its key is the truth about the tree. -/
theorem neighbours (h : Honest st t st') :
    ∃ hkey, TrieHash.sum t.key = .ok hkey ∧ Neighbours st.map hkey t.keyRange := by
  cases h with
  | read h location key value hkey hval => exact ⟨_, hkey, neighbours_at h hval⟩
  | readZero h location key hkey hl hx => exact ⟨_, hkey, neighbours_between h hl hx⟩
  | insertion h location key value hkey hval hl hx hfree => exact ⟨_, hkey, neighbours_between h hl hx⟩
  | update h location key oldValue newValue hkey hold hnew => exact ⟨_, hkey, neighbours_at h hold⟩
  | deletion h location key deleteValue hkey hold => exact ⟨_, hkey, neighbours_at h hold⟩

theorem insertion_proofs {as bs : List Cell} {l x : Cell} {free : UInt64}
    (h : Ordered (as ++ l :: x :: bs) free) {e : Entry} (hl : l.2.hkey < e.hkey)
    (hx : e.hkey < x.2.hkey) (hfree : free.toNat < 2 ^ zkTrieDepth) :
    ∃ ns, (do
        let left ← (proofAt (treeMap (as ++ l :: x :: bs)) l.1).buildNodes
          (some (opening ⟨last 0 as, l.2, x.1⟩))
        let new ← (proofAt (insertLeft as l (free, e) x bs) free).buildNodes none
        let right ← (proofAt (insertNew as l (free, e) x bs) x.1).buildNodes
          (some (opening ⟨l.1, x.2, first 1 bs⟩))
        some (left ++ new ++ right)) = some ns ∧
      ∀ {D : Type} [Database D] [NodeStore D] (db : D), (∀ n ∈ ns, (n.hash, n) ∈ known db) →
        Wrote db (treeMap (as ++ l :: x :: bs)) l.1 ∧
          Wrote db (insertLeft as l (free, e) x bs) free ∧
          Wrote db (insertNew as l (free, e) x bs) x.1 := by
  have hnew := h.insert (e := e) hl hx hfree
  exact three_proofs (h.index_lt (by simp)) hfree (h.index_lt (by simp)) (treeMap_pair h.nodup).1
    (insertLeft_new hnew.nodup) (insertNew_right hnew.nodup)

theorem deletion_proofs {as bs : List Cell} {l c x : Cell} {free : UInt64}
    (h : Ordered (as ++ l :: c :: x :: bs) free) :
    ∃ ns, (do
        let left ← (proofAt (treeMap (as ++ l :: c :: x :: bs)) l.1).buildNodes
          (some (opening ⟨last 0 as, l.2, c.1⟩))
        let deleted ← (proofAt (deleteLeft as l c x bs) c.1).buildNodes
          (some (opening ⟨l.1, c.2, x.1⟩))
        let right ← (proofAt (deleteOld as l c x bs) x.1).buildNodes
          (some (opening ⟨c.1, x.2, first 1 bs⟩))
        some (left ++ deleted ++ right)) = some ns ∧
      ∀ {D : Type} [Database D] [NodeStore D] (db : D), (∀ n ∈ ns, (n.hash, n) ∈ known db) →
        Wrote db (treeMap (as ++ l :: c :: x :: bs)) l.1 ∧ Wrote db (deleteLeft as l c x bs) c.1 ∧
          Wrote db (deleteOld as l c x bs) x.1 :=
  three_proofs (h.index_lt (by simp)) (h.index_lt (by simp)) (h.index_lt (by simp))
    (treeMap_three h.nodup).1 (deleteLeft_old h.nodup) (deleteOld_right h.nodup)

theorem update_proof {as bs : List Cell} {l c x : Cell} {free : UInt64}
    (h : Ordered (as ++ l :: c :: x :: bs) free) :
    ∃ ns, (proofAt (treeMap (as ++ l :: c :: x :: bs)) c.1).buildNodes
        (some (opening ⟨l.1, c.2, x.1⟩)) = some ns ∧
      ∀ {D : Type} [Database D] [NodeStore D] (db : D), (∀ n ∈ ns, (n.hash, n) ∈ known db) →
        Wrote db (treeMap (as ++ l :: c :: x :: bs)) c.1 :=
  one_proof (h.index_lt (by simp)) (treeMap_three h.nodup).2.1

theorem nodes (h : Honest st t st') : ∃ ns, t.nodes = some ns := by
  cases h with
  | read h => exact ⟨_, rfl⟩
  | readZero h => exact ⟨_, rfl⟩
  | insertion h location key value hkey hval hl hx hfree =>
    obtain ⟨ns, hns, _⟩ := insertion_proofs h hl hx hfree
    exact ⟨ns, hns⟩
  | update h =>
    obtain ⟨ns, hns, _⟩ := update_proof h
    exact ⟨ns, hns⟩
  | deletion h =>
    obtain ⟨ns, hns, _⟩ := deletion_proofs h
    exact ⟨ns, hns⟩

end Honest

end LineaSgxProver.Zktrie
