import LineaSgxProver.Zktrie.World

namespace LineaSgxProver.Zktrie

open Library
open MerkleTree (Leaves)

def indexOf (p : List Bool) : ℕ := p.foldl (fun n b => 2 * n + b.toNat) 0

theorem indexOf_concat (p : List Bool) (b : Bool) : indexOf (p ++ [b]) = 2 * indexOf p + b.toNat := by
  simp [indexOf]

theorem indexOf_bits (d n : ℕ) (hn : n < 2 ^ d) : indexOf (bits d n) = n := by
  induction d generalizing n with
  | zero =>
    have hzero : n = 0 := by omega
    rw [hzero]
    rfl
  | succ d ih =>
    rw [bits, indexOf_concat, ih (n / 2) (by omega)]
    rcases Nat.mod_two_eq_zero_or_one n with h | h
    · simp only [h]
      change 2 * (n / 2) + 0 = n
      omega
    · simp only [h]
      change 2 * (n / 2) + 1 = n
      omega

theorem bits_indexOf (p : List Bool) : bits p.length (indexOf p) = p := by
  induction p using List.reverseRecOn with
  | nil => rfl
  | append_singleton p b ih =>
    have hdiv : (2 * indexOf p + b.toNat) / 2 = indexOf p := by
      have hb := Bool.toNat_le b
      omega
    have hmod : ((2 * indexOf p + b.toNat) % 2 == 1) = b := by
      cases b <;> simp
    rw [List.length_append, List.length_singleton, bits, indexOf_concat, hdiv, hmod, ih]

theorem indexOf_lt (p : List Bool) : indexOf p < 2 ^ p.length := by
  induction p using List.reverseRecOn with
  | nil => exact Nat.one_pos
  | append_singleton p b ih =>
    have hb := Bool.toNat_le b
    rw [indexOf_concat, List.length_append, List.length_singleton, pow_succ]
    omega

/-- The leaves that a trie is meant to hold, by their index. -/
abbrev IndexMap := UInt64 → Option LeafValue

def leavesOf (m : IndexMap) : Leaves LeafValue :=
  fun p => if p.length = zkTrieDepth then m (UInt64.ofNat (indexOf p)) else none

abbrev indexPath (i : UInt64) : List Bool := bits zkTrieDepth i.toNat

theorem indexPath_length (i : UInt64) : (indexPath i).length = zkTrieDepth := bits_length _ _

theorem leavesOf_indexPath (m : IndexMap) {i : UInt64} (hi : i.toNat < 2 ^ zkTrieDepth) :
    leavesOf m (indexPath i) = m i := by
  rw [leavesOf, if_pos (bits_length _ _), indexOf_bits _ _ hi, UInt64.ofNat_toNat]

theorem leavesOf_update (m : IndexMap) {i : UInt64} (hi : i.toNat < 2 ^ zkTrieDepth)
    (v : Option LeafValue) :
    leavesOf (Function.update m i v) = (leavesOf m).set (indexPath i) v := by
  funext p
  by_cases hp : p = indexPath i
  · have hread := leavesOf_indexPath (Function.update m i v) hi
    have hnew : Function.update m i v i = v := Function.update_self ..
    have hset := MerkleTree.set_same (leavesOf m) (indexPath i) v
    rw [hp]
    exact (hread.trans hnew).trans hset.symm
  · rw [MerkleTree.set_other _ _ hp]
    unfold leavesOf
    by_cases hlen : p.length = zkTrieDepth
    · have hne : UInt64.ofNat (indexOf p) ≠ i := by
        intro heq
        have hlt : indexOf p < 2 ^ zkTrieDepth := by
          rw [← hlen]
          exact indexOf_lt p
        have hword : 2 ^ zkTrieDepth < 2 ^ 64 := by decide
        have hnat : indexOf p = i.toNat := by
          rw [← heq, UInt64.toNat_ofNat', Nat.mod_eq_of_lt (by omega)]
        apply hp
        rw [indexPath, ← hnat, ← hlen, bits_indexOf]
      rw [if_pos hlen, if_pos hlen, Function.update_of_ne hne]
    · rw [if_neg hlen, if_neg hlen]

theorem leavesOf_none : leavesOf (fun _ => none) = Leaves.none := by
  funext p
  simp [leavesOf, Leaves.none]

section Commits

variable [TrieHash]

/-- A tree under a root, its nodes among those that are hashed. -/
structure Commits (E : Set Bytes) (root : SH256) (n : UInt64) (m : IndexMap) : Prop where
  root_eq : worldRoot n (leavesOf m) = root
  top : worldTop n (leavesOf m) ∈ within E
  nodes : ∀ x ∈ MerkleTree.nodes treeDigest zkTrieDepth (leavesOf m), x ∈ within E

theorem Commits.agree {E : Set Bytes} (hE : CollisionFree E) {root : SH256} {n n' : UInt64} {m m' : IndexMap}
    (h : Commits E root n m) (h' : Commits E root n' m') {i : UInt64} (hi : i.toNat < 2 ^ zkTrieDepth) :
    m i = m' i := by
  have hinj := treeDigest_injOn hE
  have htop : worldTop n (leavesOf m) = worldTop n' (leavesOf m') :=
    hinj h.top h'.top (h.root_eq.trans h'.root_eq.symm)
  have hroot : MerkleTree.root treeDigest zkTrieDepth (leavesOf m) =
      MerkleTree.root treeDigest zkTrieDepth (leavesOf m') :=
    (MerkleTree.Node.branch.inj htop).2
  have hat := MerkleTree.root_binding hinj zkTrieDepth _ _ h.nodes h'.nodes hroot (indexPath i)
    (indexPath_length i)
  rwa [leavesOf_indexPath _ hi, leavesOf_indexPath _ hi] at hat

theorem Commits.mono {E F : Set Bytes} {root : SH256} {n : UInt64} {m : IndexMap} (h : Commits E root n m)
    (hEF : E ⊆ F) : Commits F root n m where
  root_eq := h.root_eq
  top b hb := hEF (h.top b hb)
  nodes x hx b hb := hEF (h.nodes x hx b hb)

theorem Commits.route {E : Set Bytes} {root : SH256} {n : UInt64} {m : IndexMap} (h : Commits E root n m)
    {p : List Bool} (hp : p.length = zkTrieDepth) :
    ∀ x ∈ MerkleTree.route treeDigest p (leavesOf m), x ∈ within E := by
  intro x hx
  have hmem := MerkleTree.route_subset_nodes treeDigest p (leavesOf m) hx
  rw [hp] at hmem
  exact h.nodes x hmem

end Commits

section Represents

variable [TrieHash] {D : Type} [Database D] [NodeStore D] {E : Set Bytes}

/-- What the store holds of the trees a run goes through: enough to walk the usable routes, now and
after every write. -/
structure Coverage (D : Type) [Database D] [NodeStore D] where
  holds : D → IndexMap → Prop
  usable : IndexMap → UInt64 → Prop
  route : ∀ {db m i}, holds db m → usable m i →
    ∀ x ∈ MerkleTree.route treeDigest (indexPath i) (leavesOf m), entry x ∈ known db
  write : ∀ {db db' n m i v}, holds db m → i.toNat < 2 ^ zkTrieDepth →
    Records db db' (SpareMerkleTrie.walk n (indexPath i) ((leavesOf m).set (indexPath i) v)) →
    holds db' (Function.update m i v)
  extend : ∀ {db db' m}, holds db m → Extends db db' → holds db' m

theorem nodes_set_known {db db' : D} {n : UInt64} {p : List Bool} (hp : p.length = zkTrieDepth)
    {m : Leaves LeafValue} {v : Option LeafValue}
    (hnodes : ∀ x ∈ MerkleTree.nodes treeDigest zkTrieDepth m, entry x ∈ known db)
    (hrec : Records db db' (SpareMerkleTrie.walk n p (m.set p v))) :
    ∀ x ∈ MerkleTree.nodes treeDigest zkTrieDepth (m.set p v), entry x ∈ known db' := by
  intro x hx
  rw [← hp] at hx hnodes
  rcases MerkleTree.nodes_set treeDigest p m v hx with hroute | hold
  · exact hrec.mem_known (List.mem_cons_of_mem _ hroute)
  · exact hrec.extends.known_subset (hnodes x hold)

theorem nodes_route_known {db : D} {p : List Bool} (hp : p.length = zkTrieDepth)
    {m : Leaves LeafValue}
    (hnodes : ∀ x ∈ MerkleTree.nodes treeDigest zkTrieDepth m, entry x ∈ known db) :
    ∀ x ∈ MerkleTree.route treeDigest p m, entry x ∈ known db := by
  intro x hx
  rw [← hp] at hnodes
  exact hnodes x (MerkleTree.route_subset_nodes treeDigest p m hx)

/-- The store has every node of the tree. -/
def Coverage.complete : Coverage D where
  holds db m := ∀ x ∈ MerkleTree.nodes treeDigest zkTrieDepth (leavesOf m), entry x ∈ known db
  usable _ i := i.toNat < 2 ^ zkTrieDepth
  route {_ _ i} h _ := nodes_route_known (indexPath_length i) h
  write {_ _ _ _ i _} h hi hrec := by
    rw [leavesOf_update _ hi]
    exact nodes_set_known (indexPath_length i) h hrec
  extend h hext := fun x hx => hext.known_subset (h x hx)

/-- The store has the routes of a list, in the trees they belong to. -/
def Coverage.listed (routes : Set (IndexMap × UInt64)) : Coverage D where
  holds db _ := ∀ r ∈ routes,
    ∀ x ∈ MerkleTree.route treeDigest (indexPath r.2) (leavesOf r.1), entry x ∈ known db
  usable m i := (m, i) ∈ routes
  route {_ m i} h hi := h (m, i) hi
  write h _ hrec := fun r hr x hx => hrec.extends.known_subset (h r hr x hx)
  extend h hext := fun r hr x hx => hext.known_subset (h r hr x hx)

/-- The session's tree is the map, under its reference root, as far as the store covers it. -/
structure Holds (E : Set Bytes) (C : Coverage D) (s : Session D) (n : UInt64) (m : IndexMap) :
    Prop where
  rootHash : s.trie.rootHash = worldRoot n (leavesOf m)
  sound : Sound E s.db
  top : entry (worldTop n (leavesOf m)) ∈ known s.db
  cover : C.holds s.db m

abbrev Represents (E : Set Bytes) (s : Session D) (n : UInt64) (m : IndexMap) : Prop :=
  Holds E Coverage.complete s n m

variable {C : Coverage D}

theorem Holds.walk {s : Session D} {n : UInt64} {m : IndexMap} (h : Holds E C s n m) {i : UInt64}
    (hi : C.usable m i) :
    ∀ x ∈ SpareMerkleTrie.walk n (indexPath i) (leavesOf m), entry x ∈ known s.db := by
  intro x hx
  rcases List.mem_cons.mp hx with rfl | hx
  · exact h.top
  · exact C.route h.cover hi x hx

theorem Holds.written {s : Session D} {n : UInt64} {m : IndexMap} (h : Holds E C s n m)
    {i : UInt64} (hi : i.toNat < 2 ^ zkTrieDepth) {v : Option LeafValue} {db' : D}
    (hrec : Records s.db db'
      (SpareMerkleTrie.walk n (indexPath i) ((leavesOf m).set (indexPath i) v)))
    (hE : encodings (known db') ⊆ E) :
    Holds E C ⟨⟨worldRoot n ((leavesOf m).set (indexPath i) v)⟩, db'⟩ n (Function.update m i v) := by
  have hset := leavesOf_update m hi v
  refine ⟨by rw [hset], hrec.sound h.sound hE, ?_, C.write h.cover hi hrec⟩
  rw [hset]
  exact hrec.mem_known (List.mem_cons_self ..)

theorem Holds.freed {s : Session D} {n free : UInt64} {m : IndexMap} (h : Holds E C s n m)
    {db' : D} (hrec : Records s.db db' [worldTop free (leavesOf m)])
    (hE : encodings (known db') ⊆ E) : Holds E C ⟨⟨worldRoot free (leavesOf m)⟩, db'⟩ free m :=
  ⟨rfl, hrec.sound h.sound hE, hrec.mem_known (List.mem_cons_self ..),
    C.extend h.cover hrec.extends⟩

theorem empty_nodes_mem_known (db : D) (d : ℕ) (hd : d ≤ zkTrieDepth) (x : TreeNode)
    (hx : x ∈ MerkleTree.nodes treeDigest d Leaves.none) : entry x ∈ known db := by
  induction d with
  | zero =>
    rw [Set.mem_singleton_iff.mp hx]
    exact List.mem_append_left _ (empty_mem_emptyTrieNode hd)
  | succ d ih =>
    rcases hx with rfl | hx | hx
    · exact List.mem_append_left _ (empty_mem_emptyTrieNode hd)
    · exact ih (by omega) hx
    · exact ih (by omega) hx

theorem represents_initWorldState (db : D) (hdb : Proper (NodeStore.nodes db))
    (hE : encodings (known db) ⊆ E) :
    Represents E ⟨⟨initWorldState.1.hash⟩, db⟩ 0 fun _ => none := by
  have hproper : Proper (known db) := by
    intro e he
    rcases List.mem_append.mp he with he | he
    · exact emptyTrieNode_proper e he
    · exact hdb e he
  refine ⟨?_, ⟨hproper, hE⟩, ?_, ?_⟩
  · rw [initWorldState_eq, leavesOf_none]
    rfl
  · rw [leavesOf_none]
    exact List.mem_append_left _ init_mem_emptyTrieNode
  · change ∀ x ∈ MerkleTree.nodes treeDigest zkTrieDepth (leavesOf fun _ => none), _
    rw [leavesOf_none]
    exact empty_nodes_mem_known db zkTrieDepth le_rfl

/-- The nodes above the leaf at an index are in the store. -/
def Wrote (db : D) (m : IndexMap) (i : UInt64) : Prop :=
  ∀ x ∈ MerkleTree.route treeDigest (indexPath i) (leavesOf m), entry x ∈ known db

theorem Wrote.mono {db db' : D} {m : IndexMap} {i : UInt64} (h : Wrote db m i)
    (hext : Extends db db') : Wrote db' m i :=
  fun x hx => hext.known_subset (h x hx)

theorem Holds.put (hE : CollisionFree E) {s : Session D} {n : UInt64} {m : IndexMap}
    (h : Holds E C s n m) {i : UInt64} (hi : i.toNat < 2 ^ zkTrieDepth) (hu : C.usable m i)
    (v : LeafValue) :
    Reaches E s (SpareMerkleTrie.put (leafPath (indexPath i)) v.1)
      fun _ s' => Holds E C s' n (Function.update m i (some v)) ∧
        Wrote s'.db (Function.update m i (some v)) i := by
  obtain ⟨db', hret, hrec⟩ := SpareMerkleTrie.put_returns hE (indexPath_length i) v h.rootHash
    h.sound (h.walk hu)
  refine Reaches.of_returns hret fun hsub => ⟨h.written hi hrec hsub, ?_⟩
  intro x hx
  rw [leavesOf_update m hi] at hx
  exact hrec.mem_known (List.mem_cons_of_mem _ hx)

theorem Holds.remove (hE : CollisionFree E) {s : Session D} {n : UInt64} {m : IndexMap}
    (h : Holds E C s n m) {i : UInt64} (hi : i.toNat < 2 ^ zkTrieDepth) (hu : C.usable m i) :
    Reaches E s (SpareMerkleTrie.remove (leafPath (indexPath i)))
      fun _ s' => Holds E C s' n (Function.update m i none) := by
  obtain ⟨db', hret, hrec⟩ := SpareMerkleTrie.remove_returns hE (indexPath_length i) h.rootHash
    h.sound (h.walk hu)
  exact Reaches.of_returns hret fun hsub => h.written hi hrec hsub

theorem Holds.setNextFreeNode (hE : CollisionFree E) {s : Session D} {n : UInt64} {m : IndexMap}
    (h : Holds E C s n m) (free : UInt64) :
    Reaches E s (SpareMerkleTrie.setNextFreeNode free) fun _ s' => Holds E C s' free m := by
  obtain ⟨db', hret, hrec⟩ := SpareMerkleTrie.setNextFreeNode_returns hE free h.rootHash h.sound h.top
  exact Reaches.of_returns hret fun hsub => h.freed hrec hsub

theorem Holds.getNode (hE : CollisionFree E) {s : Session D} {n : UInt64} {m : IndexMap}
    (h : Holds E C s n m) {i : UInt64} (hi : i.toNat < 2 ^ zkTrieDepth) (hu : C.usable m i) :
    SpareMerkleTrie.getNode (leafPath (indexPath i)) s = .ok ((m i).map Node.ofLeafValue) := by
  rw [SpareMerkleTrie.getNode_returns hE (indexPath_length i) h.rootHash h.sound (h.walk hu),
    leavesOf_indexPath m hi]

end Represents

section Runs

variable [TrieHash] [Profile] {D : Type} [Database D] [NodeStore D]

/-- A call of the trie, on the leaf of an index. -/
inductive TrieOp where
  | put (i : UInt64) (v : LeafValue)
  | remove (i : UInt64)
  | setNextFreeNode (free : UInt64)

namespace TrieOp

def InRange : TrieOp → Prop
  | put i _ => i.toNat < 2 ^ zkTrieDepth
  | remove i => i.toNat < 2 ^ zkTrieDepth
  | setNextFreeNode _ => True

def run : TrieOp → Call (Session D) Unit
  | put i v => do
    let path ← Action.lift (orPanic (getLeafPath i))
    SpareMerkleTrie.put path v.1
  | remove i => do
    let path ← Action.lift (orPanic (getLeafPath i))
    SpareMerkleTrie.remove path
  | setNextFreeNode free => SpareMerkleTrie.setNextFreeNode free

def runAll : List TrieOp → Call (Session D) Unit
  | [] => pure ()
  | op :: ops => do
    op.run
    runAll ops

def nextFree (n : UInt64) : TrieOp → UInt64
  | setNextFreeNode free => free
  | _ => n

def apply (m : IndexMap) : TrieOp → IndexMap
  | put i v => Function.update m i (some v)
  | remove i => Function.update m i none
  | setNextFreeNode _ => m

theorem run_moves (op : TrieOp) : Moves Extends (op.run : Call (Session D) Unit) := by
  cases op with
  | put i v => exact (Moves.lift _).bind fun path => SpareMerkleTrie.put_moves path v.1
  | remove i => exact (Moves.lift _).bind fun path => SpareMerkleTrie.remove_moves path
  | setNextFreeNode free => exact SpareMerkleTrie.setNextFreeNode_moves free

theorem runAll_moves (ops : List TrieOp) : Moves Extends (runAll ops : Call (Session D) Unit) := by
  induction ops with
  | nil => exact Moves.pure ()
  | cons op ops ih => exact (run_moves op).bind fun _ => ih

theorem run_reaches {E : Set Bytes} (hE : CollisionFree E) (op : TrieOp) (hop : op.InRange)
    {s : Session D} {n : UInt64} {m : IndexMap} (h : Represents E s n m) :
    Reaches E s op.run fun _ s' => Represents E s' (op.nextFree n) (op.apply m) := by
  cases op with
  | put i v =>
    simp only [run, getLeafPath_of_lt hop]
    exact Reaches.lift ((h.put hE hop hop v).mono fun _ _ h' => h'.1)
  | remove i =>
    simp only [run, getLeafPath_of_lt hop]
    exact Reaches.lift (h.remove hE hop hop)
  | setNextFreeNode free => exact h.setNextFreeNode hE free

theorem runAll_reaches {E : Set Bytes} (hE : CollisionFree E) (ops : List TrieOp)
    (hops : ∀ op ∈ ops, op.InRange) {s : Session D} {n : UInt64} {m : IndexMap}
    (h : Represents E s n m) :
    Reaches E s (runAll ops) fun _ s' =>
      Represents E s' (ops.foldl nextFree n) (ops.foldl apply m) := by
  induction ops generalizing s n m with
  | nil => exact Reaches.pure () h
  | cons op ops ih =>
    refine (run_reaches hE op (hops op (List.mem_cons_self ..)) h).bind (fun _ => runAll_moves ops) ?_
    intro _ s₁ h₁
    exact ih (fun o ho => hops o (List.mem_cons_of_mem _ ho)) h₁

/-- The trie refines a partial map from indices to leaf values. -/
theorem runAll_refines_map (ops : List TrieOp) (hops : ∀ op ∈ ops, op.InRange) (db : D)
    (hdb : Proper (NodeStore.nodes db))
    (hhash : CollisionFree
      (encodings (known (runAll ops ⟨⟨initWorldState.1.hash⟩, db⟩).2.db))) :
    ∃ s', (runAll ops).Returns ⟨⟨initWorldState.1.hash⟩, db⟩ () s' ∧
      s'.trie.rootHash = worldRoot (ops.foldl nextFree 0) (leavesOf (ops.foldl apply fun _ => none)) ∧
      ∀ i : UInt64, i.toNat < 2 ^ zkTrieDepth → ∃ path, getLeafPath i = some path ∧
        SpareMerkleTrie.getNode path s' =
          .ok ((ops.foldl apply (fun _ => none) i).map Node.ofLeafValue) := by
  have hstart := runAll_moves ops (⟨⟨initWorldState.1.hash⟩, db⟩ : Session D)
  have hinit : Represents _ (⟨⟨initWorldState.1.hash⟩, db⟩ : Session D) 0 fun _ => none :=
    represents_initWorldState db hdb hstart.encodings_subset
  obtain ⟨_, s', hret, hrep⟩ := runAll_reaches hhash ops hops hinit subset_rfl
  refine ⟨s', hret, hrep.rootHash, ?_⟩
  intro i hi
  exact ⟨_, getLeafPath_of_lt hi, hrep.getNode hhash hi hi⟩

end TrieOp

end Runs

namespace TrieOp

def sampleValue : LeafValue := ⟨List.replicate 128 7, rfl⟩

def sampleOps : List TrieOp := [put 5 sampleValue, setNextFreeNode 6, remove 5]

theorem runAll_refines_map_sample :
    letI := residueHash
    letI := debugProfile
    ∃ s' : Session PrefixDB,
      (runAll sampleOps).Returns ⟨⟨initWorldState.1.hash⟩, ⟨0, MemStore.new⟩⟩ () s' ∧
      s'.trie.rootHash = worldRoot 6 (leavesOf (sampleOps.foldl apply fun _ => none)) ∧
      ∀ i : UInt64, i.toNat < 2 ^ zkTrieDepth → ∃ path, getLeafPath i = some path ∧
        SpareMerkleTrie.getNode path s' =
          .ok ((sampleOps.foldl apply (fun _ => none) i).map Node.ofLeafValue) := by
  let := residueHash
  let := debugProfile
  refine runAll_refines_map sampleOps ?_ _ ?_ (collisionFree_of_separated (by decide +kernel))
  · simp [sampleOps, InRange, zkTrieDepth]
  · intro e he
    cases he

end TrieOp

end LineaSgxProver.Zktrie
