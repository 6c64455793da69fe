import LineaSgxProver.Zktrie.TreeWrite

namespace LineaSgxProver.Zktrie

open Library
open MerkleTree (Leaves)

section Grow

variable [TrieHash] {D : Type} [Database D] [NodeStore D]

/-- A relation between databases that the writes of nodes respect. -/
class NodeSteady (R : D → D → Prop) : Prop where
  refl : ∀ db, R db db
  trans : ∀ {db db' db''}, R db db' → R db' db'' → R db db''
  node : ∀ (db : D) key node, R db (Database.updateNode key node db).2

/-- A relation between databases that all the writes of the trie respect. -/
class Steady (R : D → D → Prop) : Prop extends NodeSteady R where
  index : ∀ db k v, R db (Database.updateIndex k v db)
  unindex : ∀ db k, R db (Database.removeIndex k db)

instance : Steady (Extends : D → D → Prop) where
  refl := Extends.refl
  trans := Extends.trans
  node db key node := by
    obtain ⟨db', hret, hnodes⟩ := NodeStore.updateNode_eq db key node
    rw [hret]
    exact ⟨[(key, node)], hnodes⟩
  index db k v := ⟨[], NodeStore.nodes_updateIndex db k v⟩
  unindex db k := ⟨[], NodeStore.nodes_removeIndex db k⟩

end Grow

section Moves

variable [TrieHash] {D : Type} {R : D → D → Prop}

def Moves {α : Type} (R : D → D → Prop) (x : Call (Session D) α) : Prop :=
  Action.Keeps (fun s s' => R s.db s'.db) x

theorem Moves.onDb {α : Type} {x : Call D α} (hx : Action.Keeps R x) : Moves R (onDb x) :=
  Action.Keeps.zoom (fun _ _ h => h) hx

variable [Database D] [NodeSteady R]

theorem Moves.bind {α β : Type} {x : Call (Session D) α} {f : α → Call (Session D) β}
    (hx : Moves R x) (hf : ∀ a, Moves R (f a)) : Moves R (x >>= f) :=
  Action.Keeps.bind (fun h h' => NodeSteady.trans h h') hx hf

theorem Moves.bind_after {α β : Type} (x : Call (Session D) α) {f : α → Call (Session D) β}
    (hf : ∀ a, Moves R (f a)) (s : Session D) : R (x s).2.db ((x >>= f) s).2.db := by
  rw [Action.bind_apply]
  rcases x s with ⟨_ | a, t⟩
  · exact NodeSteady.refl t.db
  · exact hf a t

theorem Moves.pure {α : Type} (a : α) : Moves R (Pure.pure a : Call (Session D) α) :=
  Action.Keeps.pure (fun s => NodeSteady.refl s.db) a

theorem Moves.lift {α : Type} (r : Except (Fault Error) α) :
    Moves R (Action.lift r : Call (Session D) α) :=
  Action.Keeps.lift (fun s => NodeSteady.refl s.db) r

theorem Moves.read {α : Type} (g : Session D → Except (Fault Error) α) : Moves R (Action.read g) :=
  Action.Keeps.read (fun s => NodeSteady.refl s.db) g

end Moves

section Reach

variable [TrieHash] {D : Type} [Database D] [NodeStore D]

/-- The call returns with `Q`, as long as the encodings in the log it leaves lie in `E`. -/
def Reaches {α : Type} (E : Set Bytes) (s : Session D) (x : Call (Session D) α)
    (Q : α → Session D → Prop) : Prop :=
  encodings (known (x s).2.db) ⊆ E → ∃ a s', x.Returns s a s' ∧ Q a s'

section Reaches

variable {α β : Type} {E : Set Bytes} {s : Session D} {x : Call (Session D) α}
  {f : α → Call (Session D) β} {P : α → Session D → Prop} {Q : β → Session D → Prop}

theorem Reaches.of_returns {a : α} {s' : Session D} (h : x.Returns s a s')
    (hP : encodings (known s'.db) ⊆ E → P a s') : Reaches E s x P := by
  intro hsub
  rw [h] at hsub
  exact ⟨a, s', h, hP hsub⟩

theorem Reaches.pure (a : α) (h : P a s) : Reaches E s (Pure.pure a) P :=
  fun _ => ⟨a, s, rfl, h⟩

theorem Reaches.mono (h : Reaches E s x P) {P' : α → Session D → Prop}
    (hP : ∀ a s', P a s' → P' a s') : Reaches E s x P' := by
  intro hsub
  obtain ⟨a, s', hret, ha⟩ := h hsub
  exact ⟨a, s', hret, hP a s' ha⟩

theorem Reaches.self (h : Reaches E s x P) : Reaches E s x fun a s' => x.Returns s a s' ∧ P a s' := by
  intro hsub
  obtain ⟨a, s', hret, ha⟩ := h hsub
  exact ⟨a, s', hret, hret, ha⟩

theorem Reaches.bind (h : Reaches E s x P) (hgrow : ∀ a, Moves Extends (f a))
    (hf : ∀ a s', P a s' → Reaches E s' (f a) Q) : Reaches E s (x >>= f) Q := by
  intro hsub
  have hbefore := (Extends.encodings_subset (Moves.bind_after x hgrow s)).trans hsub
  obtain ⟨a, t, hret, ha⟩ := h hbefore
  have hafter : encodings (known (f a t).2.db) ⊆ E := by
    rwa [Action.bind_apply, hret] at hsub
  obtain ⟨b, u, hfret, hb⟩ := hf a t ha hafter
  exact ⟨b, u, hret.bind hfret, hb⟩

theorem Reaches.after {a : α} {t : Session D} (hf : Reaches E t (f a) Q) (h : x.Returns s a t) :
    Reaches E s (x >>= f) Q := by
  intro hsub
  rw [Action.bind_apply, h] at hsub
  obtain ⟨b, u, hret, hb⟩ := hf hsub
  exact ⟨b, u, h.bind hret, hb⟩

theorem Reaches.lift {a : α} (hf : Reaches E s (f a) Q) :
    Reaches E s (Action.lift (.ok a) >>= f) Q :=
  hf.after (Action.Returns.lift a s)

theorem Reaches.read {g : Session D → Except (Fault Error) α} {a : α} (h : g s = .ok a)
    (hf : Reaches E s (f a) Q) : Reaches E s (Action.read g >>= f) Q :=
  hf.after (Action.Returns.read h)

end Reaches

end Reach

namespace SpareMerkleTrie

section Moves

variable [TrieHash] {D : Type} [Database D] {R : D → D → Prop} [NodeSteady R]

theorem rebuild_keeps (path : Bytes) {bottom : ℕ → NodeValue → Call D Node}
    (hbottom : ∀ lvl v, Action.Keeps R (bottom lvl v)) (rem : ℕ) (current : SH256) :
    Action.Keeps R (rebuild path bottom rem current) := by
  induction rem generalizing current with
  | zero => exact Action.Keeps.lift NodeSteady.refl _
  | succ rem ih =>
    have bind {α β : Type} {x : Call D α} {f : α → Call D β} (hx : Action.Keeps R x)
        (hf : ∀ a, Action.Keeps R (f a)) : Action.Keeps R (x >>= f) :=
      Action.Keeps.bind (fun h h' => NodeSteady.trans h h') hx hf
    refine bind (Action.Keeps.read NodeSteady.refl _) fun n => ?_
    cases n.raw with
    | branch branch =>
      refine bind (Action.Keeps.lift NodeSteady.refl _) fun idx => ?_
      refine bind (Action.Keeps.lift NodeSteady.refl _) fun child => ?_
      exact bind (ih child) fun updated db => NodeSteady.node db _ _
    | leaf leaf => exact hbottom _ _
    | emptyLeaf => exact hbottom _ _
    | nextFree node => exact hbottom _ _

theorem addBottom_keeps (path value : Bytes) (lvl : ℕ) (v : NodeValue) :
    Action.Keeps R (addBottom path value lvl v : Call D Node) := by
  have hwrite : Action.Keeps R (Action.lift (orPanic (Node.leaf (path.drop lvl) value)) >>=
      dbAdd : Call D Node) :=
    Action.Keeps.bind (fun h h' => NodeSteady.trans h h') (Action.Keeps.lift NodeSteady.refl _)
      fun node db => NodeSteady.node db _ _
  cases v with
  | branch branch => exact hwrite
  | emptyLeaf => exact hwrite
  | leaf leaf =>
    simp only [addBottom]
    split_ifs
    · exact hwrite
    · exact Action.Keeps.lift NodeSteady.refl _
  | nextFree node =>
    simp only [addBottom]
    split_ifs
    · exact hwrite
    · exact Action.Keeps.lift NodeSteady.refl _

theorem setRoot_moves (h : SH256) : Moves R (setRoot h : Call (Session D) Unit) :=
  fun s => NodeSteady.refl s.db

theorem put_moves (path value : Bytes) : Moves R (put path value : Call (Session D) Unit) := by
  refine (Moves.read _).bind fun current => ?_
  refine (Moves.onDb ?_).bind fun root => setRoot_moves _
  rw [addLeaf_eq]
  exact rebuild_keeps path (addBottom_keeps path value) _ _

theorem remove_moves (path : Bytes) : Moves R (remove path : Call (Session D) Unit) := by
  refine (Moves.read _).bind fun current => ?_
  refine (Moves.onDb ?_).bind fun root => setRoot_moves _
  rw [removeLeaf_eq]
  exact rebuild_keeps path (fun _ _ => Action.Keeps.pure NodeSteady.refl _) _ _

theorem setNextFreeNode_moves (free : UInt64) :
    Moves R (setNextFreeNode free : Call (Session D) Unit) := by
  refine (Moves.read _).bind fun branch => ?_
  exact (Moves.onDb fun db => NodeSteady.node db _ _).bind fun root => setRoot_moves _

end Moves

section World

variable [TrieHash] {D : Type} [Database D] [NodeStore D] {E : Set Bytes}

def walk (n : UInt64) (p : List Bool) (m : Leaves LeafValue) : List TreeNode :=
  worldTop n m :: MerkleTree.route treeDigest p m

theorem rebuildTop_returns (hE : CollisionFree E) {p : List Bool} (hp : p.length = zkTrieDepth)
    {bottom : ℕ → NodeValue → Call D Node} {v : Option LeafValue} (hbottom : Sets bottom v)
    (n : UInt64) (m : Leaves LeafValue) (db : D) (hdb : Sound E db)
    (hwalk : ∀ x ∈ walk n p m, entry x ∈ known db) :
    ∃ db', (rebuild (leafPath p) bottom (zkTrieDepth + 2) (worldRoot n m)).Returns db
        (Node.ofTree (worldTop n (m.set p v))) db' ∧ Records db db' (walk n p (m.set p v)) := by
  obtain ⟨db₁, hbelow, hrec₁⟩ := rebuild_returns hE hbottom p m db (remains_leafPath hp) hdb
    fun x hx => hwalk x (List.mem_cons_of_mem _ hx)
  obtain ⟨db₂, hadd, hrec₂⟩ := dbAdd_returns db₁ (worldTop n (m.set p v))
  have hfetch := fetch_known hE hdb (hwalk _ (List.mem_cons_self ..)) 0
  refine ⟨db₂, ?_, hrec₁.trans hrec₂⟩
  refine (Action.Returns.read hfetch).bind ?_
  refine (Action.Returns.lift _ db).bind (a := (1 : UInt8)) ?_
  refine (Action.Returns.lift _ db).bind (a := MerkleTree.root treeDigest zkTrieDepth m) ?_
  rw [hp] at hbelow
  refine hbelow.bind ?_
  exact hadd

theorem put_returns (hE : CollisionFree E) {p : List Bool} (hp : p.length = zkTrieDepth)
    (v : LeafValue) {s : Session D} {n : UInt64} {m : Leaves LeafValue}
    (hroot : s.trie.rootHash = worldRoot n m) (hdb : Sound E s.db)
    (hwalk : ∀ x ∈ walk n p m, entry x ∈ known s.db) :
    ∃ db', (put (leafPath p) v.1).Returns s () ⟨⟨worldRoot n (m.set p (some v))⟩, db'⟩ ∧
      Records s.db db' (walk n p (m.set p (some v))) := by
  obtain ⟨⟨h⟩, db⟩ := s
  obtain rfl : h = worldRoot n m := hroot
  have hrem : Remains (leafPath p) [] := by
    have h := remains_leafPath hp
    clear hp hwalk
    generalize leafPath p = path at h
    induction p with
    | nil => exact h
    | cons b p ih => exact ih h.tail
  obtain ⟨db', hret, hrec⟩ := rebuildTop_returns hE hp (addBottom_sets hrem v) n m db hdb hwalk
  refine ⟨db', ?_, hrec⟩
  refine (Action.Returns.read rfl).bind ?_
  rw [addLeaf_eq]
  exact (Action.Returns.zoom hret).bind (Action.Returns.update _ _)

theorem remove_returns (hE : CollisionFree E) {p : List Bool} (hp : p.length = zkTrieDepth)
    {s : Session D} {n : UInt64} {m : Leaves LeafValue}
    (hroot : s.trie.rootHash = worldRoot n m) (hdb : Sound E s.db)
    (hwalk : ∀ x ∈ walk n p m, entry x ∈ known s.db) :
    ∃ db', (remove (leafPath p)).Returns s () ⟨⟨worldRoot n (m.set p none)⟩, db'⟩ ∧
      Records s.db db' (walk n p (m.set p none)) := by
  obtain ⟨⟨h⟩, db⟩ := s
  obtain rfl : h = worldRoot n m := hroot
  obtain ⟨db', hret, hrec⟩ := rebuildTop_returns hE hp removeBottom_sets n m db hdb hwalk
  refine ⟨db', ?_, hrec⟩
  refine (Action.Returns.read rfl).bind ?_
  rw [removeLeaf_eq]
  exact (Action.Returns.zoom hret).bind (Action.Returns.update _ _)

theorem getNode_returns (hE : CollisionFree E) {p : List Bool} (hp : p.length = zkTrieDepth)
    {s : Session D} {n : UInt64} {m : Leaves LeafValue}
    (hroot : s.trie.rootHash = worldRoot n m) (hdb : Sound E s.db)
    (hwalk : ∀ x ∈ walk n p m, entry x ∈ known s.db) :
    getNode (leafPath p) s = .ok ((m p).map Node.ofLeafValue) := by
  have hbelow := getNodeFrom_returns hE p m s.db (remains_leafPath hp) hdb
    fun x hx => hwalk x (List.mem_cons_of_mem _ hx)
  have hfetch := fetch_known hE hdb (hwalk _ (List.mem_cons_self ..)) 0
  unfold getNode
  rw [hroot]
  unfold getNodeFrom
  refine (congrArg (· >>= _) hfetch).trans ?_
  rw [hp] at hbelow
  exact hbelow

theorem rootBranch_eq (hE : CollisionFree E) {s : Session D} {n : UInt64} {m : Leaves LeafValue}
    (hroot : s.trie.rootHash = worldRoot n m) (hdb : Sound E s.db)
    (htop : entry (worldTop n m) ∈ known s.db) :
    rootBranch s = .ok ⟨formatNodeIndex n, MerkleTree.root treeDigest zkTrieDepth m⟩ := by
  unfold rootBranch rootNode
  rw [hroot, worldRoot, getNode_known hE hdb htop]
  rfl

theorem subRootHash_eq (hE : CollisionFree E) {s : Session D} {n : UInt64} {m : Leaves LeafValue}
    (hroot : s.trie.rootHash = worldRoot n m) (hdb : Sound E s.db)
    (htop : entry (worldTop n m) ∈ known s.db) :
    subRootHash s = .ok (MerkleTree.root treeDigest zkTrieDepth m) := by
  unfold subRootHash
  rw [rootBranch_eq hE hroot hdb htop]
  rfl

theorem nextFreeNode_eq (hE : CollisionFree E) {s : Session D} {n : UInt64} {m : Leaves LeafValue}
    (hroot : s.trie.rootHash = worldRoot n m) (hdb : Sound E s.db)
    (htop : entry (worldTop n m) ∈ known s.db) : nextFreeNode s = .ok n := by
  unfold nextFreeNode
  rw [rootBranch_eq hE hroot hdb htop]
  change orPanic (parseNodeIndex (SH256.bytes (formatNodeIndex n))) = _
  rw [parseNodeIndex_format]
  rfl

theorem setNextFreeNode_returns (hE : CollisionFree E) (free : UInt64) {s : Session D} {n : UInt64}
    {m : Leaves LeafValue} (hroot : s.trie.rootHash = worldRoot n m) (hdb : Sound E s.db)
    (htop : entry (worldTop n m) ∈ known s.db) :
    ∃ db', (setNextFreeNode free).Returns s () ⟨⟨worldRoot free m⟩, db'⟩ ∧
      Records s.db db' [worldTop free m] := by
  obtain ⟨db', hadd, hrec⟩ := dbAdd_returns s.db (worldTop free m)
  refine ⟨db', ?_, hrec⟩
  refine (Action.Returns.read (rootBranch_eq hE hroot hdb htop)).bind ?_
  refine Action.Returns.bind (a := Node.ofTree (worldTop free m)) (Action.Returns.zoom hadd) ?_
  exact Action.Returns.update _ _

end World

end SpareMerkleTrie

end LineaSgxProver.Zktrie
