import LineaSgxProver.Zktrie.LeafOps

namespace LineaSgxProver.Zktrie

open Library

section Beneath

variable [TrieHash]

/-- The store with older nodes beneath its own. -/
def PrefixDB.beneath (older : NodeMap) (db : PrefixDB) : PrefixDB :=
  { db with raw := { db.raw with nodes := db.raw.nodes ++ older } }

def Session.beneath (older : NodeMap) (s : Session PrefixDB) : Session PrefixDB :=
  { s with db := s.db.beneath older }

/-- The errors that a node missing from the store causes. -/
inductive Missing : Fault Error → Prop where
  | node (lvl : ℕ) (hash : SH256) : Missing (.error (.nodeNotFound lvl hash))
  | root (hash : SH256) : Missing (.error (.rootNodeNotFound hash))

def Lost {α : Type} (r : Except (Fault Error) α) : Prop := ∃ e, r = .error e ∧ Missing e

/-- Older nodes change nothing of the call, unless it stops at a missing node without them. -/
abbrev Outlasts {α : Type} (older : NodeMap) (x : Call (Session PrefixDB) α) : Prop :=
  Action.Persists (Session.beneath older) (fun s t => ∀ e ∈ NodeStore.nodes s.db, e ∈ NodeStore.nodes t.db) Missing x

/-- The same of the calls on the store. -/
abbrev DbOutlasts {α : Type} (older : NodeMap) (x : Call PrefixDB α) : Prop :=
  Action.Persists (PrefixDB.beneath older) (fun db db' => ∀ e ∈ NodeStore.nodes db, e ∈ NodeStore.nodes db') Missing x

variable {older : NodeMap} {α β : Type}

theorem same_or_lost_bind {x x' : Except (Fault Error) α} {f f' : α → Except (Fault Error) β}
    (hx : x' = x ∨ Lost x) (hf : ∀ a, f' a = f a ∨ Lost (f a)) : (x' >>= f') = x >>= f ∨ Lost (x >>= f) := by
  rcases hx with rfl | ⟨e, rfl, he⟩
  · cases x' with
    | ok a => exact hf a
    | error e => exact Or.inl rfl
  · exact Or.inr ⟨e, rfl, he⟩

theorem getNode_beneath (older : NodeMap) (db : PrefixDB) (h : SH256) :
    Database.getNode (db.beneath older) h = Database.getNode db h ∨ Database.getNode db h = .ok none := by
  rw [NodeStore.getNode_eq, NodeStore.getNode_eq]
  have happend : emptyTrieNode ++ NodeStore.nodes (db.beneath older) =
      (emptyTrieNode ++ NodeStore.nodes db) ++ older := (List.append_assoc ..).symm
  rw [happend]
  unfold BTreeMap.get
  rw [List.lookup_append]
  cases (emptyTrieNode ++ NodeStore.nodes db).lookup h with
  | none => exact Or.inr rfl
  | some n => exact Or.inl rfl

theorem PrefixDB.beneath_enlarges : Action.Enlarges (PrefixDB.beneath older)
    fun db db' => ∀ e ∈ NodeStore.nodes db, e ∈ NodeStore.nodes db' where
  refl _ _ he := he
  trans h h' e he := h' e (h e he)
  larger _ _ he := List.mem_append_left _ he

theorem Session.beneath_enlarges : Action.Enlarges (Session.beneath older)
    fun s t => ∀ e ∈ NodeStore.nodes s.db, e ∈ NodeStore.nodes t.db where
  refl _ _ he := he
  trans h h' e he := h' e (h e he)
  larger _ _ he := List.mem_append_left _ he

theorem DbOutlasts.bind {x : Call PrefixDB α} {f : α → Call PrefixDB β} (hx : DbOutlasts older x)
    (hf : ∀ a, DbOutlasts older (f a)) : DbOutlasts older (x >>= f) :=
  Action.Persists.bind PrefixDB.beneath_enlarges hx hf

theorem Outlasts.bind {x : Call (Session PrefixDB) α} {f : α → Call (Session PrefixDB) β} (hx : Outlasts older x)
    (hf : ∀ a, Outlasts older (f a)) : Outlasts older (x >>= f) :=
  Action.Persists.bind Session.beneath_enlarges hx hf

theorem Outlasts.lift (r : Except (Fault Error) α) : Outlasts older (Action.lift r) :=
  Action.Persists.lift Session.beneath_enlarges r

theorem Outlasts.pure (a : α) : Outlasts older (Pure.pure a) := Action.Persists.pure Session.beneath_enlarges a

theorem Outlasts.read {g : Session PrefixDB → Except (Fault Error) α}
    (hg : ∀ s : Session PrefixDB, g (s.beneath older) = g s ∨ Lost (g s)) : Outlasts older (Action.read g) :=
  Action.Persists.read Session.beneath_enlarges hg

theorem Outlasts.onDb {x : Call PrefixDB α} (hx : DbOutlasts older x) : Outlasts older (onDb x) :=
  hx.zoom (fun _ => rfl) (fun _ _ => rfl) (fun _ h => h) fun _ _ h => h

theorem Outlasts.encodings_subset {x : Call (Session PrefixDB) α} (hx : Outlasts older x) (s : Session PrefixDB) :
    encodings (known (x s).2.db) ⊆ encodings (known (x (s.beneath older)).2.db) := by
  apply encodings_mono
  intro e he
  rcases List.mem_append.mp he with he | he
  · exact List.mem_append_left _ he
  · exact List.mem_append_right _ (hx.farther Session.beneath_enlarges s e he)

namespace SpareMerkleTrie

theorem fetch_beneath (lvl : ℕ) (h : SH256) (db : PrefixDB) :
    fetch lvl h (db.beneath older) = fetch lvl h db ∨ Lost (fetch lvl h db) := by
  unfold fetch
  rcases getNode_beneath older db h with hsame | hnone
  · rw [hsame]
    exact Or.inl rfl
  · rw [hnone]
    exact Or.inr ⟨_, rfl, .node lvl h⟩

theorem getNodeFrom_beneath (db : PrefixDB) (path : Bytes) (rem : ℕ) (h : SH256) :
    getNodeFrom (db.beneath older) path rem h = getNodeFrom db path rem h ∨ Lost (getNodeFrom db path rem h) := by
  induction rem generalizing h with
  | zero => exact Or.inl rfl
  | succ rem ih =>
    refine same_or_lost_bind (fetch_beneath _ _ db) fun n => ?_
    cases n.raw with
    | branch branch =>
      cases path[zkTrieDepth + 1 - rem]? with
      | some b => exact ih _
      | none => exact Or.inl rfl
    | emptyLeaf => exact Or.inl rfl
    | leaf leaf => exact Or.inl rfl
    | nextFree node => exact Or.inl rfl

theorem rootBranch_beneath (s : Session PrefixDB) :
    rootBranch (s.beneath older) = rootBranch s ∨ Lost (rootBranch s) := by
  refine same_or_lost_bind ?_ fun node => Or.inl rfl
  unfold rootNode
  have htrie : (s.beneath older).trie = s.trie := rfl
  have hdb : (s.beneath older).db = s.db.beneath older := rfl
  rw [htrie, hdb]
  rcases getNode_beneath older s.db s.trie.rootHash with hsame | hnone
  · rw [hsame]
    exact Or.inl rfl
  · rw [hnone]
    exact Or.inr ⟨_, rfl, .root _⟩

theorem dbAdd_outlasts (node : Node) : DbOutlasts older (dbAdd node) where
  same _ := Or.inl rfl
  grows _ _ he := List.mem_cons_of_mem _ he

theorem rebuild_outlasts (path : Bytes) {bottom : ℕ → NodeValue → Call PrefixDB Node}
    (hbottom : ∀ lvl v, DbOutlasts older (bottom lvl v)) (rem : ℕ) (h : SH256) :
    DbOutlasts older (rebuild path bottom rem h) := by
  induction rem generalizing h with
  | zero => exact Action.Persists.lift PrefixDB.beneath_enlarges _
  | succ rem ih =>
    refine DbOutlasts.bind (Action.Persists.read PrefixDB.beneath_enlarges (fetch_beneath _ _)) fun n => ?_
    cases n.raw with
    | branch branch =>
      refine DbOutlasts.bind (Action.Persists.lift PrefixDB.beneath_enlarges _) fun idx => ?_
      refine DbOutlasts.bind (Action.Persists.lift PrefixDB.beneath_enlarges _) fun child => ?_
      exact DbOutlasts.bind (ih child) fun updated => dbAdd_outlasts _
    | emptyLeaf => exact hbottom _ _
    | leaf leaf => exact hbottom _ _
    | nextFree node => exact hbottom _ _

theorem addBottom_outlasts (path value : Bytes) (lvl : ℕ) (v : NodeValue) :
    DbOutlasts older (addBottom path value lvl v) := by
  have hwrite : DbOutlasts older (Action.lift (orPanic (Node.leaf (path.drop lvl) value)) >>= dbAdd) :=
    DbOutlasts.bind (Action.Persists.lift PrefixDB.beneath_enlarges _) dbAdd_outlasts
  cases v with
  | branch branch => exact hwrite
  | emptyLeaf => exact hwrite
  | leaf leaf =>
    simp only [addBottom]
    split_ifs
    · exact hwrite
    · exact Action.Persists.lift PrefixDB.beneath_enlarges _
  | nextFree node =>
    simp only [addBottom]
    split_ifs
    · exact hwrite
    · exact Action.Persists.lift PrefixDB.beneath_enlarges _

theorem setRoot_outlasts (h : SH256) : Outlasts older (setRoot h) :=
  Action.Persists.update (fun _ => rfl) fun _ _ he => he

theorem put_outlasts (path value : Bytes) : Outlasts older (put path value) := by
  refine (Outlasts.read fun _ => Or.inl rfl).bind fun current => ?_
  refine (Outlasts.onDb ?_).bind fun root => setRoot_outlasts _
  rw [addLeaf_eq]
  exact rebuild_outlasts path (addBottom_outlasts path value) _ _

theorem remove_outlasts (path : Bytes) : Outlasts older (remove path) := by
  refine (Outlasts.read fun _ => Or.inl rfl).bind fun current => ?_
  refine (Outlasts.onDb ?_).bind fun root => setRoot_outlasts _
  rw [removeLeaf_eq]
  exact rebuild_outlasts path (fun _ _ => Action.Persists.pure PrefixDB.beneath_enlarges _) _ _

theorem setNextFreeNode_outlasts (free : UInt64) : Outlasts older (setNextFreeNode free) := by
  refine (Outlasts.read rootBranch_beneath).bind fun branch => ?_
  exact (Outlasts.onDb (dbAdd_outlasts (Node.topNode free branch.right))).bind fun root => setRoot_outlasts _

theorem subRootHash_beneath (s : Session PrefixDB) :
    subRootHash (s.beneath older) = subRootHash s ∨ Lost (subRootHash s) :=
  same_or_lost_bind (rootBranch_beneath s) fun _ => Or.inl rfl

theorem nextFreeNode_beneath (s : Session PrefixDB) :
    nextFreeNode (s.beneath older) = nextFreeNode s ∨ Lost (nextFreeNode s) :=
  same_or_lost_bind (rootBranch_beneath s) fun _ => Or.inl rfl

end SpareMerkleTrie

namespace ZkTrie

variable {parse : Bytes → Option LeafOpening}

theorem parseNode_beneath (path : Bytes) (s : Session PrefixDB) :
    parseNode parse path (s.beneath older) = parseNode parse path s ∨ Lost (parseNode parse path s) :=
  same_or_lost_bind (SpareMerkleTrie.getNodeFrom_beneath s.db path _ _) fun _ => Or.inl rfl

theorem rewriteLeaf_outlasts (path : Bytes) (change : LeafOpening → LeafOpening) :
    Outlasts older (rewriteLeaf parse path change) :=
  (Outlasts.read (parseNode_beneath path)).bind fun _ => SpareMerkleTrie.put_outlasts _ _

theorem updateIndex_outlasts (k : SH256) (v : FlattenedLeaf) : Outlasts older (updateIndex k v) :=
  Outlasts.onDb (Action.Persists.update (fun _ => rfl) fun _ _ he => he)

theorem removeIndex_outlasts (k : SH256) : Outlasts older (removeIndex k) :=
  Outlasts.onDb (Action.Persists.update (fun _ => rfl) fun _ _ he => he)

variable [Profile]

theorem incrementNextFreeLeafNodeIndex_outlasts : Outlasts older incrementNextFreeLeafNodeIndex := by
  refine (Outlasts.read SpareMerkleTrie.nextFreeNode_beneath).bind fun found => ?_
  refine (Outlasts.lift _).bind fun next => ?_
  exact (SpareMerkleTrie.setNextFreeNode_outlasts next).bind fun _ => Outlasts.pure next

theorem setHeadAndTail_outlasts : Outlasts older setHeadAndTail := by
  refine (Outlasts.read SpareMerkleTrie.nextFreeNode_beneath).bind fun index => ?_
  refine (Outlasts.lift _).bind fun path => (SpareMerkleTrie.put_outlasts _ _).bind fun _ => ?_
  refine (updateIndex_outlasts _ _).bind fun _ => incrementNextFreeLeafNodeIndex_outlasts.bind fun _ => ?_
  refine (Outlasts.read SpareMerkleTrie.nextFreeNode_beneath).bind fun index => ?_
  refine (updateIndex_outlasts _ _).bind fun _ => (Outlasts.lift _).bind fun path => ?_
  refine (SpareMerkleTrie.put_outlasts _ _).bind fun _ => ?_
  exact incrementNextFreeLeafNodeIndex_outlasts.bind fun _ => Outlasts.pure ()

theorem insertLeaf_outlasts (hkey : SH256) (range : KeyRange) (value : Bytes) :
    Outlasts older (insertLeaf parse hkey range value) := by
  refine (Outlasts.lift _).bind fun left => (Outlasts.lift _).bind fun right => ?_
  refine (Outlasts.read SpareMerkleTrie.nextFreeNode_beneath).bind fun free => ?_
  refine (rewriteLeaf_outlasts _ _).bind fun _ => (Outlasts.lift _).bind fun new => ?_
  refine (Outlasts.lift _).bind fun hval => (updateIndex_outlasts _ _).bind fun _ => ?_
  refine (SpareMerkleTrie.put_outlasts _ _).bind fun _ => (rewriteLeaf_outlasts _ _).bind fun _ => ?_
  exact incrementNextFreeLeafNodeIndex_outlasts.bind fun _ => Outlasts.pure ()

theorem updateLeaf_outlasts (hkey : SH256) (current : FlattenedLeaf) (value : Bytes) :
    Outlasts older (updateLeaf parse hkey current value) := by
  refine (Outlasts.lift _).bind fun path => (Outlasts.lift _).bind fun hval => ?_
  exact (updateIndex_outlasts _ _).bind fun _ => rewriteLeaf_outlasts _ _

theorem put_outlasts (key value : Bytes) : Outlasts older (put parse key value) := by
  have hafter : Outlasts older (do
      let _ ← Action.read subRootHash
      pure () : Call (Session PrefixDB) Unit) :=
    (Outlasts.read SpareMerkleTrie.subRootHash_beneath).bind fun _ => Outlasts.pure ()
  refine (Outlasts.lift _).bind fun hkey => (Outlasts.read fun _ => Or.inl rfl).bind fun range => ?_
  refine (Outlasts.read SpareMerkleTrie.subRootHash_beneath).bind fun _ => ?_
  cases range.center with
  | none => exact (insertLeaf_outlasts _ _ _).bind fun _ => hafter
  | some current => exact (updateLeaf_outlasts _ _ _).bind fun _ => hafter

theorem remove_outlasts (key : Bytes) : Outlasts older (remove parse key) := by
  refine (Outlasts.lift _).bind fun hkey => (Outlasts.read fun _ => Or.inl rfl).bind fun range => ?_
  cases range.center with
  | none => exact Outlasts.pure ()
  | some current =>
    refine (Outlasts.lift _).bind fun left => (Outlasts.lift _).bind fun right => ?_
    refine (rewriteLeaf_outlasts _ _).bind fun _ => (Outlasts.lift _).bind fun old => ?_
    refine (Outlasts.read (parseNode_beneath old)).bind fun _ => (removeIndex_outlasts _).bind fun _ => ?_
    exact (SpareMerkleTrie.remove_outlasts _).bind fun _ => rewriteLeaf_outlasts _ _

end ZkTrie

end Beneath

end LineaSgxProver.Zktrie
