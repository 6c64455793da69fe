import LineaSgxProver.Zktrie.LeafOps

namespace LineaSgxProver.Zktrie

open Library

inductive IndexCall where
  | update (k : SH256) (v : FlattenedLeaf)
  | remove (k : SH256)
  deriving DecidableEq, Repr

/-- A database that notes the index calls issued to it. -/
structure Logged (D : Type) where
  db : D
  log : List IndexCall

section Logging

variable [TrieHash] {D : Type} [Database D]

instance : Database (Logged D) where
  getNode l key := Database.getNode l.db key
  updateNode key node := Action.zoom Logged.db (fun db l => { l with db := db })
    (Database.updateNode key node)
  getNearestKeys l root k := Database.getNearestKeys l.db root k
  updateIndex k v l := ⟨Database.updateIndex k v l.db, l.log ++ [.update k v]⟩
  removeIndex k l := ⟨Database.removeIndex k l.db, l.log ++ [.remove k]⟩

namespace Session

omit [TrieHash] [Database D] in
@[ext] theorem ext {s t : Session D} (htrie : s.trie = t.trie) (hdb : s.db = t.db) : s = t := by
  obtain ⟨_, _⟩ := s
  obtain ⟨_, _⟩ := t
  cases htrie
  cases hdb
  rfl

def plain (s : Session (Logged D)) : Session D := ⟨s.trie, s.db.db⟩

def logged (s : Session D) : Session (Logged D) := ⟨s.trie, ⟨s.db, []⟩⟩

omit [TrieHash] [Database D] in
@[simp] theorem plain_logged (s : Session D) : s.logged.plain = s := rfl

omit [TrieHash] [Database D] in
theorem logged_plain {s : Session (Logged D)} (h : s.db.log = []) : s.plain.logged = s := by
  obtain ⟨trie, db, log⟩ := s
  cases h
  rfl

end Session

abbrev Unlogs {α : Type} (x : Call (Session (Logged D)) α) (y : Call (Session D) α) : Prop :=
  Action.Projects Session.plain x y

omit [Database D] in
theorem onDb_unlogs {α : Type} {x : Call (Logged D) α} {y : Call D α}
    (h : Action.Projects Logged.db x y) : Unlogs (onDb x) (onDb y) :=
  h.zoom (fun _ => rfl) (fun _ _ => rfl)

theorem updateNode_projects (key : SH256) (node : Node) :
    Action.Projects Logged.db (Database.updateNode key node : Call (Logged D) Node)
      (Database.updateNode key node) :=
  fun _ => rfl

instance logKept : NodeSteady fun l l' : Logged D => l'.log = l.log where
  refl _ := rfl
  trans h h' := h'.trans h
  node _ _ _ := rfl

instance logGrows : Steady fun l l' : Logged D => ∃ calls, l'.log = l.log ++ calls where
  refl l := ⟨[], (List.append_nil _).symm⟩
  trans := by
    rintro _ _ _ ⟨calls, h⟩ ⟨calls', h'⟩
    exact ⟨calls ++ calls', by rw [h', h, List.append_assoc]⟩
  node l _ _ := ⟨[], (List.append_nil _).symm⟩
  index _ _ _ := ⟨_, rfl⟩
  unindex _ _ := ⟨_, rfl⟩

end Logging

namespace SpareMerkleTrie

variable [TrieHash] {D : Type} [Database D]

theorem rebuild_projects (path : Bytes) {bottom : ℕ → NodeValue → Call (Logged D) Node}
    {bottom' : ℕ → NodeValue → Call D Node}
    (hbottom : ∀ lvl v, Action.Projects Logged.db (bottom lvl v) (bottom' lvl v)) (rem : ℕ)
    (current : SH256) :
    Action.Projects Logged.db (rebuild path bottom rem current) (rebuild path bottom' rem current) := by
  induction rem generalizing current with
  | zero => exact Action.Projects.lift _
  | succ rem ih =>
    refine (Action.Projects.read fun _ => rfl).bind fun n => ?_
    cases n.raw with
    | branch branch =>
      refine (Action.Projects.lift _).bind fun idx => ?_
      refine (Action.Projects.lift _).bind fun child => ?_
      exact (ih child).bind fun updated => updateNode_projects _ _
    | leaf leaf => exact hbottom _ _
    | emptyLeaf => exact hbottom _ _
    | nextFree node => exact hbottom _ _

theorem addBottom_projects (path value : Bytes) (lvl : ℕ) (v : NodeValue) :
    Action.Projects Logged.db (addBottom path value lvl v : Call (Logged D) Node)
      (addBottom path value lvl v) := by
  have hwrite : Action.Projects Logged.db
      (Action.lift (orPanic (Node.leaf (path.drop lvl) value)) >>= dbAdd : Call (Logged D) Node)
      (Action.lift (orPanic (Node.leaf (path.drop lvl) value)) >>= dbAdd) :=
    (Action.Projects.lift _).bind fun node => updateNode_projects _ _
  cases v with
  | branch branch => exact hwrite
  | emptyLeaf => exact hwrite
  | leaf leaf =>
    simp only [addBottom]
    split_ifs
    · exact hwrite
    · exact Action.Projects.lift _
  | nextFree node =>
    simp only [addBottom]
    split_ifs
    · exact hwrite
    · exact Action.Projects.lift _

omit [Database D] in
theorem setRoot_unlogs (h : SH256) : Unlogs (setRoot h : Call (Session (Logged D)) Unit) (setRoot h) :=
  fun _ => rfl

theorem put_unlogs (path value : Bytes) :
    Unlogs (put path value : Call (Session (Logged D)) Unit) (put path value) := by
  refine (Action.Projects.read fun _ => rfl).bind fun current => ?_
  refine (onDb_unlogs ?_).bind fun root => setRoot_unlogs _
  rw [addLeaf_eq, addLeaf_eq]
  exact rebuild_projects path (addBottom_projects path value) _ _

theorem remove_unlogs (path : Bytes) :
    Unlogs (remove path : Call (Session (Logged D)) Unit) (remove path) := by
  refine (Action.Projects.read fun _ => rfl).bind fun current => ?_
  refine (onDb_unlogs ?_).bind fun root => setRoot_unlogs _
  rw [removeLeaf_eq, removeLeaf_eq]
  exact rebuild_projects path (fun _ _ => Action.Projects.pure _) _ _

theorem setNextFreeNode_unlogs (free : UInt64) :
    Unlogs (setNextFreeNode free : Call (Session (Logged D)) Unit) (setNextFreeNode free) := by
  refine (Action.Projects.read fun _ => rfl).bind fun branch => ?_
  exact (onDb_unlogs (updateNode_projects _ _)).bind fun root => setRoot_unlogs _

theorem getNodeFrom_unlogs (l : Logged D) (path : Bytes) (rem : ℕ) (next : SH256) :
    getNodeFrom l.db path rem next = getNodeFrom l path rem next := by
  induction rem generalizing next with
  | zero => rfl
  | succ rem ih =>
    rw [getNodeFrom, getNodeFrom]
    simp only [ih]
    rfl

end SpareMerkleTrie

namespace ZkTrie

variable [TrieHash] {D : Type} [Database D] {parse : Bytes → Option LeafOpening}

theorem parseNode_unlogs (path : Bytes) (s : Session (Logged D)) :
    parseNode parse path s.plain = parseNode parse path s := by
  unfold parseNode SpareMerkleTrie.getNode
  rw [← SpareMerkleTrie.getNodeFrom_unlogs]
  rfl

theorem rewriteLeaf_unlogs (path : Bytes) (change : LeafOpening → LeafOpening) :
    Unlogs (rewriteLeaf parse path change : Call (Session (Logged D)) Unit)
      (rewriteLeaf parse path change) :=
  (Action.Projects.read (parseNode_unlogs path)).bind fun _ => SpareMerkleTrie.put_unlogs _ _

theorem updateIndex_unlogs (k : SH256) (v : FlattenedLeaf) :
    Unlogs (updateIndex k v : Call (Session (Logged D)) Unit) (updateIndex k v) := fun _ => rfl

theorem removeIndex_unlogs (k : SH256) :
    Unlogs (removeIndex k : Call (Session (Logged D)) Unit) (removeIndex k) := fun _ => rfl

variable [Profile]

theorem incrementNextFreeLeafNodeIndex_unlogs :
    Unlogs (incrementNextFreeLeafNodeIndex : Call (Session (Logged D)) UInt64)
      incrementNextFreeLeafNodeIndex := by
  refine (Action.Projects.read fun _ => rfl).bind fun found => ?_
  refine (Action.Projects.lift _).bind fun next => ?_
  exact (SpareMerkleTrie.setNextFreeNode_unlogs next).bind fun _ => Action.Projects.pure next

theorem insertLeaf_unlogs (hkey : SH256) (range : KeyRange) (value : Bytes) :
    Unlogs (insertLeaf parse hkey range value : Call (Session (Logged D)) Unit)
      (insertLeaf parse hkey range value) := by
  refine (Action.Projects.lift _).bind fun left => ?_
  refine (Action.Projects.lift _).bind fun right => ?_
  refine (Action.Projects.read fun _ => rfl).bind fun free => ?_
  refine (rewriteLeaf_unlogs _ _).bind fun _ => ?_
  refine (Action.Projects.lift _).bind fun new => ?_
  refine (Action.Projects.lift _).bind fun hval => ?_
  refine (updateIndex_unlogs _ _).bind fun _ => ?_
  refine (SpareMerkleTrie.put_unlogs _ _).bind fun _ => ?_
  refine (rewriteLeaf_unlogs _ _).bind fun _ => ?_
  exact incrementNextFreeLeafNodeIndex_unlogs.bind fun _ => Action.Projects.pure ()

theorem updateLeaf_unlogs (hkey : SH256) (current : FlattenedLeaf) (value : Bytes) :
    Unlogs (updateLeaf parse hkey current value : Call (Session (Logged D)) Unit)
      (updateLeaf parse hkey current value) := by
  refine (Action.Projects.lift _).bind fun path => ?_
  refine (Action.Projects.lift _).bind fun hval => ?_
  exact (updateIndex_unlogs _ _).bind fun _ => rewriteLeaf_unlogs _ _

theorem put_unlogs (key value : Bytes) :
    Unlogs (put parse key value : Call (Session (Logged D)) Unit) (put parse key value) := by
  refine (Action.Projects.lift _).bind fun hkey => ?_
  refine (Action.Projects.read fun _ => rfl).bind fun range => ?_
  refine (Action.Projects.read fun _ => rfl).bind fun _ => ?_
  have hafter : Unlogs (do
      let _ ← Action.read subRootHash
      pure () : Call (Session (Logged D)) Unit) (do
      let _ ← Action.read subRootHash
      pure ()) :=
    (Action.Projects.read fun _ => rfl).bind fun _ => Action.Projects.pure ()
  cases range.center with
  | none => exact (insertLeaf_unlogs _ _ _).bind fun _ => hafter
  | some current => exact (updateLeaf_unlogs _ _ _).bind fun _ => hafter

theorem remove_unlogs (key : Bytes) :
    Unlogs (remove parse key : Call (Session (Logged D)) Unit) (remove parse key) := by
  refine (Action.Projects.lift _).bind fun hkey => ?_
  refine (Action.Projects.read fun _ => rfl).bind fun range => ?_
  cases range.center with
  | none => exact Action.Projects.pure ()
  | some current =>
    refine (Action.Projects.lift _).bind fun left => ?_
    refine (Action.Projects.lift _).bind fun right => ?_
    refine (rewriteLeaf_unlogs _ _).bind fun _ => ?_
    refine (Action.Projects.lift _).bind fun path => ?_
    refine (Action.Projects.read (parseNode_unlogs path)).bind fun _ => ?_
    refine (removeIndex_unlogs _).bind fun _ => ?_
    exact (SpareMerkleTrie.remove_unlogs _).bind fun _ => rewriteLeaf_unlogs _ _

end ZkTrie

end LineaSgxProver.Zktrie
