import LineaSgxProver.Zktrie.Descent
import Mathlib.Data.List.Basic

namespace LineaSgxProver.Zktrie

open Library

section Unambiguous

variable [TrieHash] {m m' : NodeMap}

/-- No two nodes are on record under one hash. -/
def Unambiguous (m : NodeMap) : Prop := ∀ e ∈ m, ∀ e' ∈ m, e.1 = e'.1 → e.2 = e'.2

theorem Unambiguous.mono (h : Unambiguous m') (hsub : ∀ e ∈ m, e ∈ m') : Unambiguous m :=
  fun e he e' he' => h e (hsub e he) e' (hsub e' he')

theorem Unambiguous.get (h : Unambiguous m) {k : SH256} {n : Node} (hmem : (k, n) ∈ m) : m.get k = some n := by
  obtain ⟨n', hget⟩ : ∃ n', m.get k = some n' := by
    apply Option.ne_none_iff_exists'.mp
    intro hnone
    have hne := List.lookup_eq_none_iff.mp hnone _ hmem
    simp at hne
  have heq : n = n' := h _ hmem _ (mem_of_get hget) rfl
  rw [hget, heq]

theorem Unambiguous.keeps (h : Unambiguous m') (hsub : ∀ e ∈ m, e ∈ m') : Keeps m m' :=
  fun _ _ hget => h.get (hsub _ (mem_of_get hget))

end Unambiguous

section Outcomes

theorem walkPath_injective {q q' : List Bool} (h : walkPath q = walkPath q') : q = q' := by
  have hmap : q.map bitByte = q'.map bitByte := (List.append_inj' h rfl).1
  have hbit : Function.Injective bitByte := by
    intro b b'
    cases b <;> cases b' <;> decide
  exact List.map_injective_iff.mpr hbit hmap

theorem prefixLen_eq_iff {a b : Bytes} : prefixLen a b = a.length ↔ a <+: b := by
  induction a generalizing b with
  | nil => simp [prefixLen]
  | cons x a ih =>
    cases b with
    | nil => simp [prefixLen]
    | cons y b =>
      simp only [prefixLen, List.cons_prefix_cons, List.length_cons, ← ih]
      split_ifs with h
      · simp [h]
      · simp [h]

theorem drop_ne {q q' : List Bool} {k : ℕ} (htake : q'.take k = q.take k) (hne : q' ≠ q) : q'.drop k ≠ q.drop k := by
  intro hdrop
  apply hne
  rw [← List.take_append_drop k q', htake, hdrop, List.take_append_drop]

variable [TrieHash] {rest rest' : List Bool} {n : Node} {v : Bytes}

def leafNode (rest : List Bool) (v : LeafValue) : Node :=
  Node.ofHashed (.leaf ⟨walkPath rest, v.1⟩) (Node.leaf_isSome v)

theorem leaf_walkPath (rest : List Bool) (v : LeafValue) :
    Node.leaf (walkPath rest) v.1 = some (leafNode rest v) := by
  have hne : walkPath rest ≠ [LeafType.nextFreeNode] := by
    intro h
    cases rest with
    | nil => exact absurd h (by decide)
    | cons b rest =>
      have hlen := congrArg List.length h
      simp [walkPath] at hlen
  rw [Node.leaf, if_neg hne]
  exact Node.new_ofHashed _ _

/-- The node is the leaf at the end of a walk with these turns left. -/
def LeafAt (rest : List Bool) (n : Node) : Prop := ∃ v, n.raw = .leaf ⟨walkPath rest, v⟩

theorem leafNode_at (rest : List Bool) (v : LeafValue) : LeafAt rest (leafNode rest v) := ⟨v.1, rfl⟩

theorem LeafAt.found_eq (h : LeafAt rest n) : found rest n = .ok (some n) := by
  obtain ⟨v, hv⟩ := h
  simp only [found, hv, ↓reduceIte]

theorem LeafAt.found_other (h : LeafAt rest n) (hne : rest' ≠ rest) : found rest' n = .ok none := by
  obtain ⟨v, hv⟩ := h
  have hpath : walkPath rest ≠ walkPath rest' := fun heq => hne (walkPath_injective heq).symm
  simp only [found, hv, hpath, ↓reduceIte]

theorem LeafAt.admits_eq (h : LeafAt rest n) : admits rest n = .ok () := by
  obtain ⟨v, hv⟩ := h
  have hprefix := prefixLen_eq_iff.mpr (List.prefix_rfl (l := walkPath rest))
  simp only [admits, hv, hprefix, ↓reduceIte]

theorem LeafAt.admits_other (h : LeafAt rest n) (hlen : rest'.length = rest.length) (hne : rest' ≠ rest) :
    admits rest' n = .error (.error .pathNotAllow) := by
  obtain ⟨v, hv⟩ := h
  have hprefix : prefixLen (walkPath rest) (walkPath rest') ≠ (walkPath rest).length := by
    intro heq
    have hpre := prefixLen_eq_iff.mp heq
    exact hne (walkPath_injective (hpre.eq_of_length (by simp [walkPath, hlen])).symm)
  simp only [admits, hv, hprefix, ↓reduceIte]

theorem found_emptyLeaf (rest : List Bool) : found rest Node.emptyLeaf = .ok none := rfl

theorem LeafAt.branch? (h : LeafAt rest n) : n.raw.branch? = none := by
  obtain ⟨v, hv⟩ := h
  rw [hv]
  rfl

end Outcomes

section Sessions

variable [TrieHash] {D : Type} [Database D] [NodeStore D] {s s₁ : Session D} {p : List Bool} {d : Descent} {n : Node}

/-- What a write leaves: the new root, and the new nodes on record over the old ones. -/
structure Rebuilt (s s₁ : Session D) (d : Descent) (n : Node) : Prop where
  root : s₁.trie.rootHash = d.top n
  log : ∃ new, NodeStore.nodes s₁.db = new ++ NodeStore.nodes s.db ∧ (n.hash, n) ∈ emptyTrieNode ++ new ∧
    (∀ x ∈ MerkleTree.steps treeDigest d.trail n.hash, entry x ∈ new) ∧
    ∀ e ∈ new, e = (n.hash, n) ∨ ∃ x ∈ MerkleTree.steps treeDigest d.trail n.hash, entry x = e

theorem SpareMerkleTrie.Along.descended {path : Bytes} {m : NodeMap} {q : List Bool} {h : SH256}
    {d : Descent} (hpath : SpareMerkleTrie.Along path q) (hd : Descends m q h d) : SpareMerkleTrie.Along path d.rest := by
  induction hd with
  | bottom => exact hpath
  | stop => exact hpath
  | turn _ _ _ ih => exact ih hpath.tail

namespace SpareMerkleTrie

abbrev WalksTo (s : Session D) (p : List Bool) (d : Descent) : Prop :=
  Descends (known s.db) (true :: p) s.trie.rootHash d

def place (p : List Bool) (s : Session D) : Except (Fault Error) Unit := do
  let d ← descend (known s.db) (true :: p) s.trie.rootHash
  admits d.rest d.node

theorem WalksTo.place_eq (hd : WalksTo s p d) : place p s = admits d.rest d.node := by
  rw [place, descend_eq_of_descends hd, ok_bind]

theorem WalksTo.read (hd : WalksTo s p d) :
    (Action.read fun db => descend (known db) (true :: p) s.trie.rootHash : Call D Descent).Returns s.db d s.db :=
  Action.Returns.read (g := fun db => descend (known db) (true :: p) s.trie.rootHash) (descend_eq_of_descends hd)

theorem getNode_eq (hp : p.length = zkTrieDepth) :
    getNode (leafPath p) s =
      descend (known s.db) (true :: p) s.trie.rootHash >>= fun d => found d.rest d.node := by
  have h := getNodeFrom_eq s.db (along_leafPath hp) s.trie.rootHash
  rw [List.length_cons, hp] at h
  exact h

theorem rebuildTop_eq (hp : p.length = zkTrieDepth) (bottom : ℕ → NodeValue → Call D Node) (h : SH256) :
    rebuild (leafPath p) bottom (zkTrieDepth + 2) h =
      Action.read (fun db => descend (known db) (true :: p) h) >>= graft bottom := by
  have heq := rebuild_eq bottom (along_leafPath hp) h
  rwa [List.length_cons, hp] at heq

omit [NodeStore D] in
theorem graft_stops {path : Bytes} (hpath : Along path d.rest) {e : Fault Error}
    (h : admits d.rest d.node = .error e) (value : Bytes) (db : D) :
    (graft (addBottom path value) d).Stops db e db := by
  have hdrop := hpath.drop_eq
  unfold admits at h
  unfold graft
  cases hraw : d.node.raw with
  | branch branch =>
    rw [hraw] at h
    cases h
    rfl
  | emptyLeaf =>
    rw [hraw] at h
    cases h
  | leaf leaf =>
    simp only [hraw, addBottom, hdrop] at h ⊢
    split_ifs at h ⊢
    cases h
    rfl
  | nextFree node =>
    simp only [hraw, addBottom, hdrop] at h ⊢
    split_ifs at h ⊢
    cases h
    rfl

omit [NodeStore D] in
theorem graft_admitted {path : Bytes} (hpath : Along path d.rest) (h : admits d.rest d.node = .ok ())
    (value : LeafValue) :
    graft (addBottom path value.1) d = (dbAdd (leafNode d.rest value) >>= climb d.trail : Call D Node) := by
  have hdrop := hpath.drop_eq
  have hleaf : (Action.lift (orPanic (Node.leaf (walkPath d.rest) value.1)) >>= dbAdd : Call D Node) =
      dbAdd (leafNode d.rest value) := by
    rw [leaf_walkPath, orPanic_some, Action.lift_ok_bind]
  unfold admits at h
  unfold graft
  cases hraw : d.node.raw with
  | branch branch =>
    rw [hraw] at h
    cases h
  | emptyLeaf => simp only [addBottom, hdrop, hleaf]
  | leaf leaf =>
    rw [hraw] at h
    simp only at h
    split_ifs at h with hprefix
    simp only [addBottom, hdrop, hprefix, ↓reduceIte, hleaf]
  | nextFree node =>
    rw [hraw] at h
    simp only at h
    split_ifs at h with hprefix
    simp only [addBottom, hdrop, hprefix, ↓reduceIte, hleaf]

theorem put_stops (hp : p.length = zkTrieDepth) {e : Fault Error} (h : place p s = .error e) (value : Bytes) :
    (put (leafPath p) value).Stops s e s := by
  have hbelow : (addLeaf (leafPath p) value (zkTrieDepth + 2) s.trie.rootHash).Stops s.db e s.db := by
    rw [addLeaf_eq, rebuildTop_eq hp]
    rcases descends_or_breaks (known s.db) (true :: p) s.trie.rootHash with ⟨d, hd⟩ | ⟨lvl, h', hb⟩
    · rw [WalksTo.place_eq hd] at h
      apply (WalksTo.read hd).stops
      exact graft_stops ((along_leafPath hp).descended hd) h value s.db
    · rw [place, descend_eq_of_breaks hb] at h
      cases h
      exact (Action.Stops.read (g := fun db => descend (known db) (true :: p) s.trie.rootHash)
        (descend_eq_of_breaks hb)).head
  apply (Action.Returns.read rfl).stops
  exact (Action.Stops.zoom hbelow).head

theorem put_rebuilds (hp : p.length = zkTrieDepth) (hd : WalksTo s p d) (h : admits d.rest d.node = .ok ())
    (value : LeafValue) :
    ∃ s₁, (put (leafPath p) value.1).Returns s () s₁ ∧ Rebuilt s s₁ d (leafNode d.rest value) := by
  let n := leafNode d.rest value
  obtain ⟨db₁, hadd, hnodes₁⟩ := NodeStore.updateNode_eq s.db n.hash n
  obtain ⟨top, db₂, hclimb, hhash, hnodes₂⟩ := climb_returns d.trail n db₁
  have hbelow : (addLeaf (leafPath p) value.1 (zkTrieDepth + 2) s.trie.rootHash).Returns s.db top db₂ := by
    rw [addLeaf_eq, rebuildTop_eq hp]
    apply (WalksTo.read hd).bind
    rw [graft_admitted ((along_leafPath hp).descended hd) h]
    exact Action.Returns.bind hadd hclimb
  refine ⟨⟨⟨top.hash⟩, db₂⟩, ?_, hhash,
    ((MerkleTree.steps treeDigest d.trail n.hash).map entry).reverse ++ [(n.hash, n)], ?_, ?_, ?_, ?_⟩
  · apply (Action.Returns.read rfl).bind
    exact (Action.Returns.zoom hbelow).bind (Action.Returns.update _ _)
  · exact (hnodes₂.trans (by rw [hnodes₁])).trans (List.append_cons ..)
  · simp [n]
  · intro x hx
    simp only [List.mem_append, List.mem_reverse]
    exact Or.inl (List.mem_map_of_mem hx)
  · intro e he
    simp only [List.mem_append, List.mem_reverse, List.mem_map, List.mem_singleton] at he
    exact he.symm

theorem remove_rebuilds (hp : p.length = zkTrieDepth) (hd : WalksTo s p d) (h : d.node.raw.branch? = none) :
    ∃ s₁, (remove (leafPath p)).Returns s () s₁ ∧ Rebuilt s s₁ d Node.emptyLeaf := by
  obtain ⟨top, db₁, hclimb, hhash, hnodes⟩ := climb_returns d.trail Node.emptyLeaf s.db
  have hgraft : (graft removeBottom d : Call D Node) = climb d.trail Node.emptyLeaf := by
    unfold graft
    cases hraw : d.node.raw with
    | branch branch =>
      rw [hraw] at h
      cases h
    | emptyLeaf => rfl
    | leaf leaf => rfl
    | nextFree node => rfl
  have hbelow : (removeLeaf (leafPath p) (zkTrieDepth + 2) s.trie.rootHash).Returns s.db top db₁ := by
    rw [removeLeaf_eq, rebuildTop_eq hp]
    apply (WalksTo.read hd).bind
    rw [hgraft]
    exact hclimb
  refine ⟨⟨⟨top.hash⟩, db₁⟩, ?_, hhash, _, hnodes, ?_, ?_, ?_⟩
  · apply (Action.Returns.read rfl).bind
    exact (Action.Returns.zoom hbelow).bind (Action.Returns.update _ _)
  · exact List.mem_append_left _ (empty_mem_emptyTrieNode (Nat.zero_le _))
  · intro x hx
    exact List.mem_reverse.mpr (List.mem_map_of_mem hx)
  · intro e he
    exact Or.inr (List.mem_map.mp (List.mem_reverse.mp he))

end SpareMerkleTrie

section Reading

open SpareMerkleTrie (getNode place WalksTo getNode_eq)

theorem getNode_of_ends (hp : p.length = zkTrieDepth) {rest : List Bool}
    (h : Ends (known s.db) (true :: p) s.trie.rootHash rest n) : getNode (leafPath p) s = found rest n := by
  obtain ⟨trail, hd⟩ := h
  rw [getNode_eq hp, descend_eq_of_descends hd, ok_bind]

theorem place_of_ends {rest : List Bool} (h : Ends (known s.db) (true :: p) s.trie.rootHash rest n) :
    place p s = admits rest n := by
  obtain ⟨trail, hd⟩ := h
  rw [place, descend_eq_of_descends hd, ok_bind]

/-- The walk down a path breaks off at a missing node. -/
def BreaksOff (s : Session D) (p : List Bool) (lvl : ℕ) (h : SH256) : Prop :=
  Breaks (known s.db) (true :: p) s.trie.rootHash lvl h

theorem BreaksOff.getNode_eq {lvl : ℕ} {h : SH256} (hp : p.length = zkTrieDepth) (hb : BreaksOff s p lvl h) :
    getNode (leafPath p) s = .error (.error (.nodeNotFound lvl h)) := by
  rw [SpareMerkleTrie.getNode_eq hp, descend_eq_of_breaks hb]
  rfl

theorem BreaksOff.place_eq {lvl : ℕ} {h : SH256} (hb : BreaksOff s p lvl h) :
    place p s = .error (.error (.nodeNotFound lvl h)) := by
  rw [place, descend_eq_of_breaks hb]
  rfl

theorem ends_or_breaksOff (s : Session D) (p : List Bool) :
    (∃ d, WalksTo s p d) ∨ ∃ lvl h, BreaksOff s p lvl h :=
  descends_or_breaks _ _ _

theorem Rebuilt.known_subset (h : Rebuilt s s₁ d n) : ∀ e ∈ known s.db, e ∈ known s₁.db := by
  obtain ⟨new, hnew, _⟩ := h.log
  exact fun e he => Extends.known_subset ⟨new, hnew⟩ he

theorem Rebuilt.grafted (h : Rebuilt s s₁ d n) (hn : n.raw.branch? = none) {m m' : NodeMap}
    (hm' : Unambiguous m') (hsub : ∀ e ∈ m, e ∈ m') (hempty : ∀ e ∈ emptyTrieNode, e ∈ m')
    (hnew : ∀ new, NodeStore.nodes s₁.db = new ++ NodeStore.nodes s.db → ∀ e ∈ new, e ∈ m') :
    Grafted m m' d n := by
  obtain ⟨new, hlog, hnode, hsteps, _⟩ := h.log
  refine ⟨hm'.keeps hsub, hn, ?_, fun x hx => hm'.get (hnew new hlog _ (hsteps x hx))⟩
  apply hm'.get
  rcases List.mem_append.mp hnode with hmem | hmem
  · exact hempty _ hmem
  · exact hnew new hlog _ hmem

theorem Rebuilt.grafted_known (h : Rebuilt s s₁ d n) (hn : n.raw.branch? = none)
    (hm : Unambiguous (known s₁.db)) : Grafted (known s.db) (known s₁.db) d n := by
  refine h.grafted hn hm h.known_subset (fun e he => List.mem_append_left _ he) ?_
  intro new hnew e he
  apply List.mem_append_right
  rw [hnew]
  exact List.mem_append_left _ he

variable {p' : List Bool} (hd : WalksTo s p d) (h : Rebuilt s s₁ d n)
  (hg : Grafted (known s.db) (known s₁.db) d n)

include hd h hg

theorem Rebuilt.ends_same : Ends (known s₁.db) (true :: p) s₁.trie.rootHash d.rest n := by
  rw [h.root, hd.rest_eq]
  exact hd.grafted_through hg rfl rfl

theorem Rebuilt.ends_through (hlen : p'.length = p.length)
    (htake : (true :: p').take d.trail.length = (true :: p).take d.trail.length) :
    Ends (known s₁.db) (true :: p') s₁.trie.rootHash ((true :: p').drop d.trail.length) n := by
  rw [h.root]
  exact hd.grafted_through hg (congrArg Nat.succ hlen) htake

theorem Rebuilt.ends_beside (hlen : p'.length = p.length)
    (htake : (true :: p').take d.trail.length ≠ (true :: p).take d.trail.length) {rest : List Bool} {k : Node}
    (hends : Ends (known s.db) (true :: p') s.trie.rootHash rest k) :
    Ends (known s₁.db) (true :: p') s₁.trie.rootHash rest k := by
  rw [h.root]
  exact hd.grafted_beside hg (congrArg Nat.succ hlen) htake hends

theorem Rebuilt.breaksOff (hlen : p'.length = p.length)
    (htake : (true :: p').take d.trail.length ≠ (true :: p).take d.trail.length) {lvl : ℕ} {h' : SH256}
    (hb : BreaksOff s p' lvl h') (hnone : (known s₁.db).get h' = none) : BreaksOff s₁ p' lvl h' := by
  unfold BreaksOff
  rw [h.root]
  exact hd.grafted_breaks hg (congrArg Nat.succ hlen) htake hb hnone

/-- Off the path of a write, a walk comes to the written place with other turns left, or to where it came
before, or breaks off as before. -/
theorem Rebuilt.walk_other (hlen : p'.length = p.length) (hne : p' ≠ p)
    (hquiet : ∀ lvl h', BreaksOff s p' lvl h' → (known s₁.db).get h' = none) :
    (∃ rest, rest.length = d.rest.length ∧ rest ≠ d.rest ∧
        Ends (known s.db) (true :: p') s.trie.rootHash rest d.node ∧
        Ends (known s₁.db) (true :: p') s₁.trie.rootHash rest n) ∨
      (∃ rest k, Ends (known s.db) (true :: p') s.trie.rootHash rest k ∧
        Ends (known s₁.db) (true :: p') s₁.trie.rootHash rest k) ∨
      ∃ lvl h', BreaksOff s p' lvl h' ∧ BreaksOff s₁ p' lvl h' := by
  by_cases htake : (true :: p').take d.trail.length = (true :: p).take d.trail.length
  · refine Or.inl ⟨(true :: p').drop d.trail.length, ?_, ?_, ?_, h.ends_through hd hg hlen htake⟩
    · rw [hd.rest_eq, List.length_drop, List.length_drop, List.length_cons, List.length_cons, hlen]
    · rw [hd.rest_eq]
      exact drop_ne htake (by simpa using hne)
    · exact hd.through (congrArg Nat.succ hlen) htake
  · rcases ends_or_breaksOff s p' with ⟨d', hd'⟩ | ⟨lvl, h', hb⟩
    · exact Or.inr (Or.inl ⟨_, _, hd'.ends, h.ends_beside hd hg hlen htake hd'.ends⟩)
    · exact Or.inr (Or.inr ⟨_, _, hb, h.breaksOff hd hg hlen htake hb (hquiet _ _ hb)⟩)

theorem Rebuilt.getNode_other (hp : p.length = zkTrieDepth) (hp' : p'.length = zkTrieDepth) (hne : p' ≠ p)
    (hquiet : ∀ lvl h', BreaksOff s p' lvl h' → (known s₁.db).get h' = none)
    (hfound : ∀ rest, rest ≠ d.rest → found rest n = found rest d.node) :
    getNode (leafPath p') s₁ = getNode (leafPath p') s := by
  rcases h.walk_other hd hg (hp'.trans hp.symm) hne hquiet with
    ⟨rest, _, hrest, hends, hends'⟩ | ⟨rest, k, hends, hends'⟩ | ⟨lvl, h', hb, hb'⟩
  · rw [getNode_of_ends hp' hends, getNode_of_ends hp' hends', hfound rest hrest]
  · rw [getNode_of_ends hp' hends, getNode_of_ends hp' hends']
  · rw [hb.getNode_eq hp', hb'.getNode_eq hp']

theorem Rebuilt.place_other (hlen : p'.length = p.length) (hne : p' ≠ p)
    (hquiet : ∀ lvl h', BreaksOff s p' lvl h' → (known s₁.db).get h' = none)
    (hadmits : ∀ rest, rest.length = d.rest.length → rest ≠ d.rest → admits rest n = admits rest d.node) :
    place p' s₁ = place p' s := by
  rcases h.walk_other hd hg hlen hne hquiet with
    ⟨rest, hrest, hne', hends, hends'⟩ | ⟨rest, k, hends, hends'⟩ | ⟨lvl, h', hb, hb'⟩
  · rw [place_of_ends hends, place_of_ends hends', hadmits rest hrest hne']
  · rw [place_of_ends hends, place_of_ends hends']
  · rw [hb.place_eq, hb'.place_eq]

end Reading

section Root

open SpareMerkleTrie (WalksTo rootBranch)

variable {branch : BranchNode}

/-- A write below the root leaves the next free node as it was. -/
theorem Rebuilt.rootBranch (h : Rebuilt s s₁ d n) (hd : WalksTo s p d)
    (hg : Grafted (known s.db) (known s₁.db) d n) (hroot : rootBranch s = .ok branch) :
    ∃ right, rootBranch s₁ = .ok ⟨branch.left, right⟩ := by
  obtain ⟨k, hget, hraw⟩ := rootBranch_eq_ok.mp hroot
  have hd' : Descends (known s.db) (true :: p) s.trie.rootHash d := hd
  cases hd' with
  | stop hget' hraw' =>
    obtain rfl := Option.some.inj (hget.symm.trans hget')
    rw [hraw] at hraw'
    cases hraw'
  | @turn _ _ _ k' branch' d hget' hraw' _ =>
    obtain rfl := Option.some.inj (hget.symm.trans hget')
    obtain rfl := Option.some.inj (hraw.symm.trans hraw')
    refine ⟨d.top n, rootBranch_eq_ok.mpr ⟨_, ?_, branch?_join true (d.top n) branch.left⟩⟩
    rw [h.root]
    exact hg.get_top

theorem setNextFreeNode_raises (hroot : rootBranch s = .ok branch) (free : UInt64) :
    ∃ s₁, (SpareMerkleTrie.setNextFreeNode free).Returns s () s₁ ∧
      s₁.trie.rootHash = (Node.topNode free branch.right).hash ∧
      NodeStore.nodes s₁.db =
        ((Node.topNode free branch.right).hash, Node.topNode free branch.right) :: NodeStore.nodes s.db := by
  let root := Node.topNode free branch.right
  obtain ⟨db₁, hadd, hnodes⟩ := NodeStore.updateNode_eq s.db root.hash root
  refine ⟨⟨⟨root.hash⟩, db₁⟩, ?_, rfl, hnodes⟩
  apply (Action.Returns.read hroot).bind
  exact (Action.Returns.zoom hadd).bind (Action.Returns.update _ _)

end Root

end Sessions

end LineaSgxProver.Zktrie
