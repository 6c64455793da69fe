import LineaSgxProver.Zktrie.FailedWrites
import LineaSgxProver.Zktrie.WalkWrites

namespace LineaSgxProver.Zktrie

open Library
open SpareMerkleTrie (WalksTo place rootBranch)
open ZkTrie (parseNode rewriteLeaf)

section Conditions

variable [TrieHash]

/-- The call returns an error: it neither returns a value nor panics. -/
def Fails {α : Type} (x : Except (Fault Error) α) : Prop := ∃ e, x = .error (.error e)

/-- The nodes on record are filed under their own hashes, which tell them apart, and no next-free node
has the path of a leaf. -/
structure Genuine (m : NodeMap) : Prop where
  filed : ∀ e ∈ m, e.1 = e.2.hash
  unique : Unambiguous m
  nextFree : ∀ e ∈ m, ∀ node, e.2.raw = .nextFree node → LeafType.value ∉ node.path

theorem Genuine.mono {m m' : NodeMap} (h : Genuine m') (hsub : ∀ e ∈ m, e ∈ m') : Genuine m :=
  ⟨fun e he => h.filed e (hsub e he), h.unique.mono hsub, fun e he => h.nextFree e (hsub e he)⟩

variable {D : Type} [Database D] [NodeStore D]

/-- The leaf at the path is written as this opening already. -/
def Unmoved (path : Bytes) (l : LeafOpening) (s : Session D) : Prop :=
  ∀ node, SpareMerkleTrie.getNode path s = .ok (some node) → node.raw.value = some l.toBytes

/-- The second path runs through the place where the walk down the first one ends. -/
def Passes (p p' : List Bool) (s : Session D) : Prop :=
  ∃ rest n, Ends (known s.db) (true :: p) s.trie.rootHash rest n ∧
    (true :: p').take (zkTrieDepth + 1 - rest.length) = (true :: p).take (zkTrieDepth + 1 - rest.length)

/-- No node that a leaf's walk misses in the first session is on record in the second. -/
def Unsupplied (s t : Session D) : Prop :=
  ∀ p lvl h, p.length = zkTrieDepth → BreaksOff s p lvl h → (known t.db).get h = none

end Conditions

section Fails

variable [TrieHash] {D : Type} [Database D] [NodeStore D] {parse : Bytes → Option LeafOpening}
  {s s₁ t : Session D} {p p' : List Bool} {d : Descent} {n : Node}

omit [NodeStore D] in
theorem fails_parseNode_of_none {path : Bytes} (h : SpareMerkleTrie.getNode path s = .ok none) :
    Fails (parseNode parse path s) := by
  unfold ZkTrie.parseNode
  rw [h]
  exact ⟨_, rfl⟩

theorem fails_parseNode_of_breaksOff {lvl : ℕ} {h : SH256} (hp : p.length = zkTrieDepth)
    (hb : BreaksOff s p lvl h) : Fails (parseNode parse (leafPath p) s) := by
  unfold ZkTrie.parseNode
  rw [hb.getNode_eq hp]
  exact ⟨_, rfl⟩

omit [NodeStore D] in
theorem parseNode_congr {path : Bytes} (h : SpareMerkleTrie.getNode path s₁ = SpareMerkleTrie.getNode path s) :
    parseNode parse path s₁ = parseNode parse path s := by
  unfold ZkTrie.parseNode
  rw [h]

theorem found_eq_some {rest : List Bool} {k : Node} (h : found rest n = .ok (some k)) :
    k = n ∧ (LeafAt rest n ∨ ∃ node, n.raw = .nextFree node ∧ node.path = walkPath rest) := by
  unfold found at h
  cases hraw : n.raw with
  | branch branch =>
    rw [hraw] at h
    cases h
  | emptyLeaf =>
    rw [hraw] at h
    cases h
  | leaf node =>
    rw [hraw] at h
    simp only at h
    split_ifs at h with hpath
    · obtain rfl := Option.some.inj (Except.ok.inj h)
      exact ⟨rfl, Or.inl ⟨node.value, by rw [hraw, ← hpath]⟩⟩
    · cases h
  | nextFree node =>
    rw [hraw] at h
    simp only at h
    split_ifs at h with hpath
    obtain rfl := Option.some.inj (Except.ok.inj h)
    exact ⟨rfl, Or.inr ⟨node, rfl, hpath⟩⟩

/-- A leaf that can be read is where its walk ends. -/
theorem leafAt_of_parseNode (hs : Genuine (known s.db)) (hp : p.length = zkTrieDepth) {prior : LeafOpening}
    (h : parseNode parse (leafPath p) s = .ok prior) :
    ∃ d data, WalksTo s p d ∧ d.node.raw = .leaf ⟨walkPath d.rest, data⟩ ∧ parse data = some prior := by
  rcases ends_or_breaksOff s p with ⟨d, hd⟩ | ⟨lvl, h', hb⟩
  · have hget := getNode_of_ends hp hd.ends
    unfold ZkTrie.parseNode at h
    rw [hget] at h
    obtain ⟨found?, hfound, h⟩ := bind_eq_ok.mp h
    cases found? with
    | none => cases h
    | some k =>
      obtain ⟨rfl, hleaf | ⟨node, hraw, hpath⟩⟩ := found_eq_some hfound
      · obtain ⟨data, hraw⟩ := hleaf
        refine ⟨d, data, hd, hraw, ?_⟩
        simp only [hraw, NodeValue.value] at h
        exact orPanic_eq_ok.mp h
      · obtain ⟨h', hnode⟩ := hd.get_node
        have hnot := hs.nextFree _ (mem_of_get hnode) node hraw
        rw [hpath] at hnot
        exact absurd (by simp [walkPath]) hnot
  · obtain ⟨e, he⟩ : Fails (parseNode parse (leafPath p) s) := fails_parseNode_of_breaksOff hp hb
    rw [he] at h
    cases h

theorem passes_iff_of_ends {rest : List Bool} (hends : Ends (known s.db) (true :: p) s.trie.rootHash rest n) :
    Passes p p' s ↔
      (true :: p').take (zkTrieDepth + 1 - rest.length) = (true :: p).take (zkTrieDepth + 1 - rest.length) := by
  constructor
  · rintro ⟨rest', k, hends', htake⟩
    obtain ⟨rfl, _⟩ := hends'.unique hends
    exact htake
  · intro htake
    exact ⟨rest, n, hends, htake⟩

theorem passes_iff (hp : p.length = zkTrieDepth) (hd : WalksTo s p d) :
    Passes p p' s ↔ (true :: p').take d.trail.length = (true :: p).take d.trail.length := by
  have hle := hd.trail_le
  rw [List.length_cons, hp] at hle
  have htrail : zkTrieDepth + 1 - d.rest.length = d.trail.length := by
    rw [hd.rest_eq, List.length_drop, List.length_cons, hp]
    omega
  rw [passes_iff_of_ends hd.ends, htrail]

theorem not_fails_of_leafAt (hp : p.length = zkTrieDepth) {rest : List Bool}
    (hends : Ends (known s.db) (true :: p) s.trie.rootHash rest n) (hleaf : LeafAt rest n) :
    ¬ Fails (parseNode parse (leafPath p) s) := by
  have hget := (getNode_of_ends hp hends).trans hleaf.found_eq
  obtain ⟨data, hraw⟩ := hleaf
  unfold ZkTrie.parseNode
  simp only [hget, ok_bind, hraw, NodeValue.value]
  rintro ⟨e, he⟩
  exact orPanic_ne_error he

theorem exists_walksTo_of_not_fails (hp : p.length = zkTrieDepth)
    (h : ¬ Fails (parseNode parse (leafPath p) s)) : ∃ d, WalksTo s p d := by
  rcases ends_or_breaksOff s p with hd | ⟨lvl, h', hb⟩
  · exact hd
  · exact absurd (fails_parseNode_of_breaksOff hp hb) h

theorem exists_walksTo_of_place (h : ¬ Fails (place p s)) : ∃ d, WalksTo s p d := by
  rcases ends_or_breaksOff s p with hd | ⟨lvl, h', hb⟩
  · exact hd
  · exact absurd ⟨_, hb.place_eq⟩ h

theorem not_breaksOff (hd : WalksTo s p d) {lvl : ℕ} {h' : SH256} : ¬ BreaksOff s p lvl h' := by
  intro hb
  have hstop := (descend_eq_of_descends hd).symm.trans (descend_eq_of_breaks hb)
  cases hstop

section Rewritten

variable (hp : p.length = zkTrieDepth) (hp' : p'.length = zkTrieDepth) (hd : WalksTo s p d)
  (hleaf : LeafAt d.rest d.node) {v : LeafValue} (h : Rebuilt s s₁ d (leafNode d.rest v))
  (hs₁ : Unambiguous (known s₁.db))

include hp hp' hd hleaf h hs₁

/-- Rewriting a leaf leaves what is read of the other leaves as it was. -/
theorem Rebuilt.rewritten_other (hne : p' ≠ p)
    (hquiet : ∀ lvl h', BreaksOff s p' lvl h' → (known s₁.db).get h' = none) :
    parseNode parse (leafPath p') s₁ = parseNode parse (leafPath p') s := by
  have hnew := leafNode_at d.rest v
  apply parseNode_congr
  apply h.getNode_other hd (h.grafted_known hnew.branch? hs₁) hp hp' hne hquiet
  intro rest hrest
  rw [hnew.found_other hrest, hleaf.found_other hrest]

theorem Rebuilt.rewritten_place (hquiet : ∀ lvl h', BreaksOff s p' lvl h' → (known s₁.db).get h' = none) :
    place p' s₁ = place p' s := by
  have hnew := leafNode_at d.rest v
  have hg := h.grafted_known hnew.branch? hs₁
  by_cases hne : p' = p
  · subst hne
    rw [place_of_ends (h.ends_same hd hg), place_of_ends hd.ends, hnew.admits_eq, hleaf.admits_eq]
  · apply h.place_other hd hg (hp'.trans hp.symm) hne hquiet
    intro rest hlen hrest
    rw [hnew.admits_other hlen hrest, hleaf.admits_other hlen hrest]

omit hleaf in
theorem Rebuilt.rewritten_walk {d' : Descent} (hd' : WalksTo s p' d') :
    ∃ k, Ends (known s₁.db) (true :: p') s₁.trie.rootHash d'.rest k := by
  have hnew := leafNode_at d.rest v
  have hg := h.grafted_known hnew.branch? hs₁
  by_cases hne : p' = p
  · subst hne
    obtain ⟨hrest, _⟩ := hd'.ends.unique hd.ends
    exact ⟨_, hrest ▸ h.ends_same hd hg⟩
  · rcases h.walk_other hd hg (hp'.trans hp.symm) hne (fun _ _ hb => absurd hb (not_breaksOff hd')) with
      ⟨rest, _, _, hends, hends'⟩ | ⟨rest, k, hends, hends'⟩ | ⟨lvl, h', hb, _⟩
    · exact ⟨_, (hends.unique hd'.ends).1 ▸ hends'⟩
    · exact ⟨_, (hends.unique hd'.ends).1 ▸ hends'⟩
    · exact absurd hb (not_breaksOff hd')

theorem Rebuilt.rewritten_fails_iff (hquiet : ∀ lvl h', BreaksOff s p' lvl h' → (known s₁.db).get h' = none) :
    Fails (parseNode parse (leafPath p') s₁) ↔ Fails (parseNode parse (leafPath p') s) := by
  by_cases hne : p' = p
  · subst hne
    have hnew := leafNode_at d.rest v
    have hends := h.ends_same hd (h.grafted_known hnew.branch? hs₁)
    exact iff_of_false (not_fails_of_leafAt hp hends hnew) (not_fails_of_leafAt hp hd.ends hleaf)
  · rw [h.rewritten_other hp hp' hd hleaf hs₁ hne hquiet]

omit hleaf hp in
theorem Rebuilt.rewritten_passes_iff {p'' : List Bool} (hp : p.length = zkTrieDepth) {d' : Descent}
    (hd' : WalksTo s p' d') : Passes p' p'' s₁ ↔ Passes p' p'' s := by
  obtain ⟨k, hends⟩ := h.rewritten_walk hp hp' hd hs₁ hd'
  rw [passes_iff_of_ends hends, passes_iff_of_ends hd'.ends]

end Rewritten

section Placed

variable (hp : p.length = zkTrieDepth) (hp' : p'.length = zkTrieDepth) (hd : WalksTo s p d)
  (hs₁ : Unambiguous (known s₁.db)) (hne : p' ≠ p)
  (hquiet : ∀ lvl h', BreaksOff s p' lvl h' → (known s₁.db).get h' = none)

include hp hp' hd hs₁ hne hquiet

/-- Beside a leaf newly placed, a read fails where its path runs through the place, or as it did. -/
theorem Rebuilt.placed_fails_iff {v : LeafValue} (h : Rebuilt s s₁ d (leafNode d.rest v)) :
    Fails (parseNode parse (leafPath p') s₁) ↔ Passes p p' s ∨ Fails (parseNode parse (leafPath p') s) := by
  have hnew := leafNode_at d.rest v
  have hg := h.grafted_known hnew.branch? hs₁
  rw [passes_iff hp hd]
  by_cases htake : (true :: p').take d.trail.length = (true :: p).take d.trail.length
  · have hends := h.ends_through hd hg (hp'.trans hp.symm) htake
    have hrest : (true :: p').drop d.trail.length ≠ d.rest := by
      rw [hd.rest_eq]
      exact drop_ne htake (by simpa using hne)
    have hget := (getNode_of_ends hp' hends).trans (hnew.found_other hrest)
    exact iff_of_true (fails_parseNode_of_none hget) (Or.inl htake)
  · have hget : SpareMerkleTrie.getNode (leafPath p') s₁ = SpareMerkleTrie.getNode (leafPath p') s := by
      rcases ends_or_breaksOff s p' with ⟨d', hd'⟩ | ⟨lvl, h', hb⟩
      · have hends := h.ends_beside hd hg (hp'.trans hp.symm) htake hd'.ends
        rw [getNode_of_ends hp' hd'.ends, getNode_of_ends hp' hends]
      · have hb' := h.breaksOff hd hg (hp'.trans hp.symm) htake hb (hquiet _ _ hb)
        rw [hb.getNode_eq hp', hb'.getNode_eq hp']
    rw [parseNode_congr hget]
    exact (or_iff_right htake).symm

theorem Rebuilt.removed_fails_iff (hleaf : LeafAt d.rest d.node) (h : Rebuilt s s₁ d Node.emptyLeaf) :
    Fails (parseNode parse (leafPath p') s₁) ↔ Fails (parseNode parse (leafPath p') s) := by
  have hget : SpareMerkleTrie.getNode (leafPath p') s₁ = SpareMerkleTrie.getNode (leafPath p') s := by
    apply h.getNode_other hd (h.grafted_known rfl hs₁) hp hp' hne hquiet
    intro rest hrest
    rw [hleaf.found_other hrest, found_emptyLeaf]
  rw [parseNode_congr hget]

end Placed

theorem Rebuilt.removed_fails (hp : p.length = zkTrieDepth) (hd : WalksTo s p d)
    (hs₁ : Unambiguous (known s₁.db)) (h : Rebuilt s s₁ d Node.emptyLeaf) :
    Fails (parseNode parse (leafPath p) s₁) :=
  fails_parseNode_of_none (getNode_of_ends hp (h.ends_same hd (h.grafted_known rfl hs₁)))

section Void

/-- A leaf rewritten moves the root unless it was written so already. -/
theorem Rebuilt.trie_eq_iff (hm : ∀ e ∈ known s.db, e.1 = e.2.hash) (hd : WalksTo s p d) {data : Bytes}
    (hraw : d.node.raw = .leaf ⟨walkPath d.rest, data⟩) {v : LeafValue}
    (h : Rebuilt s s₁ d (leafNode d.rest v)) (hs₁ : Unambiguous (known s₁.db)) :
    s₁.trie = s.trie ↔ data = v.1 := by
  have hg := h.grafted_known (leafNode_at d.rest v).branch? hs₁
  have hroot : s₁.trie = s.trie ↔ d.top (leafNode d.rest v) = s.trie.rootHash := by
    rw [← h.root]
    constructor
    · exact congrArg _
    · intro heq
      cases h₁ : s₁.trie
      cases h₀ : s.trie
      rw [h₁, h₀] at heq
      exact congrArg _ heq
  rw [hroot]
  constructor
  · intro htop
    have hnode := congrArg Node.raw (hd.node_eq_of_top hg htop)
    rw [hraw] at hnode
    exact (congrArg LeafNode.value (NodeValue.leaf.inj hnode)).symm
  · rintro rfl
    have hnode : leafNode d.rest v = d.node := Node.ext_raw hraw.symm
    rw [hnode]
    exact hd.climbs hm

/-- A write that leaves the root where it was puts nothing new on record. -/
theorem Rebuilt.get_eq_none (hm : ∀ e ∈ known s.db, e.1 = e.2.hash) (hd : WalksTo s p d) (h : Rebuilt s s₁ d n)
    (hg : Grafted (known s.db) (known s₁.db) d n) (htrie : s₁.trie = s.trie) {h' : SH256}
    (hnone : (known s.db).get h' = none) : (known s₁.db).get h' = none := by
  have hnode : n = d.node := hd.node_eq_of_top hg (by rw [← h.root, htrie])
  obtain ⟨k, hk⟩ := hd.get_node
  have hfiled := hm _ (mem_of_get hk)
  obtain ⟨new, hlog, _, _, hnew⟩ := h.log
  by_contra hsome
  obtain ⟨n', hget⟩ := Option.ne_none_iff_exists'.mp hsome
  have hmem : (h', n') ∈ emptyTrieNode ++ (new ++ NodeStore.nodes s.db) := by
    rw [← hlog]
    exact mem_of_get hget
  have hold : (h', n') ∉ known s.db := by
    intro hin
    have hne := List.lookup_eq_none_iff.mp hnone _ hin
    simp at hne
  have hin : (h', n') ∈ new := by
    simp only [known, List.mem_append] at hmem hold
    tauto
  rcases hnew _ hin with heq | ⟨x, hx, heq⟩
  · obtain ⟨rfl, rfl⟩ := Prod.mk.inj heq
    rw [hnode, ← hfiled, hk] at hnone
    cases hnone
  · obtain ⟨rfl, rfl⟩ := Prod.mk.inj heq
    rw [hnode] at hx
    rw [hd.steps_known hm x hx] at hnone
    cases hnone

end Void

end Fails

section Errs

variable [TrieHash] {σ α β : Type}

theorem errs_bind_iff {x : Call σ α} {f : α → Call σ β} {s : σ} :
    Errs (x >>= f) s ↔ Errs x s ∨ ∃ a t, x.Returns s a t ∧ Errs (f a) t := by
  constructor
  · rintro ⟨e, u, h⟩
    rcases Action.bind_stops_iff.mp h with hstop | ⟨a, t, hret, hstop⟩
    · exact Or.inl ⟨e, u, hstop⟩
    · exact Or.inr ⟨a, t, hret, e, u, hstop⟩
  · rintro (⟨e, u, h⟩ | ⟨a, t, hret, e, u, h⟩)
    · exact ⟨e, u, h.head⟩
    · exact ⟨e, u, hret.stops h⟩

theorem errs_read_bind_iff {g : σ → Except (Fault Error) α} {f : α → Call σ β} {s : σ} :
    Errs (Action.read g >>= f) s ↔ Fails (g s) ∨ ∃ a, g s = .ok a ∧ Errs (f a) s := by
  rw [errs_bind_iff]
  have hread : Errs (Action.read g) s ↔ Fails (g s) := by
    simp [Errs, Fails, Action.Stops, Action.read]
  have hret : ∀ a t, (Action.read g).Returns s a t ↔ g s = .ok a ∧ s = t := by
    simp [Action.Returns, Action.read]
  simp only [hread, hret]
  grind

theorem errs_of_returns {x : Call σ α} {f : α → Call σ β} {s t : σ} {a : α} (h : x.Returns s a t) :
    Errs (x >>= f) s ↔ Errs (f a) t := by
  unfold Errs Action.Stops
  rw [Action.bind_apply, h]

end Errs

section Steps

variable [TrieHash] {D : Type} [Database D] [NodeStore D] {parse : Bytes → Option LeafOpening}
  {s s₁ t : Session D} {p p' : List Bool} {d : Descent} {n : Node} {N : NodeMap} {branch : BranchNode}

theorem within_of_moves {α : Type} {x : Call (Session D) α} (hx : Moves Extends x)
    (hin : ∀ e ∈ known (x s).2.db, e ∈ N) : ∀ e ∈ known s.db, e ∈ N :=
  fun e he => hin e ((hx s).known_subset he)

theorem within_of_returns {α : Type} {x : Call (Session D) α} {a : α} (hx : Moves Extends x) (h : x.Returns s a t)
    (hin : ∀ e ∈ known t.db, e ∈ N) : ∀ e ∈ known s.db, e ∈ N :=
  within_of_moves hx (by rwa [h])

/-- Where the walk breaks off, the map has no node either. -/
def Quiet (N : NodeMap) (p : List Bool) (s : Session D) : Prop :=
  ∀ lvl h, BreaksOff s p lvl h → N.get h = none

theorem WalksTo.quiet (hd : WalksTo s p d) : Quiet N p s := fun _ _ hb => absurd hb (not_breaksOff hd)

theorem quiet_of_parseNode (hp : p.length = zkTrieDepth) (h : ¬ Fails (parseNode parse (leafPath p) s)) :
    Quiet N p s := by
  obtain ⟨d, hd⟩ := exists_walksTo_of_not_fails hp h
  exact WalksTo.quiet hd

theorem quiet_of_place (h : ¬ Fails (place p s)) : Quiet N p s := by
  obtain ⟨d, hd⟩ := exists_walksTo_of_place h
  exact WalksTo.quiet hd

omit [Database D] [NodeStore D] in
theorem get_eq_none_of_subset {m : NodeMap} (hN : Unambiguous N) (hsub : ∀ e ∈ m, e ∈ N) {h : SH256}
    (hnone : N.get h = none) : m.get h = none := by
  by_contra hsome
  obtain ⟨n, hget⟩ := Option.ne_none_iff_exists'.mp hsome
  rw [hN.keeps hsub _ _ hget] at hnone
  cases hnone

theorem Quiet.within (hq : Quiet N p s) (hN : Unambiguous N) (hin : ∀ e ∈ known s₁.db, e ∈ N) :
    ∀ lvl h, BreaksOff s p lvl h → (known s₁.db).get h = none :=
  fun lvl h hb => get_eq_none_of_subset hN hin (hq lvl h hb)

theorem BreaksOff.unique {lvl lvl' : ℕ} {h h' : SH256} (hb : BreaksOff s p lvl h) (hb' : BreaksOff s p lvl' h') :
    lvl = lvl' ∧ h = h' := by
  have heq := (descend_eq_of_breaks hb).symm.trans (descend_eq_of_breaks hb')
  injection heq with heq
  injection heq with heq
  injection heq with hlvl hh
  exact ⟨hlvl, hh⟩

theorem Quiet.rewritten (hq : Quiet N p' s) (hN : Unambiguous N) (hin : ∀ e ∈ known s₁.db, e ∈ N)
    (hp : p.length = zkTrieDepth) (hp' : p'.length = zkTrieDepth) (hd : WalksTo s p d) {v : LeafValue}
    (h : Rebuilt s s₁ d (leafNode d.rest v)) : Quiet N p' s₁ := by
  have hs₁ := hN.mono hin
  rcases ends_or_breaksOff s p' with ⟨d', hd'⟩ | ⟨lvl, k, hb⟩
  · obtain ⟨k, trail, hends⟩ := h.rewritten_walk hp hp' hd hs₁ hd'
    exact WalksTo.quiet hends
  · have hne : p' ≠ p := by
      rintro rfl
      exact not_breaksOff hd hb
    have hg := h.grafted_known (leafNode_at _ _).branch? hs₁
    intro lvl' k' hb'
    rcases h.walk_other hd hg (hp'.trans hp.symm) hne (hq.within hN hin) with
      ⟨_, _, _, hends, _⟩ | ⟨_, _, hends, _⟩ | ⟨lvl₁, k₁, hb₁, hb₂⟩
    · exact absurd hb (not_breaksOff hends.choose_spec)
    · exact absurd hb (not_breaksOff hends.choose_spec)
    · obtain ⟨_, rfl⟩ := hb₂.unique hb'
      exact hq _ _ hb₁

theorem Rebuilt.indexed (h : Rebuilt s s₁ d n) {db : D} (hnodes : NodeStore.nodes db = NodeStore.nodes s₁.db) :
    Rebuilt s { s₁ with db := db } d n where
  root := h.root
  log := by
    rw [hnodes]
    exact h.log

theorem parseNode_known (hp : p.length = zkTrieDepth) (htrie : t.trie = s.trie) (hknown : known t.db = known s.db) :
    parseNode parse (leafPath p) t = parseNode parse (leafPath p) s := by
  apply parseNode_congr
  rw [SpareMerkleTrie.getNode_eq hp, SpareMerkleTrie.getNode_eq hp, htrie, hknown]

/-- A leaf that can be read is rewritten. -/
theorem rewriteLeaf_rebuilds (hs : Genuine (known s.db)) (hp : p.length = zkTrieDepth) {prior : LeafOpening}
    (h : parseNode parse (leafPath p) s = .ok prior) (change : LeafOpening → LeafOpening) :
    ∃ s₁ d data, (rewriteLeaf parse (leafPath p) change).Returns s () s₁ ∧ WalksTo s p d ∧
      d.node.raw = .leaf ⟨walkPath d.rest, data⟩ ∧ Rebuilt s s₁ d (leafNode d.rest (change prior).leafValue) := by
  obtain ⟨d, data, hd, hraw, _⟩ := leafAt_of_parseNode hs hp h
  have hleaf : LeafAt d.rest d.node := ⟨data, hraw⟩
  obtain ⟨s₁, hput, hbuilt⟩ := SpareMerkleTrie.put_rebuilds hp hd hleaf.admits_eq (change prior).leafValue
  exact ⟨s₁, d, data, (Action.Returns.read h).bind hput, hd, hraw, hbuilt⟩

theorem rewriteLeaf_rebuilt (hs : Genuine (known s.db)) (hp : p.length = zkTrieDepth) {prior : LeafOpening}
    (h : parseNode parse (leafPath p) s = .ok prior) {change : LeafOpening → LeafOpening}
    (hret : (rewriteLeaf parse (leafPath p) change).Returns s () s₁) :
    ∃ d data, WalksTo s p d ∧ d.node.raw = .leaf ⟨walkPath d.rest, data⟩ ∧
      Rebuilt s s₁ d (leafNode d.rest (change prior).leafValue) := by
  obtain ⟨t, d, data, hret', hd, hraw, hbuilt⟩ := rewriteLeaf_rebuilds hs hp h change
  obtain ⟨_, rfl⟩ := Prod.mk.inj (hret'.symm.trans hret)
  exact ⟨d, data, hd, hraw, hbuilt⟩

theorem errs_rewriteLeaf_iff (hs : Genuine (known s.db)) (hp : p.length = zkTrieDepth)
    (change : LeafOpening → LeafOpening) :
    Errs (rewriteLeaf parse (leafPath p) change) s ↔ Fails (parseNode parse (leafPath p) s) := by
  unfold rewriteLeaf
  rw [errs_read_bind_iff]
  constructor
  · rintro (h | ⟨prior, hprior, e, t, h⟩)
    · exact h
    · obtain ⟨s₁, _, _, hret, _⟩ := rewriteLeaf_rebuilds hs hp hprior change
      have hput := (Action.Returns.read hprior).stops (f := fun prior : LeafOpening =>
        SpareMerkleTrie.put (leafPath p) (change prior).toBytes) h
      have hclash := hret.symm.trans hput
      cases hclash
  · exact Or.inl

theorem rewriteLeaf_rootBranch (hs : Genuine (known s.db)) (hp : p.length = zkTrieDepth)
    {change : LeafOpening → LeafOpening} (hroot : rootBranch s = .ok branch)
    (h : (rewriteLeaf parse (leafPath p) change).Returns s () t) (ht : Unambiguous (known t.db)) :
    ∃ branch', rootBranch t = .ok branch' := by
  obtain ⟨prior, _, hread, _⟩ := Action.bind_returns_iff.mp h
  have hprior : parseNode parse (leafPath p) s = .ok prior := congrArg Prod.fst hread
  obtain ⟨d, data, hd, hraw, hbuilt⟩ := rewriteLeaf_rebuilt hs hp hprior h
  obtain ⟨right, hright⟩ := hbuilt.rootBranch hd (hbuilt.grafted_known (leafNode_at _ _).branch? ht) hroot
  exact ⟨_, hright⟩

theorem put_of_place (hp : p.length = zkTrieDepth) (h : place p s = .ok ()) (l : LeafOpening) :
    ∃ s₁ d, (SpareMerkleTrie.put (leafPath p) l.toBytes).Returns s () s₁ ∧ WalksTo s p d ∧
      Rebuilt s s₁ d (leafNode d.rest l.leafValue) := by
  obtain ⟨d, hd, hadmits⟩ := bind_eq_ok.mp h
  have hwalk : WalksTo s p d := descend_eq_ok.mp hd
  obtain ⟨s₁, hret, hbuilt⟩ := SpareMerkleTrie.put_rebuilds hp hwalk hadmits l.leafValue
  exact ⟨s₁, d, hret, hwalk, hbuilt⟩

omit [Database D] [NodeStore D] in
theorem not_errs_of_returns {α : Type} {x : Call (Session D) α} {a : α} (h : x.Returns s a t) : ¬ Errs x s := by
  rintro ⟨e, u, hstop⟩
  have hclash := h.symm.trans hstop
  cases hclash

theorem errs_put_iff (hp : p.length = zkTrieDepth) (l : LeafOpening) :
    Errs (SpareMerkleTrie.put (leafPath p) l.toBytes) s ↔ Fails (place p s) := by
  cases hplace : place p s with
  | error f =>
    have hstop := SpareMerkleTrie.put_stops hp hplace l.toBytes
    constructor
    · rintro ⟨e, t, h⟩
      obtain ⟨heq, _⟩ := Prod.mk.inj (hstop.symm.trans h)
      exact ⟨e, heq⟩
    · rintro ⟨e, heq⟩
      cases heq
      exact ⟨e, s, hstop⟩
  | ok u =>
    obtain ⟨s₁, d, hret, _⟩ := put_of_place hp hplace l
    refine iff_of_false (not_errs_of_returns hret) ?_
    rintro ⟨e, ⟨⟩⟩

theorem not_fails_orPanic {α : Type} (x : Option α) : ¬ Fails (orPanic x) := by
  rintro ⟨e, he⟩
  exact orPanic_ne_error he

omit [NodeStore D] in
theorem not_fails_subRootHash (hroot : rootBranch s = .ok branch) : ¬ Fails (ZkTrie.subRootHash s) := by
  rintro ⟨e, he⟩
  unfold ZkTrie.subRootHash SpareMerkleTrie.subRootHash at he
  rw [hroot] at he
  cases he

end Steps

end LineaSgxProver.Zktrie
