import LineaSgxProver.Zktrie.LeafCodec
import LineaSgxProver.Zktrie.LeafRewrites

namespace LineaSgxProver.Zktrie

open Library
open SpareMerkleTrie (WalksTo place rootBranch)
open ZkTrie (Decodes parseNode rewriteLeaf)

section Conditions

variable [TrieHash] [Profile] {D : Type} [Database D] [NodeStore D] (parse : Bytes → Option LeafOpening)

/-- An insertion fails before its first write or not at all: once the left leaf is read, the value is
accepted, the new leaf has a place, and the right leaf can be read. -/
def InsertClean (range : KeyRange) (value : Bytes) (s : Session D) : Prop :=
  ∀ left, range.leftPath = some left → ∀ right, range.rightPath = some right →
    ∀ free, ZkTrie.nextFreeNode s = .ok free → ∀ prior, parseNode parse left s = .ok prior →
      ∀ new, getLeafPath free = some new →
        (Fails (trieHash value) → Unmoved left (prior.newNextLeaf free) s) ∧
          ∀ hval, trieHash value = .ok hval →
            ¬ Fails (place (indexPath free) s) ∧
              (place (indexPath free) s = .ok () → right ≠ new →
                ¬ Passes (indexPath free) (indexPath range.rightIndex) s ∧ ¬ Fails (parseNode parse right s))

def UpdateClean (current : FlattenedLeaf) (value : Bytes) (s : Session D) : Prop :=
  ∀ path, current.leafPath = some path → ∀ hval, trieHash value = .ok hval → ¬ Fails (parseNode parse path s)

def PutClean (key value : Bytes) (s : Session D) : Prop :=
  ∀ hkey, trieHash key = .ok hkey → ∀ range, ZkTrie.nearestKeys hkey s = .ok range →
    ∀ sub, ZkTrie.subRootHash s = .ok sub →
      match range.center with
      | none => InsertClean parse range value s
      | some current => UpdateClean parse current value s

def DeleteClean (range : KeyRange) (current : FlattenedLeaf) (s : Session D) : Prop :=
  ∀ left, range.leftPath = some left → ∀ right, range.rightPath = some right →
    ∀ prior, parseNode parse left s = .ok prior → ∀ old, getLeafPath current.leafIndex = some old →
      (Fails (parseNode parse old s) → Unmoved left (prior.newNextLeaf range.rightIndex) s) ∧
        ∀ l, parseNode parse old s = .ok l → right ≠ old ∧ ¬ Fails (parseNode parse right s)

def RemoveClean (key : Bytes) (s : Session D) : Prop :=
  ∀ hkey, trieHash key = .ok hkey → ∀ range, ZkTrie.nearestKeys hkey s = .ok range →
    ∀ current, range.center = some current → DeleteClean parse range current s

end Conditions

section Rest

variable [TrieHash] [Profile] {D : Type} [Database D] [NodeStore D] {parse : Bytes → Option LeafOpening}
  {s s₁ t : Session D} {p p' : List Bool} {N : NodeMap} {branch : BranchNode}

/-- Once the root can be read, raising the next free node and reading the sub root only ever panic. -/
theorem not_errs_increment (hroot : rootBranch s = .ok branch)
    (hin : ∀ e ∈ known ((do
      let _ ← ZkTrie.incrementNextFreeLeafNodeIndex
      let _ ← Action.read ZkTrie.subRootHash
      pure () : Call (Session D) Unit) s).2.db, e ∈ N) (hN : Unambiguous N) :
    ¬ Errs (do
      let _ ← ZkTrie.incrementNextFreeLeafNodeIndex
      let _ ← Action.read ZkTrie.subRootHash
      pure () : Call (Session D) Unit) s := by
  have hnext : ZkTrie.nextFreeNode s = orPanic (parseNodeIndex (SH256.bytes branch.left)) := by
    unfold ZkTrie.nextFreeNode SpareMerkleTrie.nextFreeNode
    rw [hroot, ok_bind]
  unfold ZkTrie.incrementNextFreeLeafNodeIndex at hin ⊢
  simp only [Action.bind_assoc] at hin ⊢
  rw [errs_read_bind_iff]
  rintro (hfails | ⟨free, hfree, herrs⟩)
  · rw [hnext] at hfails
    exact not_fails_orPanic _ hfails
  rw [(Action.Returns.read hfree).bind_eq] at hin
  cases hadd : addU64 free 1 with
  | none =>
    rw [hadd] at herrs
    obtain ⟨e, t, h⟩ := herrs
    cases h
  | some next =>
    rw [hadd] at hin herrs
    simp only [orPanic_some, Action.lift_ok_bind] at hin herrs
    obtain ⟨s₁, hset, htop, hnodes⟩ := setNextFreeNode_raises hroot next
    rw [hset.bind_eq] at hin
    rw [errs_of_returns hset, Action.pure_bind, errs_read_bind_iff] at herrs
    rcases herrs with hfails | ⟨sub, hsub, herrs⟩
    · have hget : (known s₁.db).get s₁.trie.rootHash = some (Node.topNode next branch.right) := by
        rw [htop]
        rw [Action.pure_bind] at hin
        have hsub := within_of_moves ((Moves.read _).bind fun _ => Moves.pure ()) hin
        apply (hN.mono hsub).get
        rw [known, hnodes]
        simp
      exact not_fails_subRootHash (rootBranch_eq_ok.mpr ⟨_, hget, rfl⟩) hfails
    · obtain ⟨e, t, h⟩ := herrs
      cases h

omit [Profile] in
theorem errs_updateRest_iff (hp : p.length = zkTrieDepth) (hval : SH256) (hroot : rootBranch s = .ok branch)
    (hN : Genuine N) (hin : ∀ e ∈ known (ZkTrie.updateRest parse (leafPath p) hval s).2.db, e ∈ N) :
    Errs (ZkTrie.updateRest parse (leafPath p) hval) s ↔ Fails (parseNode parse (leafPath p) s) := by
  have hs := hN.mono (within_of_moves (updateRest_moves _ _) hin)
  unfold ZkTrie.updateRest at hin ⊢
  rw [errs_bind_iff, errs_rewriteLeaf_iff hs hp]
  refine or_iff_left ?_
  rintro ⟨_, t, hret, herrs⟩
  rw [hret.bind_eq] at hin
  have ht := within_of_moves ((Moves.read _).bind fun _ => Moves.pure ()) hin
  obtain ⟨branch', hroot'⟩ := rewriteLeaf_rootBranch hs hp hroot hret (hN.unique.mono ht)
  rcases errs_read_bind_iff.mp herrs with hfails | ⟨_, _, hpure⟩
  · exact not_fails_subRootHash hroot' hfails
  · exact not_errs_of_returns (Action.Returns.pure () t) hpure

/-- After the index call an insertion errs if the new leaf has no place, or the right leaf is another one
and cannot be read, or not any more. -/
theorem errs_insertRest_iff {range : KeyRange} {free : UInt64} {hkey hval : SH256} (hp : p.length = zkTrieDepth)
    (hp' : p'.length = zkTrieDepth) (hroot : rootBranch s = .ok branch) (hN : Genuine N)
    (hin : ∀ e ∈ known (ZkTrie.insertRest parse range (leafPath p') (leafPath p) free hkey hval s).2.db, e ∈ N)
    (hquiet : place p s = .ok () → p' ≠ p → Quiet N p' s) :
    Errs (ZkTrie.insertRest parse range (leafPath p') (leafPath p) free hkey hval) s ↔
      Fails (place p s) ∨ place p s = .ok () ∧ p' ≠ p ∧ (Passes p p' s ∨ Fails (parseNode parse (leafPath p') s)) := by
  let l := LeafOpening.new range.leftIndex range.rightIndex hkey hval
  unfold ZkTrie.insertRest at hin ⊢
  cases hplace : place p s with
  | error f =>
    have hput := errs_put_iff (s := s) hp l
    rw [hplace] at hput
    rw [errs_bind_iff, hput]
    simp only [reduceCtorEq, false_and, or_false]
    refine or_iff_left ?_
    rintro ⟨_, t, hret, _⟩
    have hclash := (SpareMerkleTrie.put_stops hp hplace l.toBytes).symm.trans hret
    cases hclash
  | ok u =>
    obtain ⟨s₁, d, hret, hd, hbuilt⟩ := put_of_place hp hplace l
    rw [hret.bind_eq] at hin
    have hincrement : Moves Extends (do
        let _ ← ZkTrie.incrementNextFreeLeafNodeIndex
        let _ ← Action.read ZkTrie.subRootHash
        pure () : Call (Session D) Unit) :=
      ZkTrie.incrementNextFreeLeafNodeIndex_moves.bind fun _ => (Moves.read _).bind fun _ => Moves.pure ()
    have hin₁ := within_of_moves ((ZkTrie.rewriteLeaf_moves _ _).bind fun _ => hincrement) hin
    have hs₁ := hN.mono hin₁
    obtain ⟨right, hroot₁⟩ :=
      hbuilt.rootBranch hd (hbuilt.grafted_known (leafNode_at _ _).branch? hs₁.unique) hroot
    have hrewrite : Errs (do
        rewriteLeaf parse (leafPath p') (·.newPrevLeaf free)
        let _ ← ZkTrie.incrementNextFreeLeafNodeIndex
        let _ ← Action.read ZkTrie.subRootHash
        pure () : Call (Session D) Unit) s₁ ↔ Fails (parseNode parse (leafPath p') s₁) := by
      rw [errs_bind_iff, errs_rewriteLeaf_iff hs₁ hp']
      refine or_iff_left ?_
      rintro ⟨_, t, hret', herrs⟩
      rw [hret'.bind_eq] at hin
      have ht := hN.unique.mono (within_of_moves hincrement hin)
      obtain ⟨branch', hroot'⟩ := rewriteLeaf_rootBranch hs₁ hp' hroot₁ hret' ht
      exact not_errs_increment hroot' hin hN.unique herrs
    rw [errs_of_returns hret, hrewrite]
    have hfirst : ¬ Fails (.ok u : Except (Fault Error) Unit) := by
      rintro ⟨e, ⟨⟩⟩
    rw [or_iff_right hfirst]
    simp only [true_and]
    by_cases hne : p' = p
    · subst hne
      have hends := hbuilt.ends_same hd (hbuilt.grafted_known (leafNode_at _ _).branch? hs₁.unique)
      exact iff_of_false (not_fails_of_leafAt hp hends (leafNode_at _ _)) fun h => h.1 rfl
    · rw [hbuilt.placed_fails_iff hp hp' hd hs₁.unique hne ((hquiet hplace hne).within hN.unique hin₁)]
      exact (and_iff_right hne).symm

omit [Profile] in
theorem errs_removeRest_iff {range : KeyRange} (hp : p.length = zkTrieDepth) (hp' : p'.length = zkTrieDepth)
    {l : LeafOpening} (hl : parseNode parse (leafPath p) s = .ok l) (hN : Genuine N)
    (hin : ∀ e ∈ known (ZkTrie.removeRest parse range (leafPath p') (leafPath p) s).2.db, e ∈ N)
    (hquiet : p' ≠ p → Quiet N p' s) :
    Errs (ZkTrie.removeRest parse range (leafPath p') (leafPath p)) s ↔
      p' = p ∨ Fails (parseNode parse (leafPath p') s) := by
  have hs := hN.mono (within_of_moves (removeRest_moves _ _ _) hin)
  obtain ⟨d, data, hd, hraw, _⟩ := leafAt_of_parseNode hs hp hl
  have hleaf : LeafAt d.rest d.node := ⟨data, hraw⟩
  obtain ⟨s₁, hret, hbuilt⟩ := SpareMerkleTrie.remove_rebuilds hp hd hleaf.branch?
  unfold ZkTrie.removeRest at hin ⊢
  rw [hret.bind_eq] at hin
  have hin₁ := within_of_moves (ZkTrie.rewriteLeaf_moves _ _) hin
  have hs₁ := hN.mono hin₁
  rw [errs_of_returns hret, errs_rewriteLeaf_iff hs₁ hp']
  by_cases hne : p' = p
  · subst hne
    exact iff_of_true (hbuilt.removed_fails hp hd hs₁.unique) (Or.inl rfl)
  · rw [hbuilt.removed_fails_iff hp hp' hd hs₁.unique hne ((hquiet hne).within hN.unique hin₁) hleaf]
    exact (or_iff_right hne).symm

end Rest

section Branches

variable [TrieHash] {D : Type} [Database D] [NodeStore D] {parse : Bytes → Option LeafOpening}
  {s s₁ : Session D} {p p' : List Bool} {d : Descent} {N : NodeMap} {branch : BranchNode}

theorem Rebuilt.unmoved_iff (hs : Genuine (known s.db)) (hs₁ : Unambiguous (known s₁.db))
    (hp : p.length = zkTrieDepth) (hd : WalksTo s p d) {data : Bytes}
    (hraw : d.node.raw = .leaf ⟨walkPath d.rest, data⟩) {l : LeafOpening}
    (h : Rebuilt s s₁ d (leafNode d.rest l.leafValue)) : s₁.trie = s.trie ↔ Unmoved (leafPath p) l s := by
  have hleaf : LeafAt d.rest d.node := ⟨data, hraw⟩
  have hget : SpareMerkleTrie.getNode (leafPath p) s = .ok (some d.node) :=
    (getNode_of_ends hp hd.ends).trans hleaf.found_eq
  rw [h.trie_eq_iff hs.filed hd hraw hs₁]
  unfold Unmoved
  simp only [hget, Except.ok.injEq, Option.some.injEq, forall_eq', hraw, NodeValue.value]
  rfl

variable [Profile] {left : List Bool} {range : KeyRange} {free : UInt64} {hkey hval : SH256} {value : Bytes}

/-- The left leaf is rewritten, then the index call is issued. -/
theorem insert_errs_iff (hN : Genuine N) (hleft : left.length = zkTrieDepth)
    (hp : p.length = zkTrieDepth) (hp' : p'.length = zkTrieDepth) (hd : WalksTo s left d)
    (hleaf : LeafAt d.rest d.node) {v : LeafValue} (h : Rebuilt s s₁ d (leafNode d.rest v))
    (hroot : rootBranch s = .ok branch)
    (hin : ∀ e ∈ known (ZkTrie.insertRest parse range (leafPath p') (leafPath p) free hkey hval s₁).2.db, e ∈ N)
    (hquiet : Quiet N p s) (hquiet' : place p s = .ok () → p' ≠ p → Quiet N p' s) :
    Errs (ZkTrie.insertRest parse range (leafPath p') (leafPath p) free hkey hval) s₁ ↔
      Fails (place p s) ∨ place p s = .ok () ∧ p' ≠ p ∧ (Passes p p' s ∨ Fails (parseNode parse (leafPath p') s)) := by
  have hin₁ := within_of_moves (insertRest_moves _ _ _ _ _ _) hin
  have hs₁ := hN.unique.mono hin₁
  obtain ⟨right, hroot₁⟩ := h.rootBranch hd (h.grafted_known (leafNode_at _ _).branch? hs₁) hroot
  have hplace : place p s₁ = place p s :=
    h.rewritten_place hleft hp hd hleaf hs₁ (hquiet.within hN.unique hin₁)
  have hquiet₁ : place p s₁ = .ok () → p' ≠ p → Quiet N p' s₁ := by
    rw [hplace]
    exact fun hok hne => (hquiet' hok hne).rewritten hN.unique hin₁ hleft hp' hd h
  rw [errs_insertRest_iff hp hp' hroot₁ hN hin hquiet₁, hplace]
  refine or_congr_right (and_congr_right fun hok => and_congr_right fun hne => ?_)
  obtain ⟨d', hd', _⟩ := bind_eq_ok.mp hok
  have hpasses : Passes p p' s₁ ↔ Passes p p' s := h.rewritten_passes_iff hp hd hs₁ hleft (descend_eq_ok.mp hd')
  have hfails : Fails (parseNode parse (leafPath p') s₁) ↔ Fails (parseNode parse (leafPath p') s) :=
    h.rewritten_fails_iff hleft hp' hd hleaf hs₁ ((hquiet' hok hne).within hN.unique hin₁)
  rw [hpasses, hfails]

omit [Profile] in
/-- The left leaf is rewritten, then the old leaf read and the index call issued. -/
theorem delete_errs_iff (hN : Genuine N) (hleft : left.length = zkTrieDepth)
    (hp : p.length = zkTrieDepth) (hp' : p'.length = zkTrieDepth) (hd : WalksTo s left d)
    (hleaf : LeafAt d.rest d.node) {v : LeafValue} (h : Rebuilt s s₁ d (leafNode d.rest v))
    {l : LeafOpening} (hl : parseNode parse (leafPath p) s₁ = .ok l)
    (hin : ∀ e ∈ known (ZkTrie.removeRest parse range (leafPath p') (leafPath p) s₁).2.db, e ∈ N)
    (hquiet' : p' ≠ p → Quiet N p' s) :
    Errs (ZkTrie.removeRest parse range (leafPath p') (leafPath p)) s₁ ↔
      p' = p ∨ Fails (parseNode parse (leafPath p') s) := by
  have hin₁ := within_of_moves (removeRest_moves _ _ _) hin
  have hs₁ := hN.unique.mono hin₁
  rw [errs_removeRest_iff hp hp' hl hN hin fun hne =>
    (hquiet' hne).rewritten hN.unique hin₁ hleft hp' hd h]
  by_cases hne : p' = p
  · exact iff_of_true (Or.inl hne) (Or.inl hne)
  · have hfails : Fails (parseNode parse (leafPath p') s₁) ↔ Fails (parseNode parse (leafPath p') s) :=
      h.rewritten_fails_iff hleft hp' hd hleaf hs₁ ((hquiet' hne).within hN.unique hin₁)
    rw [hfails]

end Branches

section Runs

variable [TrieHash] {D : Type} [Database D] {parse : Bytes → Option LeafOpening}
  {s s₁ : Session D} [Profile] {range : KeyRange} {key value left right : Bytes} {hkey sub : SH256} {free : UInt64}

theorem put_insert_run (hhash : trieHash key = .ok hkey) (hrange : ZkTrie.nearestKeys hkey s = .ok range)
    (hsub : ZkTrie.subRootHash s = .ok sub) (hcenter : range.center = none) (hleft : range.leftPath = some left)
    (hright : range.rightPath = some right) (hfree : ZkTrie.nextFreeNode s = .ok free)
    (hret : (rewriteLeaf parse left (·.newNextLeaf free)).Returns s () s₁) :
    ZkTrie.put parse key value s = (do
      let new ← Action.lift (orPanic (getLeafPath free))
      let hval ← Action.lift (trieHash value)
      ZkTrie.updateIndex hkey ⟨free, value⟩
      ZkTrie.insertRest parse range right new free hkey hval) s₁ := by
  unfold ZkTrie.put ZkTrie.insertRest
  rw [hhash, Action.lift_ok_bind, (Action.Returns.read hrange).bind_eq, (Action.Returns.read hsub).bind_eq, hcenter]
  unfold ZkTrie.insertLeaf
  simp only [hleft, hright, orPanic_some, Action.lift_ok_bind, Action.bind_assoc, Action.pure_bind]
  rw [(Action.Returns.read hfree).bind_eq, hret.bind_eq]

theorem put_update_run {current : FlattenedLeaf} {path : Bytes} {hval : SH256} (hhash : trieHash key = .ok hkey)
    (hrange : ZkTrie.nearestKeys hkey s = .ok range) (hsub : ZkTrie.subRootHash s = .ok sub)
    (hcenter : range.center = some current) (hpath : current.leafPath = some path)
    (hvalue : trieHash value = .ok hval) :
    ZkTrie.put parse key value s = ZkTrie.updateRest parse path hval
      { s with db := Database.updateIndex hkey ⟨current.leafIndex, value⟩ s.db } := by
  unfold ZkTrie.put ZkTrie.updateRest
  rw [hhash, Action.lift_ok_bind, (Action.Returns.read hrange).bind_eq, (Action.Returns.read hsub).bind_eq, hcenter]
  unfold ZkTrie.updateLeaf
  simp only [hpath, hvalue, orPanic_some, Action.lift_ok_bind, Action.bind_assoc]
  rfl

theorem remove_run {current : FlattenedLeaf} (hhash : trieHash key = .ok hkey)
    (hrange : ZkTrie.nearestKeys hkey s = .ok range) (hcenter : range.center = some current)
    (hleft : range.leftPath = some left) (hright : range.rightPath = some right)
    (hret : (rewriteLeaf parse left (·.newNextLeaf range.rightIndex)).Returns s () s₁) :
    ZkTrie.remove parse key s = (do
      let old ← Action.lift (orPanic (getLeafPath current.leafIndex))
      let _ ← Action.read (parseNode parse old)
      ZkTrie.removeIndex hkey
      ZkTrie.removeRest parse range right old) s₁ := by
  unfold ZkTrie.remove ZkTrie.removeRest
  rw [hhash, Action.lift_ok_bind, (Action.Returns.read hrange).bind_eq, hcenter]
  simp only [hleft, hright, orPanic_some, Action.lift_ok_bind]
  rw [hret.bind_eq]

end Runs

theorem leafPath_inj {p q : List Bool} : leafPath p = leafPath q ↔ p = q := by
  constructor
  · intro h
    have hcons : true :: p = true :: q := walkPath_injective h
    exact (List.cons.inj hcons).2
  · exact congrArg leafPath

section Converse

variable [TrieHash] {D : Type} [Database D] [NodeStore D] {parse : Bytes → Option LeafOpening}
  {s s₁ : Session D} [Profile] {range : KeyRange} {key value left right new : Bytes} {hkey sub : SH256} {free : UInt64}
  {prior : LeafOpening} {N : NodeMap} {dec : LeafOpening → LeafOpening}

omit [NodeStore D] [Profile] in
theorem rootBranch_of_subRootHash (h : ZkTrie.subRootHash s = .ok sub) : ∃ branch, rootBranch s = .ok branch := by
  obtain ⟨branch, hroot, _⟩ := bind_eq_ok.mp h
  exact ⟨branch, hroot⟩

theorem rewriteLeaf_returns (hs : Genuine (known s.db)) {i : UInt64} (hleft : getLeafPath i = some left)
    (hprior : parseNode parse left s = .ok prior) (change : LeafOpening → LeafOpening) :
    ∃ s₁, (rewriteLeaf parse left change).Returns s () s₁ := by
  obtain rfl := getLeafPath_some hleft
  obtain ⟨s₁, _, _, hret, _⟩ := rewriteLeaf_rebuilds hs (bits_length _ _) hprior change
  exact ⟨s₁, hret⟩

section Paths

variable {pl pr pn : List Bool} (hpl : pl.length = zkTrieDepth) (hpr : pr.length = zkTrieDepth)
  (hpn : pn.length = zkTrieDepth) (hN : Genuine N) (hin₁ : ∀ e ∈ known s₁.db, e ∈ N)

include hpl hpr hpn hN hin₁

theorem insert_branch (range : KeyRange) (hkey : SH256) (value : Bytes) (hsub : ZkTrie.subRootHash s = .ok sub)
    (hprior : parseNode parse (leafPath pl) s = .ok prior)
    (hret : (rewriteLeaf parse (leafPath pl) (·.newNextLeaf free)).Returns s () s₁) :
    (s₁.trie = s.trie ↔ Unmoved (leafPath pl) (prior.newNextLeaf free) s) ∧
      ∀ hval, (∀ e ∈ known (ZkTrie.insertRest parse range (leafPath pr) (leafPath pn) free hkey hval
          { s₁ with db := Database.updateIndex hkey ⟨free, value⟩ s₁.db }).2.db, e ∈ N) →
        Quiet N pn s → (place pn s = .ok () → leafPath pr ≠ leafPath pn → Quiet N pr s) →
        (¬ Errs (ZkTrie.insertRest parse range (leafPath pr) (leafPath pn) free hkey hval)
            { s₁ with db := Database.updateIndex hkey ⟨free, value⟩ s₁.db } ↔
          ¬ Fails (place pn s) ∧ (place pn s = .ok () → leafPath pr ≠ leafPath pn →
            ¬ Passes pn pr s ∧ ¬ Fails (parseNode parse (leafPath pr) s))) := by
  have hs := hN.mono (within_of_returns (ZkTrie.rewriteLeaf_moves _ _) hret hin₁)
  obtain ⟨branch, hroot⟩ := rootBranch_of_subRootHash hsub
  obtain ⟨d, data, hd, hraw, h⟩ := rewriteLeaf_rebuilt hs hpl hprior hret
  refine ⟨h.unmoved_iff hs (hN.unique.mono hin₁) hpl hd hraw, ?_⟩
  intro hval hin hquiet hquiet'
  have h₂ := h.indexed (NodeStore.nodes_updateIndex s₁.db hkey ⟨free, value⟩)
  rw [insert_errs_iff hN hpl hpn hpr hd ⟨data, hraw⟩ h₂ hroot hin hquiet fun hok hne =>
    hquiet' hok (leafPath_inj.not.mpr hne)]
  simp only [ne_eq, leafPath_inj]
  tauto

omit [Profile] hpr in
theorem delete_branch (hprior : parseNode parse (leafPath pl) s = .ok prior)
    (hret : (rewriteLeaf parse (leafPath pl) (·.newNextLeaf range.rightIndex)).Returns s () s₁) :
    (s₁.trie = s.trie ↔ Unmoved (leafPath pl) (prior.newNextLeaf range.rightIndex) s) ∧
      (Quiet N pn s ∨ s₁.trie = s.trie →
        (Fails (parseNode parse (leafPath pn) s₁) ↔ Fails (parseNode parse (leafPath pn) s))) := by
  have hs := hN.mono (within_of_returns (ZkTrie.rewriteLeaf_moves _ _) hret hin₁)
  have hs₁ := hN.unique.mono hin₁
  obtain ⟨d, data, hd, hraw, h⟩ := rewriteLeaf_rebuilt hs hpl hprior hret
  refine ⟨h.unmoved_iff hs hs₁ hpl hd hraw, ?_⟩
  intro hquiet
  apply h.rewritten_fails_iff hpl hpn hd ⟨data, hraw⟩ hs₁
  intro lvl h' hb
  rcases hquiet with hquiet | htrie
  · exact get_eq_none_of_subset hN.unique hin₁ (hquiet lvl h' hb)
  · exact h.get_eq_none hs.filed hd (h.grafted_known (leafNode_at _ _).branch? hs₁) htrie hb.get_eq_none

omit [Profile] hpr in
/-- What can be read after the left leaf is rewritten could be read before, and the other way round. -/
theorem delete_reads (hparse : Decodes parse dec) (hprior : parseNode parse (leafPath pl) s = .ok prior)
    (hret : (rewriteLeaf parse (leafPath pl) (·.newNextLeaf range.rightIndex)).Returns s () s₁)
    (hquiet : Quiet N pn s) :
    (∃ l, parseNode parse (leafPath pn) s₁ = .ok l) ↔ ∃ l, parseNode parse (leafPath pn) s = .ok l := by
  have hs := hN.mono (within_of_returns (ZkTrie.rewriteLeaf_moves _ _) hret hin₁)
  have hs₁ := hN.unique.mono hin₁
  obtain ⟨d, data, hd, hraw, h⟩ := rewriteLeaf_rebuilt hs hpl hprior hret
  by_cases hne : pn = pl
  · subst hne
    have hends := h.ends_same hd (h.grafted_known (leafNode_at _ _).branch? hs₁)
    have hget := (getNode_of_ends hpl hends).trans (leafNode_at _ _).found_eq
    have hread : parseNode parse (leafPath pn) s₁ = .ok (dec (prior.newNextLeaf range.rightIndex)) := by
      unfold ZkTrie.parseNode
      rw [hget, ok_bind]
      exact congrArg orPanic (hparse _)
    exact iff_of_true ⟨_, hread⟩ ⟨_, hprior⟩
  · rw [h.rewritten_other hpl hpn hd ⟨data, hraw⟩ hs₁ hne (hquiet.within hN.unique hin₁)]

omit [Profile] in
theorem delete_safe_iff (hprior : parseNode parse (leafPath pl) s = .ok prior)
    (hret : (rewriteLeaf parse (leafPath pl) (·.newNextLeaf range.rightIndex)).Returns s () s₁) {l : LeafOpening}
    (hl : parseNode parse (leafPath pn) s₁ = .ok l)
    (hin : ∀ e ∈ known (ZkTrie.removeRest parse range (leafPath pr) (leafPath pn)
      { s₁ with db := Database.removeIndex hkey s₁.db }).2.db, e ∈ N)
    (hquiet : leafPath pr ≠ leafPath pn → Quiet N pr s) :
    ¬ Errs (ZkTrie.removeRest parse range (leafPath pr) (leafPath pn))
        { s₁ with db := Database.removeIndex hkey s₁.db } ↔
      leafPath pr ≠ leafPath pn ∧ ¬ Fails (parseNode parse (leafPath pr) s) := by
  have hs := hN.mono (within_of_returns (ZkTrie.rewriteLeaf_moves _ _) hret hin₁)
  obtain ⟨d, data, hd, hraw, h⟩ := rewriteLeaf_rebuilt hs hpl hprior hret
  have hnodes := NodeStore.nodes_removeIndex s₁.db hkey
  have hl₂ : parseNode parse (leafPath pn) { s₁ with db := Database.removeIndex hkey s₁.db } = .ok l :=
    (parseNode_known (s := s₁) (t := { s₁ with db := Database.removeIndex hkey s₁.db }) hpn rfl
      (congrArg (emptyTrieNode ++ ·) hnodes)).trans hl
  rw [delete_errs_iff hN hpl hpn hpr hd ⟨data, hraw⟩ (h.indexed hnodes) hl₂ hin fun hne =>
    hquiet (leafPath_inj.not.mpr hne)]
  simp only [ne_eq, leafPath_inj, not_or]

end Paths

section Insertion

variable (hhash : trieHash key = .ok hkey) (hrange : ZkTrie.nearestKeys hkey s = .ok range)
  (hsub : ZkTrie.subRootHash s = .ok sub) (hcenter : range.center = none) (hleft : range.leftPath = some left)
  (hright : range.rightPath = some right) (hfree : ZkTrie.nextFreeNode s = .ok free)
  (hret : (rewriteLeaf parse left (·.newNextLeaf free)).Returns s () s₁)

include hhash hrange hsub hcenter hleft hright hfree hret

theorem put_insert_grows : ∀ e ∈ known s₁.db, e ∈ known (ZkTrie.put parse key value s).2.db := by
  intro e he
  rw [put_insert_run hhash hrange hsub hcenter hleft hright hfree hret]
  have htail : Moves Extends (do
      let new ← Action.lift (orPanic (getLeafPath free))
      let hval ← Action.lift (trieHash value)
      ZkTrie.updateIndex hkey ⟨free, value⟩
      ZkTrie.insertRest parse range right new free hkey hval : Call (Session D) Unit) :=
    (Moves.lift _).bind fun _ => (Moves.lift _).bind fun _ => (ZkTrie.updateIndex_moves _ _).bind fun _ =>
      insertRest_moves _ _ _ _ _ _
  exact (htail s₁).known_subset he

omit [NodeStore D] in
theorem put_insert_rest (hnew : getLeafPath free = some new) {hval : SH256} (hvalue : trieHash value = .ok hval) :
    ZkTrie.put parse key value s = ZkTrie.insertRest parse range right new free hkey hval
      { s₁ with db := Database.updateIndex hkey ⟨free, value⟩ s₁.db } := by
  rw [put_insert_run hhash hrange hsub hcenter hleft hright hfree hret, hnew, hvalue]
  rfl

theorem put_insert_branch (hnew : getLeafPath free = some new) (hprior : parseNode parse left s = .ok prior)
    (hN : Genuine (known (ZkTrie.put parse key value s).2.db)) :
    (s₁.trie = s.trie ↔ Unmoved left (prior.newNextLeaf free) s) ∧
      ∀ hval, trieHash value = .ok hval →
        Quiet (known (ZkTrie.put parse key value s).2.db) (indexPath free) s →
        (place (indexPath free) s = .ok () → right ≠ new →
          Quiet (known (ZkTrie.put parse key value s).2.db) (indexPath range.rightIndex) s) →
        (¬ Errs (ZkTrie.insertRest parse range right new free hkey hval)
            { s₁ with db := Database.updateIndex hkey ⟨free, value⟩ s₁.db } ↔
          ¬ Fails (place (indexPath free) s) ∧ (place (indexPath free) s = .ok () → right ≠ new →
            ¬ Passes (indexPath free) (indexPath range.rightIndex) s ∧ ¬ Fails (parseNode parse right s))) := by
  have hgrows : ∀ e ∈ known s₁.db, e ∈ known (ZkTrie.put parse key value s).2.db :=
    put_insert_grows hhash hrange hsub hcenter hleft hright hfree hret
  have hrun {hval : SH256} (hvalue : trieHash value = .ok hval) :=
    put_insert_rest hhash hrange hsub hcenter hleft hright hfree hret hnew hvalue
  obtain rfl := getLeafPath_some hleft
  obtain rfl := getLeafPath_some hright
  obtain rfl := getLeafPath_some hnew
  obtain ⟨hmoved, hrest⟩ := insert_branch (bits_length _ _) (bits_length _ _) (bits_length _ _) hN hgrows range hkey
    value hsub hprior hret
  refine ⟨hmoved, fun hval hvalue => hrest hval ?_⟩
  rw [hrun hvalue]
  exact fun _ he => he

end Insertion

theorem insertSafe_of_clean (hhash : trieHash key = .ok hkey) (hrange : ZkTrie.nearestKeys hkey s = .ok range)
    (hsub : ZkTrie.subRootHash s = .ok sub) (hcenter : range.center = none)
    (hN : Genuine (known (ZkTrie.put parse key value s).2.db)) (h : InsertClean parse range value s) :
    InsertSafe parse hkey range value s := by
  intro left hleft right hright free hfree s₁ hret new hnew
  obtain ⟨prior, _, hread, _⟩ := Action.bind_returns_iff.mp hret
  have hprior : parseNode parse left s = .ok prior := congrArg Prod.fst hread
  obtain ⟨hvoid, hclean⟩ := h left hleft right hright free hfree prior hprior new hnew
  obtain ⟨hmoved, hrest⟩ := put_insert_branch hhash hrange hsub hcenter hleft hright hfree hret hnew hprior hN
  constructor
  · intro e he
    exact hmoved.mpr (hvoid ⟨e, he⟩)
  · intro hval hvalue
    obtain ⟨hplace, hrightLeaf⟩ := hclean hval hvalue
    apply (hrest hval hvalue (quiet_of_place hplace) ?_).mpr ⟨hplace, hrightLeaf⟩
    intro hok hne
    obtain rfl := getLeafPath_some hright
    exact quiet_of_parseNode (bits_length _ _) (hrightLeaf hok hne).2

theorem insertClean_of_safe (hhash : trieHash key = .ok hkey) (hrange : ZkTrie.nearestKeys hkey s = .ok range)
    (hsub : ZkTrie.subRootHash s = .ok sub) (hcenter : range.center = none)
    (hN : Genuine (known (ZkTrie.put parse key value s).2.db))
    (hunsupplied : Unsupplied s (ZkTrie.put parse key value s).2) (h : InsertSafe parse hkey range value s) :
    InsertClean parse range value s := by
  intro left hleft right hright free hfree prior hprior new hnew
  have hquiet (i : UInt64) : Quiet (known (ZkTrie.put parse key value s).2.db) (indexPath i) s :=
    fun lvl k hb => hunsupplied _ lvl k (bits_length _ _) hb
  have hs : Genuine (known s.db) := hN.mono (within_of_moves (ZkTrie.put_moves key value) fun _ he => he)
  obtain ⟨s₁, hret⟩ := rewriteLeaf_returns hs hleft hprior (·.newNextLeaf free)
  obtain ⟨hvoid, hsafe⟩ := h left hleft right hright free hfree s₁ hret new hnew
  obtain ⟨hmoved, hrest⟩ := put_insert_branch hhash hrange hsub hcenter hleft hright hfree hret hnew hprior hN
  constructor
  · rintro ⟨e, he⟩
    exact hmoved.mp (hvoid e he)
  · intro hval hvalue
    exact (hrest hval hvalue (hquiet _) fun _ _ => hquiet _).mp (hsafe hval hvalue)

theorem updateSafe_iff {current : FlattenedLeaf} (hhash : trieHash key = .ok hkey)
    (hrange : ZkTrie.nearestKeys hkey s = .ok range) (hsub : ZkTrie.subRootHash s = .ok sub)
    (hcenter : range.center = some current) (hN : Genuine (known (ZkTrie.put parse key value s).2.db)) :
    UpdateSafe parse hkey current value s ↔ UpdateClean parse current value s := by
  refine forall₂_congr fun path hpath => forall₂_congr fun hval hvalue => not_congr ?_
  have hrun : ZkTrie.put parse key value s = ZkTrie.updateRest parse path hval
      { s with db := Database.updateIndex hkey ⟨current.leafIndex, value⟩ s.db } :=
    put_update_run hhash hrange hsub hcenter hpath hvalue
  have hnodes := NodeStore.nodes_updateIndex s.db hkey ⟨current.leafIndex, value⟩
  have hknown : known (Database.updateIndex hkey ⟨current.leafIndex, value⟩ s.db) = known s.db :=
    congrArg (emptyTrieNode ++ ·) hnodes
  obtain ⟨branch, hroot⟩ := rootBranch_of_subRootHash hsub
  have hroot' : rootBranch { s with db := Database.updateIndex hkey ⟨current.leafIndex, value⟩ s.db } =
      .ok branch := by
    rw [rootBranch_eq_ok] at hroot ⊢
    simp only [hknown]
    exact hroot
  obtain rfl := getLeafPath_some hpath
  have hread : parseNode parse (leafPath (indexPath current.leafIndex))
      { s with db := Database.updateIndex hkey ⟨current.leafIndex, value⟩ s.db } =
        parseNode parse (leafPath (indexPath current.leafIndex)) s :=
    parseNode_known (bits_length _ _) rfl hknown
  rw [errs_updateRest_iff (bits_length _ _) hval hroot' hN fun e he => by rwa [hrun], hread]

section Deletion

variable {current : FlattenedLeaf} (hhash : trieHash key = .ok hkey)
  (hrange : ZkTrie.nearestKeys hkey s = .ok range) (hcenter : range.center = some current)
  (hleft : range.leftPath = some left) (hright : range.rightPath = some right)
  (hret : (rewriteLeaf parse left (·.newNextLeaf range.rightIndex)).Returns s () s₁)

include hhash hrange hcenter hleft hright hret

theorem remove_grows : ∀ e ∈ known s₁.db, e ∈ known (ZkTrie.remove parse key s).2.db := by
  intro e he
  rw [remove_run hhash hrange hcenter hleft hright hret]
  have htail : Moves Extends (do
      let old ← Action.lift (orPanic (getLeafPath current.leafIndex))
      let _ ← Action.read (parseNode parse old)
      ZkTrie.removeIndex hkey
      ZkTrie.removeRest parse range right old : Call (Session D) Unit) :=
    (Moves.lift _).bind fun _ => (Moves.read _).bind fun _ => (ZkTrie.removeIndex_moves _).bind fun _ =>
      removeRest_moves _ _ _
  exact (htail s₁).known_subset he

omit [NodeStore D] in
theorem remove_rest {old : Bytes} (hold : getLeafPath current.leafIndex = some old) {l : LeafOpening}
    (hl : parseNode parse old s₁ = .ok l) :
    ZkTrie.remove parse key s = ZkTrie.removeRest parse range right old
      { s₁ with db := Database.removeIndex hkey s₁.db } := by
  rw [remove_run hhash hrange hcenter hleft hright hret, hold, orPanic_some, Action.lift_ok_bind,
    (Action.Returns.read hl).bind_eq]
  rfl

theorem remove_branch {old : Bytes} (hold : getLeafPath current.leafIndex = some old) (hparse : Decodes parse dec)
    (hprior : parseNode parse left s = .ok prior) (hN : Genuine (known (ZkTrie.remove parse key s).2.db)) :
    (s₁.trie = s.trie ↔ Unmoved left (prior.newNextLeaf range.rightIndex) s) ∧
      (Quiet (known (ZkTrie.remove parse key s).2.db) (indexPath current.leafIndex) s ∨ s₁.trie = s.trie →
        (Fails (parseNode parse old s₁) ↔ Fails (parseNode parse old s))) ∧
      (Quiet (known (ZkTrie.remove parse key s).2.db) (indexPath current.leafIndex) s →
        ((∃ l, parseNode parse old s₁ = .ok l) ↔ ∃ l, parseNode parse old s = .ok l)) ∧
      ∀ l, parseNode parse old s₁ = .ok l →
        (right ≠ old → Quiet (known (ZkTrie.remove parse key s).2.db) (indexPath range.rightIndex) s) →
        (¬ Errs (ZkTrie.removeRest parse range right old) { s₁ with db := Database.removeIndex hkey s₁.db } ↔
          right ≠ old ∧ ¬ Fails (parseNode parse right s)) := by
  have hgrows := remove_grows hhash hrange hcenter hleft hright hret
  have hrun {l : LeafOpening} (hl : parseNode parse old s₁ = .ok l) :=
    remove_rest hhash hrange hcenter hleft hright hret hold hl
  obtain rfl := getLeafPath_some hleft
  obtain rfl := getLeafPath_some hright
  obtain rfl := getLeafPath_some hold
  obtain ⟨hmoved, hfails⟩ :=
    delete_branch (bits_length _ _) (bits_length _ current.leafIndex.toNat) hN hgrows hprior hret
  refine ⟨hmoved, hfails, ?_, ?_⟩
  · exact delete_reads (bits_length _ _) (bits_length _ _) hN hgrows hparse hprior hret
  · intro l hl
    apply delete_safe_iff (bits_length _ _) (bits_length _ _) (bits_length _ _) hN hgrows hprior hret hl
    rw [hrun hl]
    exact fun _ he => he

end Deletion

theorem deleteSafe_of_clean {current : FlattenedLeaf} (hparse : Decodes parse dec) (hhash : trieHash key = .ok hkey)
    (hrange : ZkTrie.nearestKeys hkey s = .ok range) (hcenter : range.center = some current)
    (hN : Genuine (known (ZkTrie.remove parse key s).2.db)) (h : DeleteClean parse range current s) :
    DeleteSafe parse hkey range current s := by
  intro left hleft right hright s₁ hret old hold
  obtain ⟨prior, _, hread, _⟩ := Action.bind_returns_iff.mp hret
  have hprior : parseNode parse left s = .ok prior := congrArg Prod.fst hread
  obtain ⟨hvoid, hclean⟩ := h left hleft right hright prior hprior old hold
  obtain ⟨hmoved, hfails, hreads, hsafe⟩ :=
    remove_branch hhash hrange hcenter hleft hright hret hold hparse hprior hN
  have hquiet : ¬ Fails (parseNode parse old s) →
      Quiet (known (ZkTrie.remove parse key s).2.db) (indexPath current.leafIndex) s := by
    obtain rfl := getLeafPath_some hold
    exact quiet_of_parseNode (bits_length _ _)
  constructor
  · intro e he
    by_cases hgood : Fails (parseNode parse old s)
    · exact hmoved.mpr (hvoid hgood)
    · exact absurd ⟨e, he⟩ (mt (hfails (Or.inl (hquiet hgood))).mp hgood)
  · intro l hl
    have hgood : ¬ Fails (parseNode parse old s) := by
      intro hbad
      obtain ⟨e, he⟩ := (hfails (Or.inr (hmoved.mpr (hvoid hbad)))).mpr hbad
      cases he.symm.trans hl
    obtain ⟨l', hl'⟩ := (hreads (hquiet hgood)).mp ⟨l, hl⟩
    obtain ⟨hne, hrightLeaf⟩ := hclean l' hl'
    apply (hsafe l hl ?_).mpr ⟨hne, hrightLeaf⟩
    obtain rfl := getLeafPath_some hright
    exact fun _ => quiet_of_parseNode (bits_length _ _) hrightLeaf

theorem deleteClean_of_safe {current : FlattenedLeaf} (hparse : Decodes parse dec) (hhash : trieHash key = .ok hkey)
    (hrange : ZkTrie.nearestKeys hkey s = .ok range) (hcenter : range.center = some current)
    (hN : Genuine (known (ZkTrie.remove parse key s).2.db))
    (hunsupplied : Unsupplied s (ZkTrie.remove parse key s).2) (h : DeleteSafe parse hkey range current s) :
    DeleteClean parse range current s := by
  intro left hleft right hright prior hprior old hold
  have hquiet (i : UInt64) : Quiet (known (ZkTrie.remove parse key s).2.db) (indexPath i) s :=
    fun lvl k hb => hunsupplied _ lvl k (bits_length _ _) hb
  have hs : Genuine (known s.db) := hN.mono (within_of_moves (ZkTrie.remove_moves key) fun _ he => he)
  obtain ⟨s₁, hret⟩ := rewriteLeaf_returns hs hleft hprior (·.newNextLeaf range.rightIndex)
  obtain ⟨hvoid, hclean⟩ := h left hleft right hright s₁ hret old hold
  obtain ⟨hmoved, hfails, hreads, hsafe⟩ :=
    remove_branch hhash hrange hcenter hleft hright hret hold hparse hprior hN
  constructor
  · intro hbad
    obtain ⟨e, he⟩ := (hfails (Or.inl (hquiet _))).mpr hbad
    exact hmoved.mp (hvoid e he)
  · intro l hl
    obtain ⟨l', hl'⟩ := (hreads (hquiet _)).mpr ⟨l, hl⟩
    exact (hsafe l' hl' fun _ => hquiet _).mp (hclean l' hl')

theorem putSafe_of_clean (hN : Genuine (known (ZkTrie.put parse key value s).2.db))
    (h : PutClean parse key value s) : PutSafe parse key value s := by
  intro hkey hhash range hrange sub hsub
  have hclean := h hkey hhash range hrange sub hsub
  cases hcenter : range.center with
  | none =>
    simp only [hcenter] at hclean
    exact insertSafe_of_clean hhash hrange hsub hcenter hN hclean
  | some current =>
    simp only [hcenter] at hclean
    exact (updateSafe_iff hhash hrange hsub hcenter hN).mpr hclean

theorem putClean_of_safe (hN : Genuine (known (ZkTrie.put parse key value s).2.db))
    (hunsupplied : Unsupplied s (ZkTrie.put parse key value s).2) (h : PutSafe parse key value s) :
    PutClean parse key value s := by
  intro hkey hhash range hrange sub hsub
  have hsafe := h hkey hhash range hrange sub hsub
  cases hcenter : range.center with
  | none =>
    simp only [hcenter] at hsafe
    exact insertClean_of_safe hhash hrange hsub hcenter hN hunsupplied hsafe
  | some current =>
    simp only [hcenter] at hsafe
    exact (updateSafe_iff hhash hrange hsub hcenter hN).mp hsafe

theorem removeSafe_of_clean (hparse : Decodes parse dec) (hN : Genuine (known (ZkTrie.remove parse key s).2.db))
    (h : RemoveClean parse key s) : RemoveSafe parse key s := by
  intro hkey hhash range hrange current hcenter
  exact deleteSafe_of_clean hparse hhash hrange hcenter hN (h hkey hhash range hrange current hcenter)

theorem removeClean_of_safe (hparse : Decodes parse dec) (hN : Genuine (known (ZkTrie.remove parse key s).2.db))
    (hunsupplied : Unsupplied s (ZkTrie.remove parse key s).2) (h : RemoveSafe parse key s) :
    RemoveClean parse key s := by
  intro hkey hhash range hrange current hcenter
  exact deleteClean_of_safe hparse hhash hrange hcenter hN hunsupplied (h hkey hhash range hrange current hcenter)

end Converse

section Claim

variable [TrieHash] [Profile] {D : Type} [Database D] {parse : Bytes → Option LeafOpening}

/-- A failed put or remove leaves the trie and the index alone exactly when no error comes after its first
write. In a store that keeps its nodes none does when no leaf that is read or written after that write is
missing, or another than it should be; and only then, unless the call itself puts on record a node that its
walks were missing. -/
theorem writes_failClean_iff (key value : Bytes) (s : Session D) :
    (FailsClean (ZkTrie.put parse key value) s ↔ PutSafe parse key value s) ∧
      (FailsClean (ZkTrie.remove parse key) s ↔ RemoveSafe parse key s) ∧
      ∀ [NodeStore D] {dec : LeafOpening → LeafOpening}, Decodes parse dec →
        (Genuine (known (ZkTrie.put parse key value s).2.db) →
          (PutClean parse key value s → FailsClean (ZkTrie.put parse key value) s) ∧
            (Unsupplied s (ZkTrie.put parse key value s).2 →
              FailsClean (ZkTrie.put parse key value) s → PutClean parse key value s)) ∧
        (Genuine (known (ZkTrie.remove parse key s).2.db) →
          (RemoveClean parse key s → FailsClean (ZkTrie.remove parse key) s) ∧
            (Unsupplied s (ZkTrie.remove parse key s).2 →
              FailsClean (ZkTrie.remove parse key) s → RemoveClean parse key s)) := by
  refine ⟨put_failsClean_iff key value, remove_failsClean_iff key, ?_⟩
  intro _ dec hparse
  constructor
  · intro hN
    constructor
    · intro h
      exact (put_failsClean_iff key value).mpr (putSafe_of_clean hN h)
    · intro hunsupplied h
      exact putClean_of_safe hN hunsupplied ((put_failsClean_iff key value).mp h)
  · intro hN
    constructor
    · intro h
      exact (remove_failsClean_iff key).mpr (removeSafe_of_clean hparse hN h)
    · intro hunsupplied h
      exact removeClean_of_safe hparse hN hunsupplied ((remove_failsClean_iff key).mp h)

end Claim

section Stray

variable [TrieHash]

/-- The empty trie, with an index that names a left leaf it does not have. -/
def strayTrie : Session PrefixDB :=
  ⟨⟨initWorldState.1.hash⟩, ⟨0, ⟨[], ⟨[(initWorldState.1.hash, [((0, 2), ⟨5, none, 1⟩)])]⟩, []⟩⟩⟩

theorem genuine_emptyTrieNode (h : separated emptyTrieNode = true) : Genuine emptyTrieNode where
  filed e he := (emptyTrieNode_proper e he).1
  unique e he e' he' heq := by
    have hproper := emptyTrieNode_proper
    have hE := collisionFree_of_separated h
    exact Node.unique hE (hproper e he).2 (hproper e' he').2 (fun b hb => ⟨e, he, hb⟩) (fun b hb => ⟨e', he', hb⟩)
      ((hproper e he).1.symm.trans (heq.trans (hproper e' he').1))
  nextFree e he node hraw := by
    have hkinded := (emptyTrieNode_proper e he).2
    rw [hraw] at hkinded
    rw [hkinded.1]
    exact List.not_mem_nil

end Stray

/-- An insertion that finds no left leaf fails, and leaves everything as it was. -/
theorem writes_failClean_iff_sample :
    letI := residueHash
    letI := debugProfile
    (∃ e t, (ZkTrie.put LeafOpening.parse [1] [7]).Stops strayTrie.logged (.error e) t) ∧
      FailsClean (ZkTrie.put LeafOpening.parse [1] [7]) strayTrie ∧
      FailsClean (ZkTrie.remove LeafOpening.parse [1]) strayTrie := by
  let := residueHash
  let := debugProfile
  have hseparated : separated emptyTrieNode = true := by decide +kernel
  have hrun : (error? ((ZkTrie.put LeafOpening.parse [1] [7]) strayTrie.logged).1).isSome = true ∧
      ((ZkTrie.put LeafOpening.parse [1] [7]) strayTrie).2.db.raw.nodes.isEmpty = true ∧
      ((ZkTrie.remove LeafOpening.parse [1]) strayTrie).2.db.raw.nodes.isEmpty = true := by
    decide +kernel
  obtain ⟨hfails, hput, hremove⟩ := hrun
  have hgenuine {db : PrefixDB} (hnodes : db.raw.nodes.isEmpty = true) : Genuine (known db) := by
    have hnil : NodeStore.nodes db = [] := List.isEmpty_iff.mp hnodes
    rw [known, hnil, List.append_nil]
    exact genuine_emptyTrieNode hseparated
  have hone : trieHash [1] = .ok 2 := rfl
  have hindex : Database.getNearestKeys strayTrie.db strayTrie.trie.rootHash 2 = some ⟨5, none, 1⟩ := by
    decide +kernel
  have hmissing : (parseNode LeafOpening.parse (leafPath (indexPath 5)) strayTrie).isOk = false := by
    decide +kernel
  have hrange {hkey : SH256} (hhash : trieHash [1] = .ok hkey) {range : KeyRange}
      (hnear : ZkTrie.nearestKeys hkey strayTrie = .ok range) : range = ⟨5, none, 1⟩ := by
    obtain rfl := Except.ok.inj (hone.symm.trans hhash)
    rw [ZkTrie.nearestKeys, ZkTrie.topRootHash, hindex] at hnear
    exact (Except.ok.inj hnear).symm
  have hdecodes : Decodes LeafOpening.parse _ := LeafOpening.parse_toBytes
  obtain ⟨-, -, hstore⟩ := writes_failClean_iff [1] [7] strayTrie
  obtain ⟨hputStore, hremoveStore⟩ := hstore hdecodes
  obtain ⟨hputClean, -⟩ := hputStore (hgenuine hput)
  obtain ⟨hremoveClean, -⟩ := hremoveStore (hgenuine hremove)
  obtain ⟨e, he⟩ := Option.isSome_iff_exists.mp hfails
  refine ⟨⟨e, _, Prod.ext (error?_eq_some.mp he) rfl⟩, hputClean ?_, hremoveClean ?_⟩
  · intro hkey hhash range hnear sub _
    obtain rfl := hrange hhash hnear
    intro left hleft right _ free _ prior hprior
    obtain rfl := getLeafPath_some hleft
    rw [show parseNode LeafOpening.parse (leafPath (indexPath 5)) strayTrie = .ok prior from hprior] at hmissing
    cases hmissing
  · intro hkey hhash range hnear current hcenter
    obtain rfl := hrange hhash hnear
    cases hcenter

section Refused

variable [TrieHash] [Profile]

def freshTrie (store : MemStore) : Session PrefixDB :=
  (ZkTrie.empty ⟨UInt64.ofNat (2 ^ 64 - 1), store⟩).2

def freshSubRoot : SH256 := (ZkTrie.subRootHash (freshTrie MemStore.new)).toOption.getD 0

def freshTrace : Trace :=
  .readZero ⟨[], 2, freshSubRoot, LeafOpening.head, LeafOpening.tail, ⟨0, []⟩, ⟨1, []⟩, [1]⟩

def freshStore : MemStore := (MemStore.fromTraces [freshTrace]).toOption.getD MemStore.new

end Refused

/-- An insertion whose value is refused has already rewritten the left leaf. -/
theorem put_refused :
    letI := residueHash
    letI := debugProfile
    ∃ e t, (ZkTrie.put LeafOpening.parse [1] []).Stops (freshTrie freshStore).logged (.error e) t ∧
      t.trie ≠ (freshTrie freshStore).trie := by
  let := residueHash
  let := debugProfile
  have hrun : (error? ((ZkTrie.put LeafOpening.parse [1] []) (freshTrie freshStore).logged).1).isSome = true ∧
      ((ZkTrie.put LeafOpening.parse [1] []) (freshTrie freshStore).logged).2.trie ≠
        (freshTrie freshStore).trie := by
    decide +kernel
  obtain ⟨herror, hmoved⟩ := hrun
  obtain ⟨e, he⟩ := Option.isSome_iff_exists.mp herror
  exact ⟨e, _, Prod.ext (error?_eq_some.mp he) rfl, hmoved⟩

end LineaSgxProver.Zktrie
