import LineaSgxProver.Zktrie.ProofReach
import Mathlib.Data.UInt

namespace LineaSgxProver.Zktrie

open Library

section Traces

variable [TrieHash] [Profile]

def Accepted (b : Bytes) : Prop := (TrieHash.sum b).isOk = true

def TraceProof.Fits (proof : TraceProof) : Prop :=
  proof.leafIndex.toNat < pathBound ∧ proof.siblings.length ≤ zkTrieDepth + 1

/-- Every leaf of the trace has a path with room for its siblings, and the index before an insertion
does not underflow. -/
def Trace.Fits : Trace → Prop
  | .update n => n.proof.Fits
  | .insertion n =>
    (Profile.overflowChecks = true → 1 ≤ n.newNextFreeNode.toNat) ∧ n.leftProof.Fits ∧
      n.newProof.Fits ∧ n.rightProof.Fits
  | .deletion n => n.leftProof.Fits ∧ n.deleteProof.Fits ∧ n.rightProof.Fits
  | .read _ => True
  | .readZero _ => True

def KeysRefused (traces : List Trace) : Prop :=
  ∀ before t after, traces = before ++ t :: after → (∀ u ∈ before, Accepted u.key) →
    NoPanic (TrieHash.sum t.key)

omit [Profile] in
theorem buildLoop_isSome (path : Bytes) (siblings : List SH256) (root : Node) (hpath : path ≠ []) :
    (TraceProof.buildLoop path siblings root).isSome = true ↔ siblings.length < path.length := by
  induction siblings generalizing root with
  | nil => simpa [TraceProof.buildLoop] using List.length_pos_iff.mpr hpath
  | cons sibling siblings ih =>
    rw [TraceProof.buildLoop, List.length_cons]
    have hsome (x : Option (List Node)) : (x.bind fun above => some (root :: above)).isSome = x.isSome := by
      cases x <;> rfl
    by_cases hlt : siblings.length + 1 < path.length
    · rw [List.getElem?_eq_getElem hlt]
      simp only [Option.bind_eq_bind, Option.bind_some]
      rw [hsome, ih]
      omega
    · rw [List.getElem?_eq_none (by omega)]
      simp [hlt]

theorem buildNodes_isSome (proof : TraceProof) (leaf : Option LeafOpening) :
    (proof.buildNodes leaf).isSome = true ↔ proof.Fits := by
  unfold TraceProof.buildNodes TraceProof.Fits
  rw [← getLeafPath_isSome]
  cases hpath : getLeafPath proof.leafIndex with
  | none => simp
  | some path =>
    have hlen := getLeafPath_length hpath
    have hne : path ≠ [] := by
      rintro rfl
      cases hlen
    have hroot (root : Node) : (TraceProof.buildLoop path proof.siblings root).isSome = true ↔
        (some path).isSome = true ∧ proof.siblings.length ≤ zkTrieDepth + 1 := by
      rw [buildLoop_isSome _ _ _ hne, hlen, Nat.lt_succ_iff]
      simp
    cases leaf with
    | none => exact hroot Node.emptyLeaf
    | some l =>
      have hleaf : Node.leaf (path.drop (path.length - 1)) l.toBytes = some (Node.ofLeafValue l.leafValue) := by
        rw [getLeafPath_last hpath]
        exact Node.leaf_eq l.leafValue
      simp only [Option.bind_eq_bind, Option.bind_some, hleaf]
      exact hroot _

theorem nodes_isSome (t : Trace) :
    t.oldState.isSome = true ∧ t.nodes.isSome = true ↔ t.Fits := by
  have hthree (x y z : Option (List Node)) :
      (do let l ← x; let m ← y; let r ← z; some (l ++ m ++ r) : Option (List Node)).isSome = true ↔
        x.isSome = true ∧ y.isSome = true ∧ z.isSome = true := by
    cases x <;> cases y <;> cases z <;> simp
  cases t with
  | read n => simp [Trace.oldState, Trace.nodes, Trace.Fits]
  | readZero n => simp [Trace.oldState, Trace.nodes, Trace.Fits]
  | update n => simp [Trace.oldState, Trace.nodes, Trace.Fits, buildNodes_isSome]
  | insertion n =>
    have hsub : (subU64 n.newNextFreeNode 1).isSome = true ↔
        (Profile.overflowChecks = true → 1 ≤ n.newNextFreeNode.toNat) := by
      unfold subU64
      cases Profile.overflowChecks <;> simp
    simp only [Trace.oldState, Trace.nodes, Trace.Fits, Option.isSome_map, hsub, hthree, buildNodes_isSome]
  | deletion n =>
    simp only [Trace.oldState, Trace.nodes, Trace.Fits, Option.isSome_some, hthree, buildNodes_isSome, true_and]

theorem addTraceNodes_isSome (m : NodeMap) (t : Trace) :
    (addTraceNodes m t).isSome = true ↔ t.Fits := by
  rw [← nodes_isSome]
  unfold addTraceNodes
  cases t.oldState with
  | none => simp
  | some state => cases t.nodes <;> simp

theorem traceNodes_isSome (traces : List Trace) :
    (traceNodes traces).isSome = true ↔ ∀ t ∈ traces, t.Fits := by
  have hfold (m : NodeMap) : (traces.foldlM addTraceNodes m).isSome = true ↔ ∀ t ∈ traces, t.Fits := by
    induction traces generalizing m with
    | nil => simp
    | cons t traces ih =>
      rw [List.foldlM_cons, List.forall_mem_cons, ← addTraceNodes_isSome m t]
      cases addTraceNodes m t with
      | none => simp
      | some m' => simpa using ih m'
  exact hfold []

omit [Profile] in
theorem trieHash_ok {data : Bytes} : (trieHash data).isOk = true ↔ Accepted data := by
  unfold trieHash Accepted
  cases TrieHash.sum data with
  | ok h => rfl
  | error e => cases e <;> rfl

omit [Profile] in
theorem trieHash_noPanic {data : Bytes} : NoPanic (trieHash data) ↔ NoPanic (TrieHash.sum data) := by
  unfold trieHash
  cases TrieHash.sum data with
  | ok h => simp [NoPanic]
  | error e => cases e <;> simp [NoPanic]

omit [Profile] in
theorem keysRefused_cons (t : Trace) (traces : List Trace) :
    KeysRefused (t :: traces) ↔
      NoPanic (TrieHash.sum t.key) ∧ (Accepted t.key → KeysRefused traces) := by
  constructor
  · intro h
    refine ⟨h [] t traces rfl (by simp), ?_⟩
    intro ht before u after heq hbefore
    refine h (t :: before) u after (by rw [heq]; rfl) ?_
    intro v hv
    rcases List.mem_cons.mp hv with rfl | hv
    · exact ht
    · exact hbefore v hv
  · rintro ⟨ht, hrest⟩ before u after heq hbefore
    cases before with
    | nil =>
      obtain ⟨rfl, _⟩ := List.cons.inj heq
      exact ht
    | cons v before =>
      obtain ⟨hhead, htail⟩ := List.cons.inj heq
      exact hrest (hhead ▸ hbefore v (List.mem_cons_self ..)) before u after htail
        fun w hw => hbefore w (List.mem_cons_of_mem _ hw)

theorem oldTopHash_of_fits {t : Trace} (ht : t.Fits) : ∃ top, t.oldTopHash = some top := by
  obtain ⟨state, hstate⟩ := Option.isSome_iff_exists.mp ((nodes_isSome t).mpr ht).1
  refine ⟨(Node.topNode state.1 state.2).hash, ?_⟩
  rw [Trace.oldTopHash, Trace.oldTopNode, hstate]
  rfl

theorem addTrace_noPanic {base : LevelMap} {t : Trace} (ht : t.Fits) :
    NoPanic (base.addTrace t) ↔ NoPanic (TrieHash.sum t.key) := by
  obtain ⟨top, htop⟩ := oldTopHash_of_fits ht
  unfold LevelMap.addTrace
  rw [htop, ← trieHash_noPanic, noPanic_bind]
  constructor
  · rintro ⟨_, h⟩
    exact (noPanic_bind.mp (h _ rfl)).1
  · intro h
    refine ⟨noPanic_ok _, ?_⟩
    intro top _
    exact noPanic_bind.mpr ⟨h, fun _ _ => noPanic_ok _⟩

theorem addTrace_isOk (base : LevelMap) {t : Trace} (ht : t.Fits) :
    (base.addTrace t).isOk = true ↔ Accepted t.key := by
  obtain ⟨top, htop⟩ := oldTopHash_of_fits ht
  unfold LevelMap.addTrace
  rw [htop, ← trieHash_ok]
  cases trieHash t.key <;> rfl

theorem foldlM_addTrace_noPanic {traces : List Trace} (hfits : ∀ t ∈ traces, t.Fits) (base : LevelMap) :
    NoPanic (traces.foldlM LevelMap.addTrace base) ↔ KeysRefused traces := by
  induction traces generalizing base with
  | nil =>
    refine iff_of_true (noPanic_ok _) ?_
    intro before t after h
    cases before <;> cases h
  | cons t traces ih =>
    have ht := hfits t (List.mem_cons_self ..)
    have hrest := ih fun u hu => hfits u (List.mem_cons_of_mem _ hu)
    rw [List.foldlM_cons, noPanic_bind, keysRefused_cons, addTrace_noPanic ht,
      ← addTrace_isOk base ht, isOk_iff]
    refine and_congr_right fun _ => ?_
    constructor
    · rintro h ⟨next, hnext⟩
      exact (hrest next).mp (h next hnext)
    · intro h next hnext
      exact (hrest next).mpr (h ⟨next, hnext⟩)

theorem fromTraces_noPanic (traces : List Trace) :
    NoPanic (MemStore.fromTraces traces) ↔
      traces ≠ [] ∧ (∀ t ∈ traces, t.Fits) ∧ KeysRefused traces := by
  unfold MemStore.fromTraces LevelMap.fromTraces
  rw [noPanic_bind, noPanic_orPanic, traceNodes_isSome]
  constructor
  · rintro ⟨hfits, h⟩
    obtain ⟨nodes, hnodes⟩ := Option.isSome_iff_exists.mp ((traceNodes_isSome traces).mpr hfits)
    have hindex := (noPanic_bind.mp (h nodes (by rw [hnodes]; rfl))).1
    by_cases hnil : traces = []
    · rw [if_pos hnil] at hindex
      exact absurd rfl hindex
    · rw [if_neg hnil] at hindex
      exact ⟨hnil, hfits, (foldlM_addTrace_noPanic hfits _).mp hindex⟩
  · rintro ⟨hne, hfits, hkeys⟩
    refine ⟨hfits, fun nodes _ => ?_⟩
    rw [if_neg hne, noPanic_bind]
    exact ⟨(foldlM_addTrace_noPanic hfits _).mpr hkeys, fun index _ => noPanic_ok _⟩

end Traces

namespace ProofCall

variable [TrieHash] [Profile]

/-- The list is as long as a path, the two leaves under a well-formed root are hashable, and a proof
that is accepted for a key without an entry comes with a value. -/
structure Fits (c : ProofCall) (s : MemStore) : Prop where
  index : c.leafIndex.toNat < pathBound
  count : c.siblings.length = zkTrieDepth + 2
  leaf : (c.siblings.headD []).length = 64 → Accepted c.leafBytes
  sibling : (c.siblings.headD []).length = 64 → Accepted c.leafSibling
  value : ∀ root out, c.checked = .ok (root, out) → s.index.lookup root (c.pfx, c.hkey) = none →
    c.value.isSome = true

omit [Profile] in
theorem new_leaf_isSome (path buf : Bytes) :
    (Node.new (.parseLeaf path buf)).isSome = true ↔ Accepted buf := by
  have hhash : (NodeValue.parseLeaf path buf).hash = (TrieHash.sum buf).toOption := rfl
  unfold Node.new Accepted
  split
  · next h heq =>
    rw [hhash] at heq
    cases hsum : TrieHash.sum buf with
    | ok k => simp [Except.isOk, Except.toBool]
    | error e =>
      rw [hsum] at heq
      cases heq
  · next heq =>
    rw [hhash] at heq
    cases hsum : TrieHash.sum buf with
    | ok k =>
      rw [hsum] at heq
      cases heq
    | error e => simp [Except.isOk, Except.toBool]

omit [Profile] in
theorem new_branch_isSome (b : BranchNode) : (Node.new (.branch b)).isSome = true := by
  rw [Node.new_ofHashed _ (Node.branch_isSome b.left b.right)]
  rfl

omit [Profile] in
theorem siblingValue_noPanic (path : Bytes) (idx : ℕ) (buf : Bytes) :
    NoPanic (MemStore.siblingValue path idx buf) := by
  unfold MemStore.siblingValue
  split_ifs
  · exact noPanic_ok _
  · cases NodeValue.parseBranch buf with
    | none => exact noPanic_error _
    | some v => exact noPanic_ok v

omit [Profile] in
theorem proofLoop_noPanic {path : Bytes} (hpath : path.length = zkTrieDepth + 2) {siblings : List Bytes}
    (hlen : siblings.length < zkTrieDepth) (h : SH256) (out : List Node) :
    NoPanic (MemStore.proofLoop path siblings h out) := by
  induction siblings generalizing h out with
  | nil => exact noPanic_ok _
  | cons s siblings ih =>
    rw [List.length_cons] at hlen
    unfold MemStore.proofLoop
    rw [noPanic_bind]
    refine ⟨siblingValue_noPanic _ _ _, ?_⟩
    intro value hvalue
    rw [noPanic_bind]
    have hnew : (Node.new value).isSome = true := by
      unfold MemStore.siblingValue at hvalue
      rw [if_neg (by omega)] at hvalue
      unfold NodeValue.parseBranch at hvalue
      split_ifs at hvalue
      · rw [← Except.ok.inj hvalue]
        exact new_branch_isSome _
    refine ⟨noPanic_orPanic.mpr hnew, ?_⟩
    intro sibling _
    rw [noPanic_bind]
    have hbit : path[siblings.length + 1]?.isSome = true := by
      rw [List.getElem?_eq_getElem (by omega)]
      rfl
    exact ⟨noPanic_orPanic.mpr hbit, fun bit _ => ih (by omega) _ _⟩

omit [Profile] in
theorem proofLoop_cons_noPanic {path : Bytes} (hpath : path.length = zkTrieDepth + 2)
    {beside : Bytes} {siblings : List Bytes} (hlen : siblings.length + 1 = zkTrieDepth) (h : SH256) :
    NoPanic (MemStore.proofLoop path (beside :: siblings) h []) ↔ Accepted beside := by
  have hvalue : MemStore.siblingValue path (siblings.length + 1) beside =
      .ok (.parseLeaf (path.drop (path.length - 1)) beside) :=
    if_pos hlen
  unfold MemStore.proofLoop
  rw [noPanic_bind, hvalue, ← new_leaf_isSome (path.drop (path.length - 1)) beside]
  constructor
  · rintro ⟨_, h⟩
    exact noPanic_orPanic.mp (noPanic_bind.mp (h _ rfl)).1
  · intro hnew
    refine ⟨noPanic_ok _, ?_⟩
    rintro _ ⟨⟩
    rw [noPanic_bind]
    refine ⟨noPanic_orPanic.mpr hnew, ?_⟩
    intro sibling _
    rw [noPanic_bind]
    have hbit : path[siblings.length + 1]?.isSome = true := by
      rw [List.getElem?_eq_getElem (by omega)]
      rfl
    exact ⟨noPanic_orPanic.mpr hbit, fun bit _ => proofLoop_noPanic hpath (by omega) _ _⟩

theorem checked_noPanic (c : ProofCall) :
    NoPanic c.checked ↔ c.leafIndex.toNat < pathBound ∧ c.siblings.length = zkTrieDepth + 2 ∧
      ((c.siblings.headD []).length = 64 → Accepted c.leafBytes ∧ Accepted c.leafSibling) := by
  unfold checked MemStore.checkProof
  rw [noPanic_bind, noPanic_orPanic, getLeafPath_isSome]
  refine and_congr_right fun hindex => ?_
  obtain ⟨path, hpath⟩ := Option.isSome_iff_exists.mp ((getLeafPath_isSome _).mpr hindex)
  have hlen := getLeafPath_length hpath
  simp only [hpath, orPanic_some, Except.ok.injEq, forall_eq']
  by_cases hcount : c.siblings.length = path.length
  · obtain ⟨sibs, hsibs, hrest⟩ := c.reverse_siblings (hcount.trans hlen)
    rw [if_neg (not_not.mpr hcount), and_iff_right (hcount.trans hlen), hsibs]
    unfold NodeValue.parseBranch
    by_cases hroot : (c.siblings.headD []).length = 64
    · rw [if_pos hroot, forall_prop_of_true hroot, ← new_leaf_isSome (path.drop (path.length - 1)) c.leafBytes]
      constructor
      · intro h
        obtain ⟨root, hnew⟩ := Option.isSome_iff_exists.mp (new_branch_isSome _)
        have hleaf := noPanic_bind.mp ((noPanic_bind.mp h).2 root (by rw [hnew]; rfl))
        have hsome := noPanic_orPanic.mp hleaf.1
        obtain ⟨leaf, hnewLeaf⟩ := Option.isSome_iff_exists.mp hsome
        refine ⟨hsome, ?_⟩
        exact (proofLoop_cons_noPanic hlen hrest leaf.hash).mp
          (noPanic_bind.mp (hleaf.2 leaf (by rw [hnewLeaf]; rfl))).1
      · rintro ⟨hleaf, hbeside⟩
        refine noPanic_bind.mpr ⟨noPanic_orPanic.mpr (new_branch_isSome _), ?_⟩
        intro root hnew
        refine noPanic_bind.mpr ⟨noPanic_orPanic.mpr hleaf, ?_⟩
        intro leaf _
        refine noPanic_bind.mpr ⟨(proofLoop_cons_noPanic hlen hrest leaf.hash).mpr hbeside, ?_⟩
        rintro ⟨leafHash, out⟩ _
        have hraw := Node.raw_of_new (orPanic_eq_ok.mp hnew)
        refine noPanic_bind.mpr ⟨noPanic_orPanic.mpr (by rw [hraw]; rfl), ?_⟩
        intro branch _
        split_ifs
        · exact noPanic_error _
        · exact noPanic_ok _
    · rw [if_neg hroot]
      exact iff_of_true (noPanic_error _) fun h => absurd h hroot
  · rw [if_pos hcount]
    refine iff_of_false ?_ fun h => hcount (h.1.trans hlen.symm)
    exact fun h => h rfl

theorem run_error {c : ProofCall} {e : Fault Error} (h : c.checked = .error e) (s : MemStore) :
    c.run.Stops s e s := by
  apply Action.Stops.head
  exact Prod.ext h rfl

theorem run_ok {c : ProofCall} {root : SH256} {out : List Node} (h : c.checked = .ok (root, out))
    (s : MemStore) :
    (c.run s).1 = if s.index.lookup root (c.pfx, c.hkey) = none ∧ c.value = none then .error .panic
      else .ok root := by
  unfold run MemStore.addProof
  rw [show MemStore.checkProof c.leafIndex c.siblings = .ok (root, out) from h]
  simp only [Action.bind_apply, Action.lift, Action.update, Action.read, LevelMap.getD_get]
  cases s.index.lookup root (c.pfx, c.hkey) with
  | some r => rfl
  | none => cases c.value <;> rfl

theorem run_noPanic (c : ProofCall) (s : MemStore) : NoPanic (c.run s).1 ↔ c.Fits s := by
  have hsafe := c.checked_noPanic
  cases hchecked : c.checked with
  | error e =>
    have hrun : (c.run s).1 = .error e := congrArg Prod.fst (run_error hchecked s)
    rw [hchecked, noPanic_error_iff] at hsafe
    rw [hrun, noPanic_error_iff, hsafe]
    constructor
    · rintro ⟨hindex, hcount, hleaves⟩
      refine ⟨hindex, hcount, fun hroot => (hleaves hroot).1, fun hroot => (hleaves hroot).2, ?_⟩
      intro root out hok
      rw [hchecked] at hok
      cases hok
    · intro h
      exact ⟨h.index, h.count, fun hroot => ⟨h.leaf hroot, h.sibling hroot⟩⟩
  | ok r =>
    obtain ⟨root, out⟩ := r
    obtain ⟨hindex, hcount, hleaves⟩ := hsafe.mp (hchecked ▸ noPanic_ok _)
    rw [run_ok hchecked]
    constructor
    · intro h
      refine ⟨hindex, hcount, fun hroot => (hleaves hroot).1, fun hroot => (hleaves hroot).2, ?_⟩
      intro root' out' hok hnone
      obtain ⟨rfl, rfl⟩ := Prod.mk.inj (Except.ok.inj (hchecked.symm.trans hok))
      cases hvalue : c.value with
      | some v => rfl
      | none =>
        rw [if_pos ⟨hnone, hvalue⟩] at h
        exact absurd rfl h
    · intro h
      rw [if_neg]
      · exact noPanic_ok root
      · rintro ⟨hnone, hvalue⟩
        have hsome := h.value root out hchecked hnone
        rw [hvalue] at hsome
        cases hsome

theorem run_stops {c : ProofCall} {s s' : MemStore} {e : Error} (h : c.run.Stops s (.error e) s') :
    s' = s := by
  cases hchecked : c.checked with
  | error e' => exact (Prod.mk.inj ((run_error hchecked s).symm.trans h)).2.symm
  | ok r =>
    obtain ⟨root, out⟩ := r
    have hfst := (run_ok hchecked s).symm.trans (congrArg Prod.fst h)
    split_ifs at hfst
    cases hfst

end ProofCall

section Load

variable [TrieHash] [Profile]

/-- Loading a witness panics exactly on what does not fit; a proof that returns an error is not
loaded at all. -/
theorem load_noPanic_iff :
    (∀ traces, NoPanic (MemStore.fromTraces traces) ↔
        traces ≠ [] ∧ (∀ t ∈ traces, t.Fits) ∧ KeysRefused traces) ∧
      ∀ (c : ProofCall) (s : MemStore), (NoPanic (c.run s).1 ↔ c.Fits s) ∧
        ∀ e s', c.run.Stops s (.error e) s' → s'.nodes = s.nodes ∧ s'.index = s.index := by
  refine ⟨fromTraces_noPanic, ?_⟩
  intro c s
  refine ⟨c.run_noPanic s, ?_⟩
  intro e s' h
  rw [ProofCall.run_stops h]
  exact ⟨rfl, rfl⟩

end Load

/-- No traces at all, an index beyond the trie, and a list of no strings all panic. -/
theorem load_panics :
    letI := residueHash
    letI := debugProfile
    ¬ NoPanic (MemStore.fromTraces []) ∧
      ¬ NoPanic ((⟨0, 2 ^ 40, 2, some [7], []⟩ : ProofCall).run MemStore.new).1 ∧
      ¬ NoPanic ((⟨0, 0, 2, some [7], []⟩ : ProofCall).run MemStore.new).1 := by
  let := residueHash
  let := debugProfile
  exact ⟨fun h => h rfl, fun h => h rfl, fun h => h rfl⟩

end LineaSgxProver.Zktrie
