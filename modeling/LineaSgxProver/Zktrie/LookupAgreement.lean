import LineaSgxProver.Zktrie.ReadSoundness

namespace LineaSgxProver.Zktrie

open Library

namespace NodeValue

/-- What the kinds of a supplied node still say about it. -/
def Shaped : NodeValue → Prop
  | leaf node => node.path = [LeafType.value]
  | nextFree node => node.path = []
  | _ => True

theorem Kinded.shaped {v : NodeValue} (h : v.Kinded) : v.Shaped := by
  cases v with
  | branch node => trivial
  | emptyLeaf => trivial
  | leaf node => exact h.1
  | nextFree node => exact h.1

end NodeValue

section Filed

variable [TrieHash]

def Filed (m : NodeMap) : Prop := ∀ e ∈ m, e.1 = e.2.hash ∧ e.2.raw.Shaped

theorem Proper.filed {m : NodeMap} (h : Proper m) : Filed m :=
  fun e he => ⟨(h e he).1, (h e he).2.shaped⟩

def Separating (E : Set Bytes) : Prop :=
  ∀ x ∈ E, ∀ y ∈ E, ∀ h, TrieHash.sum x = .ok h → TrieHash.sum y = .ok h → x = y

def ProofCall.leafSibling (c : ProofCall) : Bytes := c.siblings.dropLast.getLastD []

omit [TrieHash] in
theorem ProofCall.reverse_siblings (c : ProofCall) (hlen : c.siblings.length = zkTrieDepth + 2) :
    ∃ sibs, c.siblings.dropLast.tail.reverse = c.leafSibling :: sibs ∧ sibs.length + 1 = zkTrieDepth := by
  have hfull : c.siblings.dropLast.tail.reverse.length = zkTrieDepth := by
    simp [hlen]
  obtain ⟨beside, sibs, hsibs⟩ := List.exists_cons_of_length_eq_add_one (n := 39) hfull
  have hbeside : beside = c.leafSibling := by
    have hlong : c.siblings.dropLast.length ≠ 1 := by
      rw [List.length_dropLast, hlen]
      decide
    have hhead := congrArg List.head? hsibs
    rw [List.head?_reverse, List.getLast?_tail, if_neg hlong, List.head?_cons] at hhead
    rw [ProofCall.leafSibling, List.getLastD_eq_getLast?, hhead, Option.getD_some]
  refine ⟨sibs, hbeside ▸ hsibs, ?_⟩
  rw [← hfull, hsibs, List.length_cons]

theorem proofLoop_branches {path : Bytes} {sibs : List Bytes} {h h' : SH256} {out out' : List Node}
    (hlen : sibs.length < zkTrieDepth) (hrun : MemStore.proofLoop path sibs h out = .ok (h', out')) :
    ∃ new, out' = out ++ new ∧ ∀ n ∈ new, ∃ b, n.raw = .branch b := by
  induction sibs generalizing h out with
  | nil =>
    obtain ⟨_, rfl⟩ := Prod.mk.inj (Except.ok.inj hrun)
    exact ⟨[], by simp, by simp⟩
  | cons s sibs ih =>
    unfold MemStore.proofLoop at hrun
    obtain ⟨value, hvalue, hrun⟩ := bind_eq_ok.mp hrun
    obtain ⟨sibling, hsibling, hrun⟩ := bind_eq_ok.mp hrun
    obtain ⟨bit, _, hrun⟩ := bind_eq_ok.mp hrun
    have hraw := Node.raw_of_new (orPanic_eq_ok.mp hsibling)
    rw [List.length_cons] at hlen
    obtain ⟨new, rfl, hnew⟩ := ih (by omega) hrun
    refine ⟨[sibling, Node.rawBranchAuto bit h sibling.hash] ++ new, by simp, ?_⟩
    intro n hn
    rcases List.mem_append.mp hn with hn | hn
    · rw [List.mem_cons, List.mem_singleton] at hn
      rcases hn with rfl | rfl
      · rw [hraw]
        unfold MemStore.siblingValue at hvalue
        rw [if_neg (by omega)] at hvalue
        unfold NodeValue.parseBranch at hvalue
        split_ifs at hvalue
        exact ⟨_, (Except.ok.inj hvalue).symm⟩
      · unfold Node.rawBranchAuto
        split_ifs <;> exact ⟨_, rfl⟩
    · exact hnew n hn

variable [Profile]

theorem checkProof_split {c : ProofCall} {root : SH256} {out : List Node}
    (h : c.checked = .ok (root, out)) :
    ∃ sibling rest, out = sibling :: rest ∧ sibling.raw = .leaf ⟨[LeafType.value], c.leafSibling⟩ ∧
      ∀ n ∈ rest, ∃ b, n.raw = .branch b := by
  unfold ProofCall.checked MemStore.checkProof at h
  obtain ⟨path, hpath, h⟩ := bind_eq_ok.mp h
  have hpath := getLeafPath_some (orPanic_eq_ok.mp hpath)
  have hdrop : path.drop (path.length - 1) = [LeafType.value] := by
    rw [hpath, leafPath]
    exact List.drop_left' (by simp)
  have hlen : path.length = zkTrieDepth + 2 := by
    rw [hpath, leafPath]
    simp
  split_ifs at h with hsib
  · cases h
  have hsib : c.siblings.length = zkTrieDepth + 2 := (not_not.mp hsib).trans hlen
  obtain ⟨sibs, hsibs, hrest⟩ := c.reverse_siblings hsib
  dsimp only at h
  cases hvalue : NodeValue.parseBranch (c.siblings.headD []) with
  | none =>
    rw [hvalue] at h
    cases h
  | some rootValue =>
    rw [hvalue] at h
    obtain ⟨rootNode, _, h⟩ := bind_eq_ok.mp h
    obtain ⟨leaf, _, h⟩ := bind_eq_ok.mp h
    obtain ⟨⟨leafHash, new⟩, hloop, h⟩ := bind_eq_ok.mp h
    obtain ⟨branch, hbranch, h⟩ := bind_eq_ok.mp h
    split_ifs at h with heq
    · cases h
    obtain ⟨_, rfl⟩ := Prod.mk.inj (Except.ok.inj h)
    rw [hsibs, MemStore.proofLoop] at hloop
    obtain ⟨value, hvalue', hloop⟩ := bind_eq_ok.mp hloop
    obtain ⟨sibling, hsibling, hloop⟩ := bind_eq_ok.mp hloop
    obtain ⟨bit, _, hloop⟩ := bind_eq_ok.mp hloop
    have hraw := Node.raw_of_new (orPanic_eq_ok.mp hsibling)
    rw [MemStore.siblingValue, if_pos hrest, hdrop] at hvalue'
    rw [← Except.ok.inj hvalue'] at hraw
    obtain ⟨above, rfl, habove⟩ := proofLoop_branches (by omega) hloop
    refine ⟨sibling, Node.rawBranchAuto bit leaf.hash sibling.hash :: (above ++ [rootNode]), by simp,
      hraw, ?_⟩
    intro n hn
    simp only [List.mem_append, List.mem_cons, List.not_mem_nil, or_false] at hn
    rcases hn with rfl | hn | rfl
    · unfold Node.rawBranchAuto
      split_ifs <;> exact ⟨_, rfl⟩
    · exact habove n hn
    · cases hr : n.raw <;> rw [hr] at hbranch <;> cases hbranch
      exact ⟨_, rfl⟩

theorem checkProof_nodes {c : ProofCall} {root : SH256} {out : List Node}
    (h : c.checked = .ok (root, out)) :
    ∀ n ∈ out, (∃ b, n.raw = .branch b) ∨ n.raw = .leaf ⟨[LeafType.value], c.leafSibling⟩ := by
  obtain ⟨sibling, rest, rfl, hsibling, hrest⟩ := checkProof_split h
  intro n hn
  rcases List.mem_cons.mp hn with rfl | hn
  · exact Or.inr hsibling
  · exact Or.inl (hrest n hn)

variable {traces : List Trace} {calls : List ProofCall} {s : MemStore}

theorem Built.filed (h : Built traces calls s) : Filed (emptyTrieNode ++ s.nodes) := by
  obtain ⟨nodes, index, hnodes, _, hrun⟩ := h.start
  intro e he
  rcases List.mem_append.mp he with he | he
  · exact emptyTrieNode_proper.filed e he
  rcases (ProofCall.runAll_nodes hrun e).mp he with he | ⟨c, _, root, out, hchecked, n, hn, rfl⟩
  · exact (traceNodes_proper hnodes).filed e he
  · refine ⟨rfl, ?_⟩
    rcases checkProof_nodes hchecked n hn with ⟨b, hb⟩ | hleaf
    · rw [hb]
      trivial
    · rw [hleaf]
      rfl

theorem Built.leaf_length (h : Built traces calls s) (hcalls : ∀ c ∈ calls, c.leafSibling.length ≠ 64)
    {e : SH256 × Node} (he : e ∈ emptyTrieNode ++ s.nodes) {l : LeafNode} (hl : e.2.raw = .leaf l) :
    l.value.length ≠ 64 := by
  have kinded (hk : e.2.raw.Kinded) : l.value.length ≠ 64 := by
    rw [hl] at hk
    rw [hk.2]
    decide
  obtain ⟨nodes, index, hnodes, _, hrun⟩ := h.start
  rcases List.mem_append.mp he with he | he
  · exact kinded (emptyTrieNode_proper e he).2
  rcases (ProofCall.runAll_nodes hrun e).mp he with he | ⟨c, hc, root, out, hchecked, n, hn, rfl⟩
  · exact kinded (traceNodes_proper hnodes e he).2
  · rcases checkProof_nodes hchecked n hn with ⟨b, hb⟩ | hleaf
    · rw [hb] at hl
      cases hl
    · rw [hleaf] at hl
      cases hl
      exact hcalls c hc

end Filed

section Path

/-- The path of a leaf: a byte for every level and the leaf type at its end. -/
structure LeafBytes (path : Bytes) : Prop where
  length : path.length = zkTrieDepth + 2
  last : path.drop (zkTrieDepth + 1) = [LeafType.value]

theorem LeafBytes.get {path : Bytes} (h : LeafBytes path) (rem : ℕ) :
    ∃ x, path[zkTrieDepth + 1 - rem]? = some x := by
  have hlt : zkTrieDepth + 1 - rem < path.length := by
    rw [h.length]
    omega
  exact ⟨_, List.getElem?_eq_getElem hlt⟩

theorem LeafBytes.drop_iff {path : Bytes} (h : LeafBytes path) {rem : ℕ} (hrem : rem ≤ zkTrieDepth + 1) :
    [LeafType.value] = path.drop (zkTrieDepth + 1 - rem) ↔ rem = 0 := by
  constructor
  · intro heq
    have hlen := congrArg List.length heq
    rw [List.length_singleton, List.length_drop, h.length] at hlen
    omega
  · rintro rfl
    exact h.last.symm

theorem LeafBytes.drop_ne {path : Bytes} (h : LeafBytes path) (rem : ℕ) :
    [] ≠ path.drop (zkTrieDepth + 1 - rem) := by
  intro heq
  have hlen := congrArg List.length heq
  rw [List.length_nil, List.length_drop, h.length] at hlen
  omega

end Path

section Lookup

variable [TrieHash] {D : Type} [Database D] [NodeStore D]

open SpareMerkleTrie (getNodeFrom)

theorem getNodeFrom_succ (db : D) (path : Bytes) (rem : ℕ) (h : SH256) :
    getNodeFrom db path (rem + 1) h = match (known db).get h with
      | none => .error (.error (.nodeNotFound (zkTrieDepth + 1 - rem) h))
      | some n => match n.raw with
        | .branch b => match path[zkTrieDepth + 1 - rem]? with
          | some x => getNodeFrom db path rem (if x = 0 then b.left else b.right)
          | none => .error .panic
        | .emptyLeaf => .ok none
        | .leaf l => if l.path = path.drop (zkTrieDepth + 1 - rem) then .ok (some n) else .ok none
        | .nextFree l =>
          if l.path = path.drop (zkTrieDepth + 1 - rem) then .ok (some n) else .error .panic := by
  have hget : Database.getNode db h = .ok ((known db).get h) := NodeStore.getNode_eq db h
  rw [getNodeFrom, SpareMerkleTrie.fetch, hget]
  cases (known db).get h <;> rfl

def Finds (db : D) (path : Bytes) : ℕ → SH256 → Prop
  | 0, _ => False
  | rem + 1, h => ∃ n, (known db).get h = some n ∧
    match n.raw with
    | .branch b => ∃ x, path[zkTrieDepth + 1 - rem]? = some x ∧
        Finds db path rem (if x = 0 then b.left else b.right)
    | .leaf _ => rem = 0
    | _ => False

/-- On the common way down, one store has a 64-byte leaf where the other goes on to a leaf. -/
def Clash (db db' : D) (path : Bytes) : ℕ → SH256 → Prop
  | 0, _ => False
  | rem + 1, h => ∃ n n', (known db).get h = some n ∧ (known db').get h = some n' ∧
    match n.raw, n'.raw with
    | .leaf l, .branch _ => l.value.length = 64 ∧ Finds db' path (rem + 1) h
    | .branch b, .branch _ => ∃ x, path[zkTrieDepth + 1 - rem]? = some x ∧
        Clash db db' path rem (if x = 0 then b.left else b.right)
    | _, _ => False

def Agree : Option Node → Option Node → Prop
  | none, none => True
  | some n, some n' => ∃ l l', n.raw = .leaf l ∧ n'.raw = .leaf l' ∧ l.value = l'.value
  | _, _ => False

theorem finds_iff {db : D} (hfiled : Filed (known db)) {path : Bytes} (hpath : LeafBytes path)
    {rem : ℕ} (hrem : rem ≤ zkTrieDepth + 2) (h : SH256) :
    Finds db path rem h ↔ ∃ n, getNodeFrom db path rem h = .ok (some n) := by
  induction rem generalizing h with
  | zero =>
    constructor
    · rintro ⟨⟩
    · rintro ⟨n, hn⟩
      cases hn
  | succ rem ih =>
    rw [getNodeFrom_succ, Finds]
    cases hget : (known db).get h with
    | none => simp
    | some n =>
      have hshape := (hfiled _ (mem_of_get hget)).2
      obtain ⟨x, hx⟩ := hpath.get rem
      simp only [Option.some.injEq, exists_eq_left']
      cases hraw : n.raw with
      | branch b =>
        simp only [hx, Option.some.injEq, exists_eq_left']
        exact ih (by omega) _
      | emptyLeaf => simp
      | leaf l =>
        rw [hraw] at hshape
        have hlast := hpath.drop_iff (Nat.le_of_succ_le_succ hrem)
        simp only [show l.path = [LeafType.value] from hshape, hlast]
        split_ifs with hzero <;> simp [hzero]
      | nextFree l =>
        rw [hraw] at hshape
        have hne := hpath.drop_ne rem
        simp only [show l.path = [] from hshape, hne, ↓reduceIte]
        simp

theorem Agree.symm {a a' : Option Node} (h : Agree a a') : Agree a' a := by
  cases a <;> cases a'
  · trivial
  · exact h
  · exact h
  · obtain ⟨l, l', hl, hl', hv⟩ := h
    exact ⟨l', l, hl', hl, hv.symm⟩

variable {E : Set Bytes} {db db' : D} {path : Bytes}

theorem found_cases (hsep : Separating E) (hfiled : Filed (known db)) (hfiled' : Filed (known db'))
    (hsub : encodings (known db) ⊆ E) (hsub' : encodings (known db') ⊆ E) {h : SH256} {n n' : Node}
    (hn : (known db).get h = some n) (hn' : (known db').get h = some n') :
    n = n' ∨ (∃ b l, n.raw = .branch b ∧ n'.raw = .leaf l ∧ l.value.length = 64) ∨
      (∃ l b, n.raw = .leaf l ∧ n'.raw = .branch b ∧ l.value.length = 64) ∨
      (∃ l, n.raw = .nextFree l) ∨ ∃ l, n'.raw = .nextFree l := by
  have hmem := mem_of_get hn
  have hmem' := mem_of_get hn'
  obtain ⟨hhash, hshape⟩ := hfiled _ hmem
  obtain ⟨hhash', hshape'⟩ := hfiled' _ hmem'
  rw [BTreeMap.get, known, List.lookup_append] at hn hn'
  cases htable : emptyTrieNode.lookup h with
  | some e =>
    rw [htable] at hn hn'
    exact Or.inl (Option.some.inj (hn.symm.trans hn'))
  | none =>
    have hzero : h ≠ 0 := by
      rintro rfl
      have hnot := List.lookup_eq_none_iff.mp htable (entry .empty) (empty_mem_emptyTrieNode (Nat.zero_le _))
      have hempty : (entry .empty).1 = 0 := rfl
      rw [hempty] at hnot
      simp at hnot
    have bytes {k : Node} (hk : h = k.hash) : ∃ b, k.raw.toBytes = some b := by
      by_contra hnone
      apply hzero
      rw [hk, Node.toBytes_eq_none (Option.not_isSome_iff_eq_none.mp fun hs =>
        hnone (Option.isSome_iff_exists.mp hs))]
      rfl
    obtain ⟨b, hb⟩ := bytes hhash
    obtain ⟨b', hb'⟩ := bytes hhash'
    have heq : b = b' := by
      refine hsep b (hsub ⟨_, hmem, hb⟩) b' (hsub' ⟨_, hmem', hb'⟩) h ?_ ?_
      · rw [show h = n.hash from hhash]
        exact n.sum_of_toBytes hb
      · rw [show h = n'.hash from hhash']
        exact n'.sum_of_toBytes hb'
    subst heq
    have long {x : BranchNode} {l : LeafNode} (hx : (NodeValue.branch x).toBytes = some b)
        (hl : (NodeValue.leaf l).toBytes = some b) : l.value.length = 64 := by
      have hv : l.value = SH256.bytes x.left ++ SH256.bytes x.right :=
        Option.some.inj (hl.trans hx.symm)
      rw [hv]
      simp
    have same (hraw : n.raw = n'.raw) : n = n' := Node.ext_raw hraw
    cases hraw : n.raw with
    | nextFree l => exact Or.inr (Or.inr (Or.inr (Or.inl ⟨l, rfl⟩)))
    | emptyLeaf =>
      rw [hraw] at hb
      cases hb
    | branch x =>
      rw [hraw] at hb
      cases hraw' : n'.raw with
      | nextFree l => exact Or.inr (Or.inr (Or.inr (Or.inr ⟨l, rfl⟩)))
      | emptyLeaf =>
        rw [hraw'] at hb'
        cases hb'
      | branch y =>
        rw [hraw'] at hb'
        have heq : NodeValue.branch x = NodeValue.branch y :=
          NodeValue.eq_of_toBytes trivial trivial hb hb'
        left
        apply same
        rw [hraw, hraw', heq]
      | leaf l =>
        rw [hraw'] at hb'
        exact Or.inr (Or.inl ⟨x, l, rfl, rfl, long hb hb'⟩)
    | leaf l =>
      rw [hraw] at hb hshape
      cases hraw' : n'.raw with
      | nextFree l => exact Or.inr (Or.inr (Or.inr (Or.inr ⟨l, rfl⟩)))
      | emptyLeaf =>
        rw [hraw'] at hb'
        cases hb'
      | branch y =>
        rw [hraw'] at hb'
        exact Or.inr (Or.inr (Or.inl ⟨l, y, rfl, rfl, long hb' hb⟩))
      | leaf l' =>
        rw [hraw'] at hb' hshape'
        obtain ⟨p, v⟩ := l
        obtain ⟨p', v'⟩ := l'
        obtain rfl : p = p' := Eq.trans hshape (Eq.symm hshape')
        obtain rfl : v = v' := Option.some.inj (hb.trans hb'.symm)
        left
        apply same
        rw [hraw, hraw']

theorem agree_branch_leaf (hfiled : Filed (known db)) (hfiled' : Filed (known db'))
    (hpath : LeafBytes path) {rem : ℕ} (hrem : rem ≤ zkTrieDepth + 1) {h : SH256} {n n' : Node}
    {b : BranchNode} {l : LeafNode} (hn : (known db).get h = some n) (hraw : n.raw = .branch b)
    (hn' : (known db').get h = some n') (hraw' : n'.raw = .leaf l) :
    (∀ a a', getNodeFrom db path (rem + 1) h = .ok a → getNodeFrom db' path (rem + 1) h = .ok a' →
      Agree a a') ↔ ¬ Finds db path (rem + 1) h := by
  have hshape := (hfiled' _ (mem_of_get hn')).2
  rw [hraw'] at hshape
  have hleaf : getNodeFrom db' path (rem + 1) h = .ok (if rem = 0 then some n' else none) := by
    rw [getNodeFrom_succ, hn']
    simp only [hraw', show l.path = [LeafType.value] from hshape, hpath.drop_iff hrem]
    split_ifs <;> rfl
  rw [finds_iff hfiled hpath (by omega), hleaf]
  by_cases hzero : rem = 0
  · subst hzero
    obtain ⟨x, hx⟩ := hpath.get 0
    have hstop : getNodeFrom db path (0 + 1) h = .error (.error .reachedMaxLevel) := by
      rw [getNodeFrom_succ, hn]
      simp only [hraw, hx]
      rfl
    simp [hstop]
  · simp only [hzero, ↓reduceIte, Except.ok.injEq]
    constructor
    · rintro hagree ⟨m, hm⟩
      exact hagree (some m) none hm rfl
    · rintro hno a a' ha rfl
      cases a with
      | none => trivial
      | some m => exact hno ⟨m, ha⟩

theorem getNodeFrom_nextFree (hfiled : Filed (known db)) (hpath : LeafBytes path) (rem : ℕ)
    {h : SH256} {n : Node} {l : LeafNode} (hn : (known db).get h = some n) (hl : n.raw = .nextFree l) :
    getNodeFrom db path (rem + 1) h = .error .panic := by
  have hshape := (hfiled _ (mem_of_get hn)).2
  rw [hl] at hshape
  rw [getNodeFrom_succ, hn]
  simp only [hl, show l.path = [] from hshape, hpath.drop_ne, ↓reduceIte]

theorem getNodeFrom_agree_iff (hsep : Separating E) (hfiled : Filed (known db))
    (hfiled' : Filed (known db')) (hsub : encodings (known db) ⊆ E)
    (hsub' : encodings (known db') ⊆ E) (hpath : LeafBytes path) {rem : ℕ}
    (hrem : rem ≤ zkTrieDepth + 2) (h : SH256) :
    (∀ a a', getNodeFrom db path rem h = .ok a → getNodeFrom db' path rem h = .ok a' → Agree a a') ↔
      ¬ Clash db db' path rem h ∧ ¬ Clash db' db path rem h := by
  induction rem generalizing h with
  | zero =>
    simp [getNodeFrom, Clash]
  | succ rem ih =>
    cases hn : (known db).get h with
    | none => simp [getNodeFrom_succ, Clash, hn]
    | some n =>
      cases hn' : (known db').get h with
      | none => simp [getNodeFrom_succ, Clash, hn']
      | some n' =>
        have hclash : Clash db db' path (rem + 1) h ↔ match n.raw, n'.raw with
            | .leaf l, .branch _ => l.value.length = 64 ∧ Finds db' path (rem + 1) h
            | .branch b, .branch _ => ∃ x, path[zkTrieDepth + 1 - rem]? = some x ∧
                Clash db db' path rem (if x = 0 then b.left else b.right)
            | _, _ => False := by
          simp [Clash, hn, hn']
        have hclash' : Clash db' db path (rem + 1) h ↔ match n'.raw, n.raw with
            | .leaf l, .branch _ => l.value.length = 64 ∧ Finds db path (rem + 1) h
            | .branch b, .branch _ => ∃ x, path[zkTrieDepth + 1 - rem]? = some x ∧
                Clash db' db path rem (if x = 0 then b.left else b.right)
            | _, _ => False := by
          simp [Clash, hn, hn']
        rw [hclash, hclash']
        rcases found_cases hsep hfiled hfiled' hsub hsub' hn hn' with
          rfl | ⟨b, l, hb, hl, hlen⟩ | ⟨l, b, hl, hb, hlen⟩ | ⟨l, hl⟩ | ⟨l, hl⟩
        · have hshape := (hfiled _ (mem_of_get hn)).2
          obtain ⟨x, hx⟩ := hpath.get rem
          rw [getNodeFrom_succ, getNodeFrom_succ, hn, hn']
          cases hraw : n.raw with
          | branch b =>
            simp only [hraw, hx, Option.some.injEq, exists_eq_left']
            exact ih (by omega) _
          | emptyLeaf =>
            simp only [hraw, Except.ok.injEq, not_false_eq_true, and_self, iff_true]
            rintro a a' rfl rfl
            trivial
          | leaf l =>
            simp only [hraw, not_false_eq_true, and_self, iff_true]
            intro a a' ha ha'
            rw [ha] at ha'
            obtain rfl := Except.ok.inj ha'
            split_ifs at ha
            · rw [← Except.ok.inj ha]
              exact ⟨l, l, hraw, hraw, rfl⟩
            · rw [← Except.ok.inj ha]
              trivial
          | nextFree l =>
            rw [hraw] at hshape
            simp [hraw, show l.path = [] from hshape, hpath.drop_ne]
        · rw [hb, hl]
          simp only [not_false_eq_true, true_and, hlen]
          exact agree_branch_leaf hfiled hfiled' hpath (by omega) hn hb hn' hl
        · rw [hb, hl]
          simp only [not_false_eq_true, and_true, hlen, true_and]
          rw [← agree_branch_leaf hfiled' hfiled hpath (by omega) hn' hb hn hl]
          constructor
          · exact fun hagree a a' ha ha' => (hagree a' a ha' ha).symm
          · exact fun hagree a a' ha ha' => (hagree a' a ha' ha).symm
        · have hstop := getNodeFrom_nextFree hfiled hpath rem hn hl
          simp [hstop, hl]
        · have hstop := getNodeFrom_nextFree hfiled' hpath rem hn' hl
          simp [hstop, hl]

theorem Clash.leaf {rem : ℕ} {h : SH256} (hclash : Clash db db' path rem h) :
    ∃ e ∈ known db, ∃ l, e.2.raw = .leaf l ∧ l.value.length = 64 := by
  induction rem generalizing h with
  | zero => cases hclash
  | succ rem ih =>
    obtain ⟨n, n', hn, _, hkind⟩ := hclash
    cases hraw : n.raw with
    | leaf l =>
      rw [hraw] at hkind
      cases hraw' : n'.raw with
      | branch b =>
        rw [hraw'] at hkind
        exact ⟨_, mem_of_get hn, l, hraw, hkind.1⟩
      | leaf l' =>
        rw [hraw'] at hkind
        exact hkind.elim
      | emptyLeaf =>
        rw [hraw'] at hkind
        exact hkind.elim
      | nextFree l' =>
        rw [hraw'] at hkind
        exact hkind.elim
    | branch b =>
      rw [hraw] at hkind
      cases hraw' : n'.raw with
      | branch b' =>
        rw [hraw'] at hkind
        obtain ⟨x, _, hbelow⟩ := hkind
        exact ih hbelow
      | leaf l' =>
        rw [hraw'] at hkind
        exact hkind.elim
      | emptyLeaf =>
        rw [hraw'] at hkind
        exact hkind.elim
      | nextFree l' =>
        rw [hraw'] at hkind
        exact hkind.elim
    | emptyLeaf =>
      rw [hraw] at hkind
      exact hkind.elim
    | nextFree l =>
      rw [hraw] at hkind
      exact hkind.elim

end Lookup

section Stores

variable [TrieHash] [Profile] {E : Set Bytes} {traces traces' : List Trace}
  {calls calls' : List ProofCall} {s s' : MemStore}

omit [TrieHash] in
theorem leafBytes_of_getLeafPath {i : UInt64} {path : Bytes} (h : getLeafPath i = some path) :
    LeafBytes path := by
  rw [getLeafPath_some h, leafPath]
  constructor
  · simp
  · exact List.drop_left' (by simp)

/-- Two lookups of a leaf agree unless one store took for a leaf what is a branch in the other. -/
theorem getNode_agree_iff (hsep : Separating E) (hbuilt : Built traces calls s)
    (hbuilt' : Built traces' calls' s') (hsub : encodings (emptyTrieNode ++ s.nodes) ⊆ E)
    (hsub' : encodings (emptyTrieNode ++ s'.nodes) ⊆ E) (root : SH256) (i : UInt64) (path : Bytes)
    (hpath : getLeafPath i = some path) (pfx pfx' : UInt64) :
    ((∀ a a', SpareMerkleTrie.getNode path (⟨⟨root⟩, ⟨pfx, s⟩⟩ : Session PrefixDB) = .ok a →
        SpareMerkleTrie.getNode path (⟨⟨root⟩, ⟨pfx', s'⟩⟩ : Session PrefixDB) = .ok a' →
          Agree a a') ↔
      ¬ Clash (⟨pfx, s⟩ : PrefixDB) ⟨pfx', s'⟩ path (zkTrieDepth + 2) root ∧
        ¬ Clash (⟨pfx', s'⟩ : PrefixDB) ⟨pfx, s⟩ path (zkTrieDepth + 2) root) ∧
    ((∀ c ∈ calls, c.leafSibling.length ≠ 64) → (∀ c ∈ calls', c.leafSibling.length ≠ 64) →
      ∀ a a', SpareMerkleTrie.getNode path (⟨⟨root⟩, ⟨pfx, s⟩⟩ : Session PrefixDB) = .ok a →
        SpareMerkleTrie.getNode path (⟨⟨root⟩, ⟨pfx', s'⟩⟩ : Session PrefixDB) = .ok a' →
          Agree a a') := by
  have hfiled : Filed (known (⟨pfx, s⟩ : PrefixDB)) := hbuilt.filed
  have hfiled' : Filed (known (⟨pfx', s'⟩ : PrefixDB)) := hbuilt'.filed
  have hagree := getNodeFrom_agree_iff hsep hfiled hfiled' hsub hsub'
    (leafBytes_of_getLeafPath hpath) le_rfl root
  refine ⟨hagree, ?_⟩
  intro hcalls hcalls'
  refine hagree.mpr ⟨?_, ?_⟩
  · intro hclash
    obtain ⟨e, he, l, hl, hlen⟩ := hclash.leaf
    exact hbuilt.leaf_length hcalls he hl hlen
  · intro hclash
    obtain ⟨e, he, l, hl, hlen⟩ := hclash.leaf
    exact hbuilt'.leaf_length hcalls' he hl hlen

end Stores

section Sample

variable [TrieHash]

def sameBytes (m : NodeMap) : Bool :=
  m.all fun e => m.all fun e' =>
    !Nat.beq e.2.hash.toNat e'.2.hash.toNat || decide (e.2.raw.toBytes = e'.2.raw.toBytes)

theorem separating_of_sameBytes {m : NodeMap} (h : sameBytes m = true) : Separating (encodings m) := by
  simp only [sameBytes, List.all_eq_true, Bool.or_eq_true, Bool.not_eq_true', decide_eq_true_eq] at h
  rintro x ⟨e, he, hx⟩ y ⟨e', he', hy⟩ k hkx hky
  have heq : e.2.hash = e'.2.hash :=
    (Except.ok.inj ((e.2.sum_of_toBytes hx).symm.trans hkx)).trans
      (Except.ok.inj ((e'.2.sum_of_toBytes hy).symm.trans hky)).symm
  rcases h e he e' he' with hne | hbytes
  · rw [heq, Nat.beq_refl] at hne
    cases hne
  · rw [hx, hy] at hbytes
    exact Option.some.inj hbytes

variable [Profile]

def leafStore : MemStore := sampleStore LeafOpening.tail.toBytes

def topStore : MemStore := sampleStore (sampleTop LeafOpening.tail.toBytes)

def storedBytes : NodeMap := emptyTrieNode ++ (leafStore.nodes ++ topStore.nodes)

def leafStoreRoot : SH256 :=
  ((sampleProof LeafOpening.tail.toBytes).checked.toOption.map Prod.fst).getD 0

def lookup (s : MemStore) : Except (Fault Error) (Option Node) :=
  SpareMerkleTrie.getNode (leafPath (indexPath 1)) (⟨⟨leafStoreRoot⟩, ⟨0, s⟩⟩ : Session PrefixDB)

end Sample

theorem leafStore_built :
    letI := residueHash
    letI := debugProfile
    Built [forgedTrace] [sampleProof LeafOpening.tail.toBytes] leafStore ∧
      Built [forgedTrace] [sampleProof (sampleTop LeafOpening.tail.toBytes)] topStore := by
  let := residueHash
  let := debugProfile
  exact ⟨tailStore_built, sampleStore_built sampleStart_isOk (by decide +kernel)⟩

theorem storedBytes_separating :
    letI := residueHash
    letI := debugProfile
    Separating (encodings storedBytes) := by
  let := residueHash
  let := debugProfile
  exact separating_of_sameBytes (by decide +kernel)

theorem getNode_agree_iff_sample :
    letI := residueHash
    letI := debugProfile
    ((∀ a a', lookup leafStore = .ok a → lookup topStore = .ok a' → Agree a a') ↔
      ¬ Clash (⟨0, leafStore⟩ : PrefixDB) ⟨0, topStore⟩ (leafPath (indexPath 1)) (zkTrieDepth + 2)
          leafStoreRoot ∧
        ¬ Clash (⟨0, topStore⟩ : PrefixDB) ⟨0, leafStore⟩ (leafPath (indexPath 1)) (zkTrieDepth + 2)
          leafStoreRoot) ∧
    ((∀ c ∈ [sampleProof LeafOpening.tail.toBytes], c.leafSibling.length ≠ 64) →
      (∀ c ∈ [sampleProof (sampleTop LeafOpening.tail.toBytes)], c.leafSibling.length ≠ 64) →
      ∀ a a', lookup leafStore = .ok a → lookup topStore = .ok a' → Agree a a') := by
  let := residueHash
  let := debugProfile
  refine getNode_agree_iff storedBytes_separating leafStore_built.1 leafStore_built.2 ?_ ?_
    leafStoreRoot 1 (leafPath (indexPath 1)) (getLeafPath_of_lt (by decide)) 0 0
  · apply encodings_mono
    intro e he
    rcases List.mem_append.mp he with he | he
    · exact List.mem_append_left _ he
    · exact List.mem_append_right _ (List.mem_append_left _ he)
  · apply encodings_mono
    intro e he
    rcases List.mem_append.mp he with he | he
    · exact List.mem_append_left _ he
    · exact List.mem_append_right _ (List.mem_append_right _ he)

theorem getNode_steered :
    letI := residueHash
    letI := debugProfile
    getLeafPath 1 = some (leafPath (indexPath 1)) ∧
      Built [forgedTrace] [sampleProof LeafOpening.tail.toBytes] leafStore ∧
      Built [forgedTrace] [sampleProof (sampleTop LeafOpening.tail.toBytes)] topStore ∧
      Separating (encodings storedBytes) ∧
      (∃ n, lookup leafStore = .ok (some n)) ∧ lookup topStore = .ok none := by
  let := residueHash
  let := debugProfile
  refine ⟨getLeafPath_of_lt (by decide), leafStore_built.1, leafStore_built.2, storedBytes_separating,
    ?_, ?_⟩
  · have hfound : (lookup leafStore).toOption.map Option.isSome = some true := by decide +kernel
    cases hl : lookup leafStore with
    | error e =>
      rw [hl] at hfound
      cases hfound
    | ok a =>
      rw [hl] at hfound
      obtain ⟨n, rfl⟩ := Option.isSome_iff_exists.mp (Option.some.inj hfound)
      exact ⟨n, rfl⟩
  · have hnone : (lookup topStore).toOption.map Option.isSome = some false := by decide +kernel
    cases hl : lookup topStore with
    | error e =>
      rw [hl] at hnone
      cases hnone
    | ok a =>
      rw [hl] at hnone
      cases a with
      | none => rfl
      | some n => cases hnone

end LineaSgxProver.Zktrie
