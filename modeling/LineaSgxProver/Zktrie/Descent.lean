import LineaSgxProver.Zktrie.World

namespace LineaSgxProver.Zktrie

open Library
open SpareMerkleTrie (joinNode ofTree_join)

/-- The bytes that are left of a leaf's path: the turns, then the leaf type. -/
def walkPath (q : List Bool) : Bytes := q.map bitByte ++ [LeafType.value]

section Descent

variable [TrieHash]

/-- Where a walk ends: the turns it has not taken, the node, and the turns taken, last first, each with
the hash beside it. -/
structure Descent where
  rest : List Bool
  node : Node
  trail : List (Bool × SH256)

def find (m : NodeMap) (lvl : ℕ) (h : SH256) : Except (Fault Error) Node :=
  match m.get h with
  | some n => .ok n
  | none => .error (.error (.nodeNotFound lvl h))

/-- The walk that reads and writes share, to the first node that is no branch. -/
def descend (m : NodeMap) : List Bool → SH256 → Except (Fault Error) Descent
  | [], h => do
    let n ← find m (zkTrieDepth + 1) h
    .ok ⟨[], n, []⟩
  | b :: q, h => do
    let n ← find m (zkTrieDepth + 1 - (q.length + 1)) h
    match n.raw.branch? with
    | some branch => do
      let d ← descend m q (if b then branch.right else branch.left)
      .ok { d with trail := d.trail ++ [(b, if b then branch.left else branch.right)] }
    | none => .ok ⟨b :: q, n, []⟩

/-- What a read answers where its walk ends. -/
def found (rest : List Bool) (n : Node) : Except (Fault Error) (Option Node) :=
  match n.raw with
  | .branch _ => .error (.error .reachedMaxLevel)
  | .emptyLeaf => .ok none
  | .leaf node => if node.path = walkPath rest then .ok (some n) else .ok none
  | .nextFree node => if node.path = walkPath rest then .ok (some n) else .error .panic

/-- Whether a leaf can be put where a walk ends. -/
def admits (rest : List Bool) (n : Node) : Except (Fault Error) Unit :=
  match n.raw with
  | .branch _ => .error .panic
  | .emptyLeaf => .ok ()
  | .leaf node =>
    if prefixLen node.path (walkPath rest) = node.path.length then .ok () else .error (.error .pathNotAllow)
  | .nextFree node => if prefixLen node.path (walkPath rest) = node.path.length then .ok () else .error .panic

/-- The walks that come to an end. -/
inductive Descends (m : NodeMap) : List Bool → SH256 → Descent → Prop where
  | bottom {h : SH256} {n : Node} : m.get h = some n → Descends m [] h ⟨[], n, []⟩
  | stop {b : Bool} {q : List Bool} {h : SH256} {n : Node} :
      m.get h = some n → n.raw.branch? = none → Descends m (b :: q) h ⟨b :: q, n, []⟩
  | turn {b : Bool} {q : List Bool} {h : SH256} {n : Node} {branch : BranchNode} {d : Descent} :
      m.get h = some n → n.raw.branch? = some branch →
      Descends m q (if b then branch.right else branch.left) d →
      Descends m (b :: q) h ⟨d.rest, d.node, d.trail ++ [(b, if b then branch.left else branch.right)]⟩

/-- The walks that break off where the map has no node. -/
inductive Breaks (m : NodeMap) : List Bool → SH256 → ℕ → SH256 → Prop where
  | here {q : List Bool} {h : SH256} : m.get h = none → Breaks m q h (zkTrieDepth + 1 - q.length) h
  | turn {b : Bool} {q : List Bool} {h h' : SH256} {n : Node} {branch : BranchNode} {lvl : ℕ} :
      m.get h = some n → n.raw.branch? = some branch →
      Breaks m q (if b then branch.right else branch.left) lvl h' → Breaks m (b :: q) h lvl h'

/-- The walk ends at the node, with these turns left. -/
def Ends (m : NodeMap) (q : List Bool) (h : SH256) (rest : List Bool) (n : Node) : Prop :=
  ∃ trail, Descends m q h ⟨rest, n, trail⟩

theorem Ends.turn {m : NodeMap} {b : Bool} {q rest : List Bool} {h : SH256} {n k : Node} {branch : BranchNode}
    (hget : m.get h = some k) (hraw : k.raw.branch? = some branch)
    (hends : Ends m q (if b then branch.right else branch.left) rest n) : Ends m (b :: q) h rest n := by
  obtain ⟨trail, hd⟩ := hends
  exact ⟨_, .turn hget hraw hd⟩

theorem Descends.ends {m : NodeMap} {q : List Bool} {h : SH256} {d : Descent} (hd : Descends m q h d) :
    Ends m q h d.rest d.node := ⟨d.trail, hd⟩

section Ends

variable {m : NodeMap} {q : List Bool} {h : SH256}

theorem descend_eq_of_descends {d : Descent} (hd : Descends m q h d) : descend m q h = .ok d := by
  induction hd with
  | bottom hget => simp only [descend, find, hget, ok_bind]
  | stop hget hraw => simp only [descend, find, hget, ok_bind, hraw]
  | turn hget hraw _ ih => simp only [descend, find, hget, ok_bind, hraw, ih]

theorem descend_eq_of_breaks {lvl : ℕ} {h' : SH256} (hb : Breaks m q h lvl h') :
    descend m q h = .error (.error (.nodeNotFound lvl h')) := by
  induction hb with
  | @here q h hget =>
    cases q with
    | nil => simp only [descend, find, hget]; rfl
    | cons b q => simp only [descend, find, hget]; rfl
  | turn hget hraw _ ih => simp only [descend, find, hget, ok_bind, hraw, ih]; rfl

theorem descends_or_breaks (m : NodeMap) (q : List Bool) (h : SH256) :
    (∃ d, Descends m q h d) ∨ ∃ lvl h', Breaks m q h lvl h' := by
  induction q generalizing h with
  | nil =>
    cases hget : m.get h with
    | none => exact Or.inr ⟨_, _, .here hget⟩
    | some n => exact Or.inl ⟨_, .bottom hget⟩
  | cons b q ih =>
    cases hget : m.get h with
    | none => exact Or.inr ⟨_, _, .here hget⟩
    | some n =>
      cases hraw : n.raw.branch? with
      | none => exact Or.inl ⟨_, .stop hget hraw⟩
      | some branch =>
        rcases ih (if b then branch.right else branch.left) with ⟨d, hd⟩ | ⟨lvl, h', hb⟩
        · exact Or.inl ⟨_, .turn hget hraw hd⟩
        · exact Or.inr ⟨_, _, .turn hget hraw hb⟩

theorem descend_eq_ok {d : Descent} : descend m q h = .ok d ↔ Descends m q h d := by
  constructor
  · intro hd
    rcases descends_or_breaks m q h with ⟨d', hd'⟩ | ⟨lvl, h', hb⟩
    · rw [descend_eq_of_descends hd'] at hd
      rwa [← Except.ok.inj hd]
    · rw [descend_eq_of_breaks hb] at hd
      cases hd
  · exact descend_eq_of_descends

theorem Ends.unique {rest rest' : List Bool} {k k' : Node} (hk : Ends m q h rest k)
    (hk' : Ends m q h rest' k') : rest = rest' ∧ k = k' := by
  obtain ⟨trail, hd⟩ := hk
  obtain ⟨trail', hd'⟩ := hk'
  have heq := Except.ok.inj ((descend_eq_of_descends hd).symm.trans (descend_eq_of_descends hd'))
  exact ⟨congrArg Descent.rest heq, congrArg Descent.node heq⟩

theorem Breaks.get_eq_none {lvl : ℕ} {h' : SH256} (hb : Breaks m q h lvl h') : m.get h' = none := by
  induction hb with
  | here hget => exact hget
  | turn _ _ _ ih => exact ih

theorem Descends.rest_eq {d : Descent} (hd : Descends m q h d) : d.rest = q.drop d.trail.length := by
  induction hd with
  | bottom => rfl
  | stop => rfl
  | turn _ _ _ ih => rw [ih, List.length_append, List.length_singleton, List.drop_succ_cons]

theorem Descends.trail_le {d : Descent} (hd : Descends m q h d) : d.trail.length ≤ q.length := by
  induction hd with
  | bottom => exact Nat.zero_le _
  | stop => exact Nat.zero_le _
  | turn _ _ _ ih =>
    rw [List.length_append, List.length_singleton, List.length_cons]
    omega

/-- Walks that agree as far as one of them goes end together. -/
theorem Descends.through {d : Descent} (hd : Descends m q h d) {q' : List Bool} (hlen : q'.length = q.length)
    (htake : q'.take d.trail.length = q.take d.trail.length) :
    Ends m q' h (q'.drop d.trail.length) d.node := by
  induction hd generalizing q' with
  | bottom hget =>
    obtain rfl := List.length_eq_zero_iff.mp hlen
    exact ⟨[], .bottom hget⟩
  | stop hget hraw =>
    cases q' with
    | nil => cases hlen
    | cons b' q' => exact ⟨[], .stop hget hraw⟩
  | turn hget hraw _ ih =>
    cases q' with
    | nil => cases hlen
    | cons b' q' =>
      simp only [List.length_append, List.length_singleton, List.take_succ_cons, List.drop_succ_cons,
        List.cons.injEq] at htake ⊢
      obtain ⟨rfl, htake⟩ := htake
      exact Ends.turn hget hraw (ih (Nat.succ.inj hlen) htake)

theorem Descends.get_node {d : Descent} (hd : Descends m q h d) : ∃ h', m.get h' = some d.node := by
  induction hd with
  | bottom hget => exact ⟨_, hget⟩
  | stop hget _ => exact ⟨_, hget⟩
  | turn _ _ _ ih => exact ih

/-- Every lookup of the first map is one of the second. -/
def Keeps (m m' : NodeMap) : Prop := ∀ h n, m.get h = some n → m'.get h = some n

variable {m' : NodeMap}

theorem Descends.mono (hm : Keeps m m') {d : Descent} (hd : Descends m q h d) : Descends m' q h d := by
  induction hd with
  | bottom hget => exact .bottom (hm _ _ hget)
  | stop hget hraw => exact .stop (hm _ _ hget) hraw
  | turn hget hraw _ ih => exact .turn (hm _ _ hget) hraw ih

theorem Breaks.mono (hm : Keeps m m') {lvl : ℕ} {h' : SH256} (hb : Breaks m q h lvl h')
    (hnone : m'.get h' = none) : Breaks m' q h lvl h' := by
  induction hb with
  | here => exact .here hnone
  | turn hget hraw _ ih => exact .turn (hm _ _ hget) hraw (ih hnone)

end Ends

section Frame

variable {m m' : NodeMap} {q : List Bool} {h : SH256} {d : Descent} {n : Node}

/-- The lookups of a map in which a node has taken the place where a walk ended, and the branches above
it have been rebuilt. -/
structure Grafted (m m' : NodeMap) (d : Descent) (n : Node) : Prop where
  keeps : Keeps m m'
  raw : n.raw.branch? = none
  node : m'.get n.hash = some n
  steps : ∀ x ∈ MerkleTree.steps treeDigest d.trail n.hash, m'.get (treeDigest x) = some (Node.ofTree x)

abbrev Descent.top (d : Descent) (n : Node) : SH256 := MerkleTree.ascend treeDigest d.trail n.hash

theorem Grafted.below {b : Bool} {s : SH256} {rest : List Bool} {old : Node} {trail : List (Bool × SH256)}
    (hg : Grafted m m' ⟨rest, old, trail ++ [(b, s)]⟩ n) : Grafted m m' ⟨rest, old, trail⟩ n where
  keeps := hg.keeps
  raw := hg.raw
  node := hg.node
  steps x hx := hg.steps x (by
    rw [MerkleTree.steps_append]
    exact List.mem_append_left _ hx)

theorem branch?_join (b : Bool) (child sibling : SH256) :
    (Node.ofTree (MerkleTree.join b child sibling)).raw.branch? = some (joinNode b child sibling) := by
  rw [ofTree_join]
  rfl

omit [TrieHash] in
theorem joinNode_same (b : Bool) (child sibling : SH256) :
    (if b then (joinNode b child sibling).right else (joinNode b child sibling).left) = child := by
  cases b <;> rfl

omit [TrieHash] in
theorem joinNode_other {b b' : Bool} (h : b' ≠ b) (child sibling : SH256) :
    (if b' then (joinNode b child sibling).right else (joinNode b child sibling).left) = sibling := by
  cases b <;> cases b' <;> first | rfl | exact absurd rfl h

omit [TrieHash] in
theorem other_child {b b' : Bool} (h : b' ≠ b) (branch : BranchNode) :
    (if b then branch.left else branch.right) = if b' then branch.right else branch.left := by
  cases b <;> cases b' <;> first | rfl | exact absurd rfl h

theorem join_of_branch? {k : Node} {branch : BranchNode} (hraw : k.raw.branch? = some branch) (b : Bool) :
    Node.ofTree (MerkleTree.join b (if b then branch.right else branch.left)
      (if b then branch.left else branch.right)) = k := by
  have hk : k.raw = .branch branch := by
    cases hr : k.raw <;> rw [hr] at hraw <;> cases hraw
    rfl
  have heq : k = Node.branch branch.left branch.right := Node.ext_raw hk
  rw [heq]
  cases b <;> rfl

theorem Grafted.get_top {b : Bool} {s : SH256} {rest : List Bool} {old : Node} {trail : List (Bool × SH256)}
    (hg : Grafted m m' ⟨rest, old, trail ++ [(b, s)]⟩ n) :
    m'.get (MerkleTree.ascend treeDigest (trail ++ [(b, s)]) n.hash) =
      some (Node.ofTree (MerkleTree.join b (MerkleTree.ascend treeDigest trail n.hash) s)) := by
  rw [MerkleTree.ascend_append]
  apply hg.steps
  rw [MerkleTree.steps_append]
  exact List.mem_append_right _ (List.mem_singleton.mpr rfl)

/-- A walk that agrees with the first one as far as that went now comes to the new node. -/
theorem Descends.grafted_through (hd : Descends m q h d) (hg : Grafted m m' d n) {q' : List Bool}
    (hlen : q'.length = q.length) (htake : q'.take d.trail.length = q.take d.trail.length) :
    Ends m' q' (d.top n) (q'.drop d.trail.length) n := by
  induction hd generalizing q' with
  | bottom =>
    obtain rfl := List.length_eq_zero_iff.mp hlen
    exact ⟨[], .bottom hg.node⟩
  | stop =>
    cases q' with
    | nil => cases hlen
    | cons b' q' => exact ⟨[], .stop hg.node hg.raw⟩
  | @turn b q h old branch d hget hraw _ ih =>
    cases q' with
    | nil => cases hlen
    | cons b' q' =>
      simp only [List.length_append, List.length_singleton, List.take_succ_cons, List.drop_succ_cons,
        List.cons.injEq] at htake ⊢
      obtain ⟨rfl, htake⟩ := htake
      apply Ends.turn hg.get_top (branch?_join _ _ _)
      rw [joinNode_same]
      exact ih hg.below (Nat.succ.inj hlen) htake

/-- Any other walk goes on as it did. -/
theorem Descends.grafted_beside (hd : Descends m q h d) (hg : Grafted m m' d n) {q' rest : List Bool} {k : Node}
    (hlen : q'.length = q.length) (htake : q'.take d.trail.length ≠ q.take d.trail.length)
    (hends : Ends m q' h rest k) : Ends m' q' (d.top n) rest k := by
  obtain ⟨trail, hd'⟩ := hends
  induction hd generalizing q' trail with
  | bottom => exact absurd rfl htake
  | stop => exact absurd rfl htake
  | @turn b q h old branch d hget hraw _ ih =>
    cases hd' with
    | bottom => cases hlen
    | stop hget' hraw' =>
      rw [hget] at hget'
      rw [Option.some.inj hget', hraw'] at hraw
      cases hraw
    | @turn b' q' _ old' branch' d' hget' hraw' hd' =>
      obtain rfl : old = old' := Option.some.inj (hget.symm.trans hget')
      obtain rfl : branch = branch' := Option.some.inj (hraw.symm.trans hraw')
      apply Ends.turn hg.get_top (branch?_join _ _ _)
      by_cases hb : b' = b
      · subst hb
        simp only [List.length_append, List.length_singleton, List.take_succ_cons, ne_eq, List.cons.injEq,
          true_and] at htake
        rw [joinNode_same]
        exact ih hg.below (Nat.succ.inj hlen) htake _ hd'
      · rw [joinNode_other hb, other_child hb]
        exact (hd'.mono hg.keeps).ends

theorem Descends.grafted_breaks (hd : Descends m q h d) (hg : Grafted m m' d n) {q' : List Bool} {lvl : ℕ}
    {h' : SH256} (hlen : q'.length = q.length) (htake : q'.take d.trail.length ≠ q.take d.trail.length)
    (hb : Breaks m q' h lvl h') (hnone : m'.get h' = none) : Breaks m' q' (d.top n) lvl h' := by
  induction hd generalizing q' with
  | bottom => exact absurd rfl htake
  | stop => exact absurd rfl htake
  | @turn b q h old branch d hget hraw _ ih =>
    cases hb with
    | here hget' =>
      rw [hget] at hget'
      cases hget'
    | @turn b' q' _ _ old' branch' _ hget' hraw' hb' =>
      obtain rfl : old = old' := Option.some.inj (hget.symm.trans hget')
      obtain rfl : branch = branch' := Option.some.inj (hraw.symm.trans hraw')
      refine .turn hg.get_top (branch?_join _ _ _) ?_
      by_cases hb : b' = b
      · subst hb
        simp only [List.length_append, List.length_singleton, List.take_succ_cons, ne_eq, List.cons.injEq,
          true_and] at htake
        rw [joinNode_same]
        exact ih hg.below (Nat.succ.inj hlen) htake hb'
      · rw [joinNode_other hb, other_child hb]
        exact hb'.mono hg.keeps hnone

/-- The hash of the node where a walk ends climbs back to where the walk started. -/
theorem Descends.climbs (hm : ∀ e ∈ m, e.1 = e.2.hash) (hd : Descends m q h d) : d.top d.node = h := by
  induction hd with
  | bottom hget => exact (hm _ (mem_of_get hget)).symm
  | stop hget _ => exact (hm _ (mem_of_get hget)).symm
  | @turn b q h k branch d hget hraw _ ih =>
    have hback : MerkleTree.ascend treeDigest d.trail d.node.hash = if b then branch.right else branch.left := ih
    rw [Descent.top, MerkleTree.ascend_append, hback, treeDigest, join_of_branch? hraw]
    exact (hm _ (mem_of_get hget)).symm

/-- The branches above the node where a walk ends are on record. -/
theorem Descends.steps_known (hm : ∀ e ∈ m, e.1 = e.2.hash) (hd : Descends m q h d) :
    ∀ x ∈ MerkleTree.steps treeDigest d.trail d.node.hash, m.get (treeDigest x) = some (Node.ofTree x) := by
  induction hd with
  | bottom =>
    intro x hx
    cases hx
  | stop =>
    intro x hx
    cases hx
  | @turn b q h k branch d hget hraw hd ih =>
    intro x hx
    rw [MerkleTree.steps_append] at hx
    rcases List.mem_append.mp hx with hx | hx
    · exact ih x hx
    · have hback : MerkleTree.ascend treeDigest d.trail d.node.hash = if b then branch.right else branch.left :=
        hd.climbs hm
      obtain rfl := List.mem_singleton.mp hx
      rw [hback, treeDigest, join_of_branch? hraw, ← hm _ (mem_of_get hget)]
      exact hget

/-- A write leaves the root where it was only if it wrote the node that was there. -/
theorem Descends.node_eq_of_top (hd : Descends m q h d) (hg : Grafted m m' d n)
    (htop : d.top n = h) : n = d.node := by
  induction hd with
  | bottom hget =>
    have hnode := hg.node
    rw [show n.hash = _ from htop, hg.keeps _ _ hget] at hnode
    exact (Option.some.inj hnode).symm
  | stop hget _ =>
    have hnode := hg.node
    rw [show n.hash = _ from htop, hg.keeps _ _ hget] at hnode
    exact (Option.some.inj hnode).symm
  | @turn b q h k branch d hget hraw _ ih =>
    have hjoin := hg.get_top
    rw [show MerkleTree.ascend treeDigest _ n.hash = h from htop, hg.keeps _ _ hget] at hjoin
    rw [Option.some.inj hjoin, branch?_join] at hraw
    have hchild := joinNode_same b (d.top n) (if b then branch.left else branch.right)
    rw [Option.some.inj hraw] at hchild
    exact ih hg.below hchild.symm

end Frame

end Descent

section Reads

variable [TrieHash] {D : Type} [Database D] [NodeStore D]

namespace SpareMerkleTrie

theorem fetch_eq (db : D) (lvl : ℕ) (h : SH256) : fetch lvl h db = find (known db) lvl h := by
  unfold fetch find
  rw [NodeStore.getNode_eq]
  rfl

/-- A path whose bytes from here on are the turns of a walk. -/
structure Along (path : Bytes) (q : List Bool) : Prop where
  length_le : q.length ≤ zkTrieDepth + 1
  drop_eq : path.drop (zkTrieDepth + 1 - q.length) = walkPath q

omit [TrieHash] in
theorem along_leafPath {p : List Bool} (hp : p.length = zkTrieDepth) : Along (leafPath p) (true :: p) := by
  refine ⟨by simp [hp], ?_⟩
  rw [List.length_cons, hp, Nat.sub_self]
  rfl

omit [TrieHash] in
theorem Along.head {path : Bytes} {b : Bool} {q : List Bool} (h : Along path (b :: q)) :
    path[zkTrieDepth + 1 - (q.length + 1)]? = some (bitByte b) := by
  have hd := congrArg (·[0]?) h.drop_eq
  simpa only [List.getElem?_drop, List.length_cons, walkPath, List.map_cons, List.cons_append,
    List.getElem?_cons_zero, Nat.add_zero] using hd

omit [TrieHash] in
theorem Along.last {path : Bytes} (h : Along path []) : path[zkTrieDepth + 1]? = some LeafType.value := by
  have hd := congrArg (·[0]?) h.drop_eq
  simpa only [List.getElem?_drop, List.length_nil, walkPath, List.map_nil, List.nil_append,
    List.getElem?_cons_zero, Nat.add_zero, Nat.sub_zero] using hd

omit [TrieHash] in
theorem Along.tail {path : Bytes} {b : Bool} {q : List Bool} (h : Along path (b :: q)) : Along path q := by
  have hlen : q.length + 1 ≤ zkTrieDepth + 1 := h.length_le
  have hd := congrArg (List.drop 1) h.drop_eq
  rw [List.drop_drop] at hd
  refine ⟨by omega, ?_⟩
  have hlvl : zkTrieDepth + 1 - q.length = zkTrieDepth + 1 - (b :: q).length + 1 := by
    simp only [List.length_cons]
    omega
  rw [hlvl, hd]
  rfl

theorem getNodeFrom_eq (db : D) {path : Bytes} {q : List Bool} (hpath : Along path q) (h : SH256) :
    getNodeFrom db path (q.length + 1) h = descend (known db) q h >>= fun d => found d.rest d.node := by
  induction q generalizing h with
  | nil =>
    unfold getNodeFrom descend
    simp only [fetch_eq, List.length_nil, Nat.sub_zero, hpath.last, getNodeFrom]
    have hdrop := hpath.drop_eq
    cases find (known db) (zkTrieDepth + 1) h with
    | error e => rfl
    | ok n =>
      simp only [ok_bind, found]
      simp only [List.length_nil, Nat.sub_zero] at hdrop
      cases n.raw <;> simp only [hdrop]
  | cons b q ih =>
    have hdrop := hpath.drop_eq
    rw [List.length_cons] at hdrop
    unfold getNodeFrom descend
    simp only [fetch_eq, List.length_cons, hpath.head]
    cases find (known db) (zkTrieDepth + 1 - (q.length + 1)) h with
    | error e => rfl
    | ok n =>
      simp only [ok_bind]
      cases hraw : n.raw with
      | branch branch =>
        have hchild : (if bitByte b = 0 then branch.left else branch.right) =
            if b then branch.right else branch.left := by
          cases b <;> rfl
        simp only [NodeValue.branch?, hchild, ih hpath.tail]
        cases descend (known db) q (if b then branch.right else branch.left) <;> rfl
      | leaf leaf => simp only [NodeValue.branch?, ok_bind, found, hraw, hdrop]
      | emptyLeaf => simp only [NodeValue.branch?, ok_bind, found, hraw]
      | nextFree node => simp only [NodeValue.branch?, ok_bind, found, hraw, hdrop]

/-- The branches above a node, rebuilt from the bottom up. -/
def climb : List (Bool × SH256) → Node → Call D Node
  | [], n => pure n
  | (b, sibling) :: trail, n => do
    let n ← dbAdd (Node.ofTree (MerkleTree.join b n.hash sibling))
    climb trail n

def graft (bottom : ℕ → NodeValue → Call D Node) (d : Descent) : Call D Node :=
  match d.node.raw with
  | .branch _ => Action.lift (.error .panic)
  | v => do
    let n ← bottom (zkTrieDepth + 1 - d.rest.length) v
    climb d.trail n

omit [NodeStore D] in
theorem climb_append (trail : List (Bool × SH256)) (b : Bool) (sibling : SH256) (n : Node) :
    (climb (trail ++ [(b, sibling)]) n : Call D Node) =
      climb trail n >>= fun n => dbAdd (Node.ofTree (MerkleTree.join b n.hash sibling)) := by
  induction trail generalizing n with
  | nil => exact Action.bind_pure _
  | cons x trail ih => simp only [List.cons_append, climb, ih, Action.bind_assoc]

omit [NodeStore D] in
theorem graft_append (bottom : ℕ → NodeValue → Call D Node) (d : Descent) (b : Bool) (sibling : SH256) :
    graft bottom { d with trail := d.trail ++ [(b, sibling)] } =
      graft bottom d >>= fun n => dbAdd (Node.ofTree (MerkleTree.join b n.hash sibling)) := by
  unfold graft
  cases d.node.raw with
  | branch branch => rfl
  | leaf leaf => simp only [climb_append, Action.bind_assoc]
  | emptyLeaf => simp only [climb_append, Action.bind_assoc]
  | nextFree node => simp only [climb_append, Action.bind_assoc]

theorem rebuild_eq {path : Bytes} (bottom : ℕ → NodeValue → Call D Node) {q : List Bool} (hpath : Along path q)
    (h : SH256) : rebuild path bottom (q.length + 1) h =
      Action.read (fun db => descend (known db) q h) >>= graft bottom := by
  induction q generalizing h with
  | nil =>
    funext db
    unfold rebuild descend
    simp only [fetch_eq, List.length_nil, Nat.sub_zero, hpath.last, Action.bind_apply, Action.read]
    cases find (known db) (zkTrieDepth + 1) h with
    | error e => rfl
    | ok n =>
      simp only [ok_bind, graft]
      cases n.raw with
      | branch branch => rfl
      | leaf leaf => exact congrFun (Action.bind_pure _).symm db
      | emptyLeaf => exact congrFun (Action.bind_pure _).symm db
      | nextFree node => exact congrFun (Action.bind_pure _).symm db
  | cons b q ih =>
    funext db
    unfold rebuild descend
    simp only [fetch_eq, List.length_cons, hpath.head, Action.bind_apply, Action.read]
    cases find (known db) (zkTrieDepth + 1 - (q.length + 1)) h with
    | error e => rfl
    | ok n =>
      simp only [ok_bind]
      cases hraw : n.raw with
      | branch branch =>
        have hchild : branch.child (bitByte b) = some (if b then branch.right else branch.left) := by
          cases b <;> rfl
        have hreplace : ∀ h : SH256, Node.branch (branch.newReplace (bitByte b) h).left
            (branch.newReplace (bitByte b) h).right =
              Node.ofTree (MerkleTree.join b h (if b then branch.left else branch.right)) := by
          intro h
          cases b <;> rfl
        simp only [orPanic_some, Action.lift_ok_bind, NodeValue.branch?]
        rw [hchild, orPanic_some, Action.lift_ok_bind, ih hpath.tail, Action.bind_assoc, Action.bind_apply]
        simp only [hreplace, Action.read]
        cases descend (known db) q (if b then branch.right else branch.left) with
        | error e => rfl
        | ok d =>
          simp only [ok_bind, graft_append]
      | leaf leaf => simp only [NodeValue.branch?, graft, hraw]; exact congrFun (Action.bind_pure _).symm db
      | emptyLeaf => simp only [NodeValue.branch?, graft, hraw]; exact congrFun (Action.bind_pure _).symm db
      | nextFree node => simp only [NodeValue.branch?, graft, hraw]; exact congrFun (Action.bind_pure _).symm db

/-- What a climb leaves: its branches on record, over what was there. -/
theorem climb_returns (trail : List (Bool × SH256)) (n : Node) (db : D) :
    ∃ top db', (climb trail n).Returns db top db' ∧ top.hash = MerkleTree.ascend treeDigest trail n.hash ∧
      NodeStore.nodes db' = ((MerkleTree.steps treeDigest trail n.hash).map entry).reverse ++ NodeStore.nodes db := by
  induction trail generalizing n db with
  | nil => exact ⟨n, db, rfl, rfl, rfl⟩
  | cons x trail ih =>
    obtain ⟨b, sibling⟩ := x
    let joined : TreeNode := MerkleTree.join b n.hash sibling
    obtain ⟨db₁, hadd, hnodes₁⟩ := NodeStore.updateNode_eq db (treeDigest joined) (Node.ofTree joined)
    obtain ⟨top, db₂, hret, hhash, hnodes₂⟩ := ih (Node.ofTree joined) db₁
    refine ⟨top, db₂, Action.Returns.bind hadd hret, hhash, ?_⟩
    rw [hnodes₂, hnodes₁]
    simp [MerkleTree.steps, joined, entry, treeDigest]

end SpareMerkleTrie

end Reads

end LineaSgxProver.Zktrie
