import LineaSgxProver.Zktrie.TraceStore

namespace LineaSgxProver.Zktrie

open Library
open MerkleTree (Leaves)

section Proofs

variable [TrieHash] [Profile]

structure ProofCall where
  pfx : UInt64
  leafIndex : UInt64
  hkey : SH256
  value : Option Bytes
  siblings : List Bytes

namespace ProofCall

def run (c : ProofCall) : Call MemStore SH256 :=
  MemStore.addProof c.pfx c.leafIndex c.hkey c.value c.siblings

def runAll : List ProofCall → Call MemStore Unit
  | [] => pure ()
  | c :: cs => do
    let _ ← c.run
    runAll cs

def checked (c : ProofCall) : Except (Fault Error) (SH256 × List Node) :=
  MemStore.checkProof c.leafIndex c.siblings

def keyRange (c : ProofCall) : KeyRange := ⟨0, c.value.map fun v => ⟨c.leafIndex, v⟩, 0⟩

def Answering (pfx : UInt64) (root hkey : SH256) (c : ProofCall) : Prop :=
  (c.pfx, c.hkey) = (pfx, hkey) ∧ c.checked.toOption.map Prod.fst = some root

instance (pfx : UInt64) (root hkey : SH256) (c : ProofCall) : Decidable (c.Answering pfx root hkey) := by
  unfold Answering
  infer_instance

theorem run_returns {c : ProofCall} {s s' : MemStore} {root : SH256}
    (h : c.run.Returns s root s') :
    ∃ out, c.checked = .ok (root, out) ∧ s'.nodes = addNodes s.nodes out ∧
      (s.index.lookup root (c.pfx, c.hkey) = none → c.value.isSome = true) ∧
      ∀ root' key, s'.index.lookup root' key =
        if root' = root ∧ key = (c.pfx, c.hkey) then (s.index.lookup root' key).or (some c.keyRange)
        else s.index.lookup root' key := by
  obtain ⟨⟨root₁, out⟩, s₁, hcheck, h⟩ := Action.bind_returns_iff.mp h
  obtain ⟨hchecked, rfl⟩ := Prod.mk.inj hcheck
  obtain ⟨_, s₂, hupdate, h⟩ := Action.bind_returns_iff.mp h
  obtain ⟨_, rfl⟩ := Prod.mk.inj hupdate
  obtain ⟨rootMap, s₃, hread, h⟩ := Action.bind_returns_iff.mp h
  obtain ⟨hmap, rfl⟩ := Prod.mk.inj hread
  obtain rfl := Except.ok.inj hmap
  dsimp only at h
  rw [LevelMap.getD_get] at h
  cases hold : s.index.lookup root₁ (c.pfx, c.hkey) with
  | some r =>
    rw [hold] at h
    obtain ⟨_, s₄, hindex, hroot⟩ := Action.bind_returns_iff.mp h
    obtain ⟨_, rfl⟩ := Prod.mk.inj hindex
    obtain ⟨heq, rfl⟩ := Prod.mk.inj hroot
    obtain rfl := Except.ok.inj heq
    refine ⟨out, hchecked, rfl, fun hnone => ?_, ?_⟩
    · rw [hold] at hnone
      cases hnone
    · intro root' key
      rw [LevelMap.lookup_insert, LevelMap.getD_get]
      by_cases hr : root' = root₁
      · subst hr
        rw [if_pos rfl]
        split_ifs with hc
        · rw [hc.2, hold]
          rfl
        · rfl
      · rw [if_neg hr, if_neg fun hc => hr hc.1]
  | none =>
    rw [hold] at h
    obtain ⟨_, s₄, hfirst, h⟩ := Action.bind_returns_iff.mp h
    obtain ⟨_, rfl⟩ := Prod.mk.inj hfirst
    obtain ⟨v, s₅, hvalue, h⟩ := Action.bind_returns_iff.mp h
    obtain ⟨hv, rfl⟩ := Prod.mk.inj hvalue
    obtain ⟨_, s₆, hindex, hroot⟩ := Action.bind_returns_iff.mp h
    obtain ⟨_, rfl⟩ := Prod.mk.inj hindex
    obtain ⟨heq, rfl⟩ := Prod.mk.inj hroot
    obtain rfl := Except.ok.inj heq
    cases hcv : c.value with
    | none =>
      rw [hcv] at hv
      cases hv
    | some w =>
      rw [hcv] at hv
      obtain rfl : w = v := Except.ok.inj hv
      refine ⟨out, hchecked, rfl, fun _ => rfl, ?_⟩
      intro root' key
      have hrange : c.keyRange = ⟨0, some ⟨c.leafIndex, w⟩, 0⟩ := by
        rw [keyRange, hcv]
        rfl
      rw [hrange]
      dsimp only
      rw [LevelMap.lookup_insert, BTreeMap.get_insert, LevelMap.getD_get]
      by_cases hr : root' = root₁
      · subst hr
        rw [if_pos rfl]
        by_cases hk : key = (c.pfx, c.hkey)
        · rw [if_pos hk, if_pos ⟨rfl, hk⟩, hk, hold]
          rfl
        · rw [if_neg hk, if_neg fun hc => hk hc.2]
      · rw [if_neg hr, if_neg fun hc => hr hc.1, LevelMap.lookup_insert, if_neg hr]

theorem runAll_returns {c : ProofCall} {cs : List ProofCall} {s s' : MemStore}
    (h : (runAll (c :: cs)).Returns s () s') :
    ∃ root s₁, c.run.Returns s root s₁ ∧ (runAll cs).Returns s₁ () s' :=
  Action.bind_returns_iff.mp h

theorem runAll_lookup {cs : List ProofCall} {s s' : MemStore} (h : (runAll cs).Returns s () s')
    (pfx : UInt64) (root hkey : SH256) :
    s'.index.lookup root (pfx, hkey) = (s.index.lookup root (pfx, hkey)).or
      ((cs.find? fun c => decide (c.Answering pfx root hkey)).map keyRange) := by
  induction cs generalizing s with
  | nil =>
    obtain ⟨_, rfl⟩ := Prod.mk.inj h
    simp
  | cons c cs ih =>
    obtain ⟨root₁, s₁, hrun, hrest⟩ := runAll_returns h
    obtain ⟨out, hchecked, _, _, hlookup⟩ := run_returns hrun
    have hanswer : c.Answering pfx root hkey ↔ root = root₁ ∧ (pfx, hkey) = (c.pfx, c.hkey) := by
      unfold Answering
      rw [hchecked]
      simp only [Except.toOption, Option.map_some, Option.some.injEq, eq_comm, and_comm]
    rw [ih hrest, hlookup, List.find?_cons]
    by_cases ha : c.Answering pfx root hkey
    · rw [if_pos (hanswer.mp ha), decide_eq_true ha]
      cases s.index.lookup root (pfx, hkey) <;> rfl
    · rw [if_neg fun hc => ha (hanswer.mpr hc), decide_eq_false ha]

theorem runAll_value {cs : List ProofCall} {s s' : MemStore} (h : (runAll cs).Returns s () s')
    {pfx : UInt64} {root hkey : SH256} (hnone : s.index.lookup root (pfx, hkey) = none)
    {c : ProofCall} (hc : (cs.find? fun c => decide (c.Answering pfx root hkey)) = some c) :
    c.value.isSome = true := by
  induction cs generalizing s with
  | nil => cases hc
  | cons d cs ih =>
    obtain ⟨root₁, s₁, hrun, hrest⟩ := runAll_returns h
    obtain ⟨out, hchecked, _, hvalue, hlookup⟩ := run_returns hrun
    have hanswer : d.Answering pfx root hkey ↔ root = root₁ ∧ (pfx, hkey) = (d.pfx, d.hkey) := by
      unfold Answering
      rw [hchecked]
      simp only [Except.toOption, Option.map_some, Option.some.injEq, eq_comm, and_comm]
    rw [List.find?_cons] at hc
    by_cases ha : d.Answering pfx root hkey
    · rw [decide_eq_true ha] at hc
      obtain rfl := Option.some.inj hc
      obtain ⟨rfl, hkey⟩ := hanswer.mp ha
      exact hvalue (hkey ▸ hnone)
    · rw [decide_eq_false ha] at hc
      refine ih hrest ?_ hc
      rw [hlookup, if_neg fun h => ha (hanswer.mpr h), hnone]

theorem runAll_checked {cs : List ProofCall} {s s' : MemStore} (h : (runAll cs).Returns s () s')
    {c : ProofCall} (hc : c ∈ cs) : ∃ root out, c.checked = .ok (root, out) := by
  induction cs generalizing s with
  | nil => cases hc
  | cons d cs ih =>
    obtain ⟨root, s₁, hrun, hrest⟩ := runAll_returns h
    rcases List.mem_cons.mp hc with rfl | hc
    · obtain ⟨out, hchecked, _⟩ := run_returns hrun
      exact ⟨root, out, hchecked⟩
    · exact ih hrest hc

theorem runAll_nodes {cs : List ProofCall} {s s' : MemStore} (h : (runAll cs).Returns s () s')
    (e : SH256 × Node) :
    e ∈ s'.nodes ↔ e ∈ s.nodes ∨
      ∃ c ∈ cs, ∃ root out, c.checked = .ok (root, out) ∧ ∃ n ∈ out, e = (n.hash, n) := by
  induction cs generalizing s with
  | nil =>
    obtain ⟨_, rfl⟩ := Prod.mk.inj h
    simp
  | cons c cs ih =>
    obtain ⟨root₁, s₁, hrun, hrest⟩ := runAll_returns h
    obtain ⟨out, hchecked, hnodes, _⟩ := run_returns hrun
    rw [ih hrest, hnodes, mem_addNodes]
    simp only [List.mem_cons, exists_eq_or_imp, hchecked, Except.ok.injEq, Prod.mk.injEq]
    constructor
    · rintro ((hs | hnew) | hlater)
      · exact Or.inl hs
      · exact Or.inr (Or.inl ⟨root₁, out, ⟨rfl, rfl⟩, hnew⟩)
      · exact Or.inr (Or.inr hlater)
    · rintro (hs | ⟨_, _, ⟨rfl, rfl⟩, hnew⟩ | hlater)
      · exact Or.inl (Or.inl hs)
      · exact Or.inl (Or.inr hnew)
      · exact Or.inr hlater

end ProofCall

/-- A store that was built from traces and accepted proofs, whoever supplied them. -/
def Built (traces : List Trace) (calls : List ProofCall) (s : MemStore) : Prop :=
  ∃ s₀, MemStore.fromTraces traces = .ok s₀ ∧ (ProofCall.runAll calls).Returns s₀ () s

inductive Record where
  | trace (t : Trace)
  | proof (c : ProofCall)

namespace Record

def keyRange : Record → KeyRange
  | trace t => t.keyRange
  | proof c => c.keyRange

/-- The last trace that answers, else the first proof. -/
def supplied (pfx : UInt64) (traces : List Trace) (calls : List ProofCall) (root hkey : SH256) :
    Option Record :=
  (if pfx = UInt64.ofNat (2 ^ 64 - 1) then
    (traces.reverse.find? fun t => decide (LevelMap.Answering root hkey t)).map trace
  else none).or ((calls.find? fun c => decide (c.Answering pfx root hkey)).map proof)

end Record

namespace Built

variable {traces : List Trace} {calls : List ProofCall} {s : MemStore}

theorem start (h : Built traces calls s) : ∃ nodes index, traceNodes traces = some nodes ∧
    LevelMap.fromTraces traces = .ok index ∧
    (ProofCall.runAll calls).Returns ⟨nodes, index, []⟩ () s := by
  obtain ⟨s₀, hfrom, hrun⟩ := h
  unfold MemStore.fromTraces at hfrom
  cases hnodes : traceNodes traces with
  | none =>
    rw [hnodes] at hfrom
    cases hfrom
  | some nodes =>
    rw [hnodes] at hfrom
    cases hindex : LevelMap.fromTraces traces with
    | error e =>
      rw [hindex] at hfrom
      cases hfrom
    | ok index =>
      rw [hindex] at hfrom
      obtain rfl := Except.ok.inj hfrom
      exact ⟨nodes, index, rfl, rfl, hrun⟩

theorem lookup (h : Built traces calls s) (pfx : UInt64) (root hkey : SH256) :
    s.index.lookup root (pfx, hkey) =
      (Record.supplied pfx traces calls root hkey).map Record.keyRange := by
  obtain ⟨nodes, index, _, hindex, hrun⟩ := h.start
  rw [ProofCall.runAll_lookup hrun, LevelMap.lookup_fromTraces hindex, Record.supplied]
  split_ifs
  · cases traces.reverse.find? fun t => decide (LevelMap.Answering root hkey t)
    · cases calls.find? fun c => decide (c.Answering pfx root hkey) <;> rfl
    · rfl
  · cases calls.find? fun c => decide (c.Answering pfx root hkey) <;> rfl

theorem value (h : Built traces calls s) {pfx : UInt64} {root hkey : SH256} {c : ProofCall}
    (hc : Record.supplied pfx traces calls root hkey = some (.proof c)) : c.value.isSome = true := by
  obtain ⟨nodes, index, _, hindex, hrun⟩ := h.start
  rcases Option.or_eq_some_iff.mp hc with hc | ⟨hnone, hc⟩
  · split_ifs at hc
    obtain ⟨t, _, heq⟩ := Option.map_eq_some_iff.mp hc
    cases heq
  · obtain ⟨d, hd, heq⟩ := Option.map_eq_some_iff.mp hc
    cases heq
    refine ProofCall.runAll_value hrun ?_ hd
    rw [LevelMap.lookup_fromTraces hindex]
    split_ifs at hnone ⊢
    · rw [Option.map_eq_none_iff] at hnone ⊢
      exact hnone
    · rfl

end Built

section Climb

omit [Profile] in
theorem Node.raw_of_new {v : NodeValue} {n : Node} (h : Node.new v = some n) : n.raw = v := by
  unfold Node.new at h
  split at h
  · rw [← Option.some.inj h]
  · cases h

omit [Profile] in
theorem proofLoop_ascend {triePath : Bytes} (q rest : List Bool) (hpath : triePath = leafPath (q ++ rest))
    {sibs : List Bytes} (hlen : sibs.length = q.length) {h h' : SH256} {out out' : List Node}
    (hrun : MemStore.proofLoop triePath sibs h out = .ok (h', out')) :
    ∃ hs : List SH256, hs.length = q.length ∧
      h' = MerkleTree.ascend treeDigest (List.zip q.reverse hs) h ∧
      ∃ new, out' = out ++ new ∧
        ∀ n ∈ MerkleTree.steps treeDigest (List.zip q.reverse hs) h, Node.ofTree n ∈ new := by
  induction sibs generalizing q rest h out with
  | nil =>
    obtain rfl := List.length_eq_zero_iff.mp hlen.symm
    obtain ⟨rfl, rfl⟩ := Prod.mk.inj (Except.ok.inj hrun)
    exact ⟨[], rfl, rfl, [], by simp, by simp [MerkleTree.steps]⟩
  | cons s sibs ih =>
    obtain ⟨q, b, rfl, hlen'⟩ := MerkleTree.exists_concat hlen.symm
    rw [List.append_assoc] at hpath
    have hbit : triePath[sibs.length + 1]? = some (bitByte b) := by
      rw [hpath, ← hlen']
      exact leafPath_bit q rest b
    unfold MemStore.proofLoop at hrun
    obtain ⟨value, _, hrun⟩ := bind_eq_ok.mp hrun
    obtain ⟨sibling, _, hrun⟩ := bind_eq_ok.mp hrun
    rw [hbit] at hrun
    obtain ⟨_, ⟨⟩, hrun⟩ := bind_eq_ok.mp hrun
    have hstep : Node.rawBranchAuto (bitByte b) h sibling.hash =
        Node.ofTree (MerkleTree.join b h sibling.hash) := by
      cases b <;> rfl
    rw [hstep] at hrun
    obtain ⟨hs, hhs, hroot, new, hnew, hmem⟩ := ih q (b :: rest) hpath hlen'.symm hrun
    refine ⟨sibling.hash :: hs, by simp [hhs], ?_, [sibling, Node.ofTree (MerkleTree.join b h sibling.hash)] ++ new,
      ?_, ?_⟩
    · rw [List.reverse_append]
      exact hroot
    · rw [hnew, List.append_assoc]
    · rw [List.reverse_append]
      intro n hn
      rcases List.mem_cons.mp hn with rfl | hn
      · simp
      · exact List.mem_append_right _ (hmem n hn)

/-- What an accepted proof shows: the leaf's hash climbs to the sub root of a known top node. -/
theorem checkProof_ok {i : UInt64} {siblings : List Bytes} {root : SH256} {out : List Node}
    (h : MemStore.checkProof i siblings = .ok (root, out)) :
    ∃ leaf : Node, leaf.raw = .leaf ⟨[LeafType.value], siblings.getLastD []⟩ ∧
      ∃ free sub, root = (Node.branch free sub).hash ∧ Node.branch free sub ∈ out ∧
        ∃ hs : List SH256, hs.length = zkTrieDepth ∧
          sub = MerkleTree.ascend treeDigest (List.zip (indexPath i).reverse hs) leaf.hash ∧
          ∀ n ∈ MerkleTree.steps treeDigest (List.zip (indexPath i).reverse hs) leaf.hash,
            Node.ofTree n ∈ out := by
  unfold MemStore.checkProof at h
  obtain ⟨path, hpath, h⟩ := bind_eq_ok.mp h
  have hpath := getLeafPath_some (orPanic_eq_ok.mp hpath)
  have hlen : path.length = zkTrieDepth + 2 := by
    rw [hpath, leafPath]
    simp
  have hdrop : path.drop (path.length - 1) = [LeafType.value] := by
    rw [hpath, leafPath]
    exact List.drop_left' (by simp)
  split_ifs at h with hsib
  · cases h
  dsimp only at h
  have hsib : siblings.length = zkTrieDepth + 2 := by
    rw [← hlen]
    exact not_not.mp hsib
  cases hvalue : NodeValue.parseBranch (siblings.headD []) with
  | none =>
    rw [hvalue] at h
    cases h
  | some rootValue =>
    rw [hvalue] at h
    obtain ⟨rootNode, hroot, h⟩ := bind_eq_ok.mp h
    obtain ⟨leaf, hleaf, h⟩ := bind_eq_ok.mp h
    obtain ⟨⟨leafHash, new⟩, hloop, h⟩ := bind_eq_ok.mp h
    obtain ⟨branch, hbranch, h⟩ := bind_eq_ok.mp h
    split_ifs at h with heq
    · cases h
    obtain ⟨rfl, rfl⟩ := Prod.mk.inj (Except.ok.inj h)
    have hraw := Node.raw_of_new (orPanic_eq_ok.mp hleaf)
    have hclimb := proofLoop_ascend (indexPath i) [] (by rw [hpath]; simp)
      (by simp [hsib]) hloop
    obtain ⟨hs, hhs, hsub, new', rfl, hmem⟩ := hclimb
    have hrootNode : rootNode = Node.branch branch.left branch.right := by
      apply Node.ext_raw
      cases hr : rootNode.raw <;> rw [hr] at hbranch <;> cases hbranch
      rfl
    rw [hdrop] at hraw
    refine ⟨leaf, hraw, branch.left, branch.right, by rw [hrootNode], ?_, hs, hhs.trans (indexPath_length i), ?_, ?_⟩
    · simp [hrootNode]
    · rw [← not_not.mp heq]
      exact hsub
    · intro n hn
      exact List.mem_append_left _ (hmem n hn)

end Climb

end Proofs

end LineaSgxProver.Zktrie
