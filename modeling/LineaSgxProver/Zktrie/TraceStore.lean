import LineaSgxProver.Zktrie.IndexMap

namespace LineaSgxProver.Zktrie

open Library
open MerkleTree (Leaves)

namespace BTreeMap

variable {κ ν : Type} [DecidableEq κ]

theorem get_insert (m : BTreeMap κ ν) (k k' : κ) (v : ν) :
    (m.insert k v).get k' = if k' = k then some v else m.get k' := by
  unfold get insert
  rw [List.lookup_cons]
  by_cases h : k' = k
  · simp [h]
  · rw [if_neg h, beq_false_of_ne h]

end BTreeMap

section Index

variable [TrieHash] [Profile]

namespace LevelMap

def lookup (m : LevelMap) (root : SH256) (key : UInt64 × SH256) : Option KeyRange :=
  (m.vals.get root).bind fun map => map.get key

omit [TrieHash] [Profile] in
theorem getD_get (m : LevelMap) (root : SH256) (key : UInt64 × SH256) :
    ((m.vals.get root).getD []).get key = m.lookup root key := by
  unfold lookup
  cases m.vals.get root <;> rfl

omit [TrieHash] [Profile] in
theorem lookup_insert (m : LevelMap) (root root' : SH256) (map : BTreeMap (UInt64 × SH256) KeyRange)
    (key : UInt64 × SH256) :
    (⟨m.vals.insert root map⟩ : LevelMap).lookup root' key =
      if root' = root then map.get key else m.lookup root' key := by
  unfold lookup
  rw [BTreeMap.get_insert]
  split_ifs <;> rfl

def Answering (root hkey : SH256) (t : Trace) : Prop :=
  t.oldTopHash = some root ∧ (trieHash t.key).toOption = some hkey

instance (root hkey : SH256) (t : Trace) : Decidable (Answering root hkey t) := by
  unfold Answering
  infer_instance

theorem addTrace_eq_ok {base next : LevelMap} {t : Trace} (h : base.addTrace t = .ok next) :
    ∃ root hkey, t.oldTopHash = some root ∧ trieHash t.key = .ok hkey ∧
      next = ⟨base.vals.insert root
        (((base.vals.get root).getD []).insert (UInt64.ofNat (2 ^ 64 - 1), hkey) t.keyRange)⟩ := by
  unfold addTrace at h
  cases hroot : t.oldTopHash with
  | none =>
    rw [hroot] at h
    cases h
  | some root =>
    rw [hroot] at h
    cases hkey : trieHash t.key with
    | error e =>
      rw [hkey] at h
      cases h
    | ok k =>
      rw [hkey] at h
      exact ⟨root, k, rfl, rfl, (Except.ok.inj h).symm⟩

theorem lookup_addTrace {base next : LevelMap} {t : Trace} (h : base.addTrace t = .ok next)
    (root hkey : SH256) (pfx : UInt64) :
    next.lookup root (pfx, hkey) =
      if pfx = UInt64.ofNat (2 ^ 64 - 1) ∧ Answering root hkey t then some t.keyRange
      else base.lookup root (pfx, hkey) := by
  obtain ⟨root', hkey', hroot, hsum, rfl⟩ := addTrace_eq_ok h
  have hanswer : Answering root hkey t ↔ root = root' ∧ hkey = hkey' := by
    unfold Answering
    rw [hroot, hsum]
    simp only [Except.toOption, Option.some.injEq, eq_comm]
  rw [lookup_insert, BTreeMap.get_insert, getD_get]
  simp only [hanswer, Prod.mk.injEq]
  split_ifs <;> simp_all

theorem lookup_foldlM {traces : List Trace} {base idx : LevelMap}
    (h : traces.foldlM addTrace base = .ok idx) (root hkey : SH256) (pfx : UInt64) :
    idx.lookup root (pfx, hkey) =
      if pfx = UInt64.ofNat (2 ^ 64 - 1) then
        ((traces.reverse.find? fun t => decide (Answering root hkey t)).map Trace.keyRange).or
          (base.lookup root (pfx, hkey))
      else base.lookup root (pfx, hkey) := by
  induction traces generalizing base with
  | nil =>
    obtain rfl : base = idx := Except.ok.inj h
    simp
  | cons t ts ih =>
    rw [List.foldlM_cons] at h
    cases hstep : base.addTrace t with
    | error e =>
      rw [hstep] at h
      cases h
    | ok next =>
      rw [hstep] at h
      rw [ih h, lookup_addTrace hstep, List.reverse_cons, List.find?_append]
      by_cases hp : pfx = UInt64.ofNat (2 ^ 64 - 1)
      · by_cases ht : Answering root hkey t
        · simp only [hp, ht, and_self, ↓reduceIte, decide_true, List.find?_singleton]
          cases ts.reverse.find? fun t => decide (Answering root hkey t) <;> rfl
        · simp only [hp, ht, and_false, ↓reduceIte, decide_false, List.find?_singleton,
            Bool.false_eq_true, Option.or_none]
      · simp only [hp, false_and, ↓reduceIte]

theorem lookup_fromTraces {traces : List Trace} {idx : LevelMap} (h : fromTraces traces = .ok idx)
    (root hkey : SH256) (pfx : UInt64) :
    idx.lookup root (pfx, hkey) =
      if pfx = UInt64.ofNat (2 ^ 64 - 1) then
        (traces.reverse.find? fun t => decide (Answering root hkey t)).map Trace.keyRange
      else none := by
  unfold fromTraces at h
  split_ifs at h
  rw [lookup_foldlM h]
  have hempty : (⟨[]⟩ : LevelMap).lookup root (pfx, hkey) = none := rfl
  rw [hempty, Option.or_none]

end LevelMap

omit [Profile] in
theorem getNearestKeys_eq (db : PrefixDB) (root hkey : SH256) :
    Database.getNearestKeys db root hkey = db.raw.index.lookup root (db.pfx, hkey) := by
  change db.raw.getNearestKeys db.pfx root hkey = _
  unfold MemStore.getNearestKeys LevelMap.lookup
  cases db.raw.index.vals.get root with
  | none => rfl
  | some map =>
    simp only [Option.bind_some]
    cases map.get (db.pfx, hkey) <;> rfl

end Index

section Nodes

variable [TrieHash]

theorem mem_addNodes {m : NodeMap} {ns : List Node} {e : SH256 × Node} :
    e ∈ addNodes m ns ↔ e ∈ m ∨ ∃ n ∈ ns, e = (n.hash, n) := by
  induction ns generalizing m with
  | nil => simp [addNodes]
  | cons n ns ih =>
    change e ∈ addNodes (m.insert n.hash n) ns ↔ _
    rw [ih]
    simp only [BTreeMap.insert, List.mem_cons, exists_eq_or_imp, or_assoc]
    rw [or_left_comm]

variable [Profile]

theorem addTraceNodes_eq_some {m m' : NodeMap} {t : Trace} (h : addTraceNodes m t = some m') :
    ∃ free subRoot ns, t.oldState = some (free, subRoot) ∧ t.nodes = some ns ∧
      ∀ e, e ∈ m' ↔ e ∈ m ∨ (∃ n ∈ ns, e = (n.hash, n)) ∨
        e = ((Node.nextFreeNode free).hash, Node.nextFreeNode free) ∨
        e = ((Node.rawBranch (Node.nextFreeNode free).hash subRoot).hash,
          Node.rawBranch (Node.nextFreeNode free).hash subRoot) := by
  unfold addTraceNodes at h
  obtain ⟨⟨free, subRoot⟩, hstate, h⟩ := Option.bind_eq_some_iff.mp h
  obtain ⟨ns, hns, h⟩ := Option.bind_eq_some_iff.mp h
  refine ⟨free, subRoot, ns, hstate, hns, ?_⟩
  intro e
  rw [← Option.some.inj h, mem_addNodes]
  simp only [BTreeMap.insert, List.mem_cons]
  constructor
  · rintro ((hfree | hroot | hm) | hnew)
    · exact Or.inr (Or.inr (Or.inl hfree))
    · exact Or.inr (Or.inr (Or.inr hroot))
    · exact Or.inl hm
    · exact Or.inr (Or.inl hnew)
  · rintro (hm | hnew | hfree | hroot)
    · exact Or.inl (Or.inr (Or.inr hm))
    · exact Or.inr hnew
    · exact Or.inl (Or.inl hfree)
    · exact Or.inl (Or.inr (Or.inl hroot))

theorem foldlM_addTraceNodes_mem {traces : List Trace} {m m' : NodeMap}
    (h : traces.foldlM addTraceNodes m = some m') (e : SH256 × Node) :
    e ∈ m' ↔ e ∈ m ∨ ∃ t ∈ traces, ∃ free subRoot ns, t.oldState = some (free, subRoot) ∧
      t.nodes = some ns ∧ ((∃ n ∈ ns, e = (n.hash, n)) ∨
        e = ((Node.nextFreeNode free).hash, Node.nextFreeNode free) ∨
        e = ((Node.rawBranch (Node.nextFreeNode free).hash subRoot).hash,
          Node.rawBranch (Node.nextFreeNode free).hash subRoot)) := by
  induction traces generalizing m with
  | nil =>
    obtain rfl : m = m' := Option.some.inj h
    simp
  | cons t ts ih =>
    obtain ⟨m₁, hstep, hrest⟩ := Option.bind_eq_some_iff.mp h
    obtain ⟨free, subRoot, ns, hstate, hns, hmem⟩ := addTraceNodes_eq_some hstep
    rw [ih hrest, hmem]
    simp only [List.mem_cons, exists_eq_or_imp, hstate, hns, Option.some.injEq, Prod.mk.injEq]
    constructor
    · rintro ((hm | hnew) | hlater)
      · exact Or.inl hm
      · exact Or.inr (Or.inl ⟨free, subRoot, ns, ⟨rfl, rfl⟩, rfl, hnew⟩)
      · exact Or.inr (Or.inr hlater)
    · rintro (hm | ⟨_, _, _, ⟨rfl, rfl⟩, rfl, hnew⟩ | hlater)
      · exact Or.inl (Or.inl hm)
      · exact Or.inl (Or.inr hnew)
      · exact Or.inr hlater

omit [Profile] in
theorem buildLoop_kinded {path : Bytes} {siblings : List SH256} {root : Node} {ns : List Node}
    (hroot : root.raw.Kinded) (h : TraceProof.buildLoop path siblings root = some ns) :
    ∀ n ∈ ns, n.raw.Kinded := by
  induction siblings generalizing root ns with
  | nil =>
    rw [← Option.some.inj h]
    intro n hn
    rw [List.mem_singleton.mp hn]
    exact hroot
  | cons sibling rest ih =>
    obtain ⟨b, _, h⟩ := Option.bind_eq_some_iff.mp h
    obtain ⟨above, habove, h⟩ := Option.bind_eq_some_iff.mp h
    rw [← Option.some.inj h]
    intro n hn
    rcases List.mem_cons.mp hn with rfl | hn
    · exact hroot
    · refine ih ?_ habove n hn
      split_ifs <;> trivial

theorem buildNodes_kinded {proof : TraceProof} {leaf : Option LeafOpening} {ns : List Node}
    (h : proof.buildNodes leaf = some ns) : ∀ n ∈ ns, n.raw.Kinded := by
  obtain ⟨path, hpath, h⟩ := Option.bind_eq_some_iff.mp h
  have hdrop : path.drop (path.length - 1) = [LeafType.value] := by
    rw [getLeafPath_some hpath, leafPath]
    exact List.drop_left' (by simp)
  cases leaf with
  | none =>
    have hempty : Node.emptyLeaf.raw.Kinded := trivial
    exact buildLoop_kinded hempty h
  | some leaf =>
    have hleaf : Node.leaf (path.drop (path.length - 1)) leaf.toBytes =
        some (Node.ofLeafValue leaf.leafValue) := by
      rw [hdrop]
      exact Node.leaf_eq leaf.leafValue
    dsimp only at h
    rw [hleaf] at h
    have hkinded : (Node.ofLeafValue leaf.leafValue).raw.Kinded := ⟨rfl, leaf.toBytes_length⟩
    exact buildLoop_kinded hkinded h

theorem Trace.nodes_kinded {t : Trace} {ns : List Node} (h : t.nodes = some ns) :
    ∀ n ∈ ns, n.raw.Kinded := by
  have three {a b c : TraceProof} {l d r : Option LeafOpening}
      (h : (do
        let left ← a.buildNodes l
        let mid ← b.buildNodes d
        let right ← c.buildNodes r
        some (left ++ mid ++ right)) = some ns) : ∀ n ∈ ns, n.raw.Kinded := by
    obtain ⟨left, hl, h⟩ := Option.bind_eq_some_iff.mp h
    obtain ⟨mid, hd, h⟩ := Option.bind_eq_some_iff.mp h
    obtain ⟨right, hr, h⟩ := Option.bind_eq_some_iff.mp h
    rw [← Option.some.inj h]
    intro n hn
    rcases List.mem_append.mp hn with hn | hn
    · rcases List.mem_append.mp hn with hn | hn
      · exact buildNodes_kinded hl n hn
      · exact buildNodes_kinded hd n hn
    · exact buildNodes_kinded hr n hn
  cases t with
  | read n =>
    rw [← Option.some.inj h]
    simp
  | readZero n =>
    rw [← Option.some.inj h]
    simp
  | insertion n => exact three h
  | update n =>
    change n.proof.buildNodes (some n.priorUpdatedLeaf) = some ns at h
    exact buildNodes_kinded h
  | deletion n => exact three h

theorem traceNodes_proper {traces : List Trace} {m : NodeMap} (h : traceNodes traces = some m) :
    Proper m := by
  intro e he
  rcases (foldlM_addTraceNodes_mem h e).mp he with he | ⟨t, _, free, subRoot, ns, _, hns, hnew⟩
  · cases he
  · rcases hnew with ⟨n, hn, rfl⟩ | rfl | rfl
    · exact ⟨rfl, Trace.nodes_kinded hns n hn⟩
    · exact ⟨rfl, rfl, SH256.bytes_length _⟩
    · exact ⟨rfl, trivial⟩

end Nodes

end LineaSgxProver.Zktrie
