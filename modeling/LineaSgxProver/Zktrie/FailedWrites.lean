import LineaSgxProver.Zktrie.IndexLog

namespace LineaSgxProver.Zktrie

open Library

variable [TrieHash]

def Errs {σ α : Type} (x : Call σ α) (s : σ) : Prop := ∃ e t, x.Stops s (.error e) t

section Clean

variable {D : Type} [Database D] {α : Type}

/-- When the call returns an error the trie is at `root`, and no index call was issued. -/
def FailsAt (root : SpareMerkleTrie) (x : Call (Session (Logged D)) α) (s : Session D) : Prop :=
  ∀ e t, x.Stops s.logged (.error e) t → t.trie = root ∧ t.db.log = []

abbrev FailsClean (x : Call (Session (Logged D)) α) (s : Session D) : Prop := FailsAt s.trie x s

variable {root : SpareMerkleTrie} {s : Session D}

omit [Database D] in
theorem failsAt_pure (a : α) : FailsAt root (pure a) s := fun _ _ h => nomatch h

variable {β : Type} {x : Call (Session (Logged D)) α} {y : Call (Session D) α}
  {f : α → Call (Session (Logged D)) β}

omit [Database D] in
theorem failsAt_bind (hxy : Unlogs x y)
    (hkept : Moves (fun l l' : Logged D => l'.log = l.log) x) :
    FailsAt root (x >>= f) s ↔
      FailsAt root x s ∧ ∀ a t, y.Returns s a t → FailsAt root (f a) t := by
  have hafter {a : α} {t : Session (Logged D)} (hret : x.Returns s.logged a t) : t.plain.logged = t := by
    apply Session.logged_plain
    have hlog : (x s.logged).2.db.log = [] := hkept s.logged
    rwa [hret] at hlog
  constructor
  · intro h
    constructor
    · intro e t ht
      exact h e t ht.head
    · intro a t hret e u hu
      obtain ⟨t', hret', rfl⟩ := hxy.exists_returns (s := s.logged) hret
      rw [hafter hret'] at hu
      exact h e u (hret'.stops hu)
  · rintro ⟨hx, hf⟩ e u hu
    rcases Action.bind_stops_iff.mp hu with hstop | ⟨a, t, hret, hstop⟩
    · exact hx e u hstop
    · rw [← hafter hret] at hstop
      exact hf a t.plain (hxy.returns hret) e u hstop

omit [Database D] in
theorem failsAt_lift_bind {r : Except (Fault Error) α} :
    FailsAt root (Action.lift r >>= f) s ↔
      (∀ e, r = .error (.error e) → s.trie = root) ∧ ∀ a, r = .ok a → FailsAt root (f a) s := by
  cases r with
  | ok a => simp [FailsAt, Action.Stops, Action.bind_apply, Action.lift]
  | error e => simp [FailsAt, Action.Stops, Action.bind_apply, Action.lift, Session.logged]

omit [Database D] in
theorem failsAt_read_bind {g : Session (Logged D) → Except (Fault Error) α} :
    FailsAt root (Action.read g >>= f) s ↔
      (∀ e, g s.logged = .error (.error e) → s.trie = root) ∧
        ∀ a, g s.logged = .ok a → FailsAt root (f a) s :=
  failsAt_lift_bind (r := g s.logged)

omit [Database D] in
theorem failsAt_noted {g : Logged D → Logged D} {c : IndexCall}
    (hg : (g s.logged.db).log = [c]) {x : Call (Session (Logged D)) α} {y : Call (Session D) α}
    (hxy : Unlogs x y) (hgrow : Moves (fun l l' : Logged D => ∃ calls, l'.log = l.log ++ calls) x) :
    FailsAt root (onDb (Action.update g) >>= fun _ => x) s ↔
      ¬ Errs y ⟨s.trie, (g s.logged.db).db⟩ := by
  have hstep : (onDb (Action.update g) : Call (Session (Logged D)) Unit).Returns s.logged ()
      ⟨s.trie, g s.logged.db⟩ := rfl
  constructor
  · rintro h ⟨e, t, ht⟩
    obtain ⟨t', ht', rfl⟩ := hxy.exists_stops
      (s := (⟨s.trie, g s.logged.db⟩ : Session (Logged D))) ht
    obtain ⟨calls, hlog⟩ : ∃ calls, t'.db.log = (g s.logged.db).log ++ calls := by
      have h := hgrow ⟨s.trie, g s.logged.db⟩
      rwa [ht'] at h
    rw [hg] at hlog
    exact nomatch hlog.symm.trans (h e t' (hstep.stops ht')).2
  · intro h e t ht
    rcases Action.bind_stops_iff.mp ht with hstop | ⟨a, u, hret, hstop⟩
    · cases hstop
    · obtain ⟨_, rfl⟩ := Prod.mk.inj (hstep.symm.trans hret)
      exact absurd ⟨e, t.plain, hxy.stops hstop⟩ h

end Clean

section Stages

variable [Profile] {D : Type} [Database D] (parse : Bytes → Option LeafOpening)

namespace ZkTrie

def insertRest (range : KeyRange) (right new : Bytes) (free : UInt64) (hkey hval : SH256) :
    Call (Session D) Unit := do
  SpareMerkleTrie.put new (LeafOpening.new range.leftIndex range.rightIndex hkey hval).toBytes
  rewriteLeaf parse right (·.newPrevLeaf free)
  let _ ← incrementNextFreeLeafNodeIndex
  let _ ← Action.read subRootHash
  pure ()

def updateRest (path : Bytes) (hval : SH256) : Call (Session D) Unit := do
  rewriteLeaf parse path (·.newHval hval)
  let _ ← Action.read subRootHash
  pure ()

def removeRest (range : KeyRange) (right old : Bytes) : Call (Session D) Unit := do
  SpareMerkleTrie.remove old
  rewriteLeaf parse right (·.newPrevLeaf range.leftIndex)

end ZkTrie

/-- Once the left leaf is rewritten the value is not refused, unless that rewrite was void, and once
the index call is issued nothing else is. -/
def InsertSafe (hkey : SH256) (range : KeyRange) (value : Bytes) (s : Session D) : Prop :=
  ∀ left, range.leftPath = some left → ∀ right, range.rightPath = some right →
    ∀ free, ZkTrie.nextFreeNode s = .ok free →
      ∀ s₁, (ZkTrie.rewriteLeaf parse left (·.newNextLeaf free)).Returns s () s₁ →
        ∀ new, getLeafPath free = some new →
          (∀ e, trieHash value = .error (.error e) → s₁.trie = s.trie) ∧
            ∀ hval, trieHash value = .ok hval →
              ¬ Errs (ZkTrie.insertRest parse range right new free hkey hval)
                { s₁ with db := Database.updateIndex hkey ⟨free, value⟩ s₁.db }

def UpdateSafe (hkey : SH256) (current : FlattenedLeaf) (value : Bytes) (s : Session D) : Prop :=
  ∀ path, current.leafPath = some path → ∀ hval, trieHash value = .ok hval →
    ¬ Errs (ZkTrie.updateRest parse path hval)
      { s with db := Database.updateIndex hkey ⟨current.leafIndex, value⟩ s.db }

/-- No error comes after the first write of a put. -/
def PutSafe (key value : Bytes) (s : Session D) : Prop :=
  ∀ hkey, trieHash key = .ok hkey → ∀ range, ZkTrie.nearestKeys hkey s = .ok range →
    ∀ sub, ZkTrie.subRootHash s = .ok sub →
      match range.center with
      | none => InsertSafe parse hkey range value s
      | some current => UpdateSafe parse hkey current value s

def DeleteSafe (hkey : SH256) (range : KeyRange) (current : FlattenedLeaf) (s : Session D) : Prop :=
  ∀ left, range.leftPath = some left → ∀ right, range.rightPath = some right →
    ∀ s₁, (ZkTrie.rewriteLeaf parse left (·.newNextLeaf range.rightIndex)).Returns s () s₁ →
      ∀ old, getLeafPath current.leafIndex = some old →
        (∀ e, ZkTrie.parseNode parse old s₁ = .error (.error e) → s₁.trie = s.trie) ∧
          ∀ l, ZkTrie.parseNode parse old s₁ = .ok l →
            ¬ Errs (ZkTrie.removeRest parse range right old)
              { s₁ with db := Database.removeIndex hkey s₁.db }

/-- No error comes after the first write of a remove. -/
def RemoveSafe (key : Bytes) (s : Session D) : Prop :=
  ∀ hkey, trieHash key = .ok hkey → ∀ range, ZkTrie.nearestKeys hkey s = .ok range →
    ∀ current, range.center = some current → DeleteSafe parse hkey range current s

end Stages

section Failures

variable {D : Type} [Database D] {parse : Bytes → Option LeafOpening} {s : Session D}

theorem put_failsClean (path value : Bytes) : FailsClean (SpareMerkleTrie.put path value) s := by
  unfold SpareMerkleTrie.put
  rw [FailsClean, failsAt_read_bind]
  refine ⟨fun _ _ => rfl, ?_⟩
  intro current _ e t ht
  rcases Action.bind_stops_iff.mp ht with hstop | ⟨root, u, _, hstop⟩
  · obtain ⟨_, rfl⟩ := Prod.mk.inj hstop
    refine ⟨rfl, ?_⟩
    rw [SpareMerkleTrie.addLeaf_eq]
    exact SpareMerkleTrie.rebuild_keeps (R := fun l l' : Logged D => l'.log = l.log) path
      (SpareMerkleTrie.addBottom_keeps path value) _ _ _
  · cases hstop

theorem rewriteLeaf_failsClean (path : Bytes) (change : LeafOpening → LeafOpening) :
    FailsClean (ZkTrie.rewriteLeaf parse path change) s := by
  unfold ZkTrie.rewriteLeaf
  rw [FailsClean, failsAt_read_bind]
  exact ⟨fun _ _ => rfl, fun _ _ => put_failsClean path _⟩

variable [Profile]

section Rest

variable {R : D → D → Prop} [Steady R]

theorem insertRest_moves (range : KeyRange) (right new : Bytes) (free : UInt64) (hkey hval : SH256) :
    Moves R (ZkTrie.insertRest parse range right new free hkey hval : Call (Session D) Unit) := by
  refine (SpareMerkleTrie.put_moves _ _).bind fun _ => ?_
  refine (ZkTrie.rewriteLeaf_moves _ _).bind fun _ => ?_
  exact ZkTrie.incrementNextFreeLeafNodeIndex_moves.bind fun _ =>
    (Moves.read _).bind fun _ => Moves.pure ()

omit [Profile] in
theorem updateRest_moves (path : Bytes) (hval : SH256) :
    Moves R (ZkTrie.updateRest parse path hval : Call (Session D) Unit) :=
  (ZkTrie.rewriteLeaf_moves _ _).bind fun _ => (Moves.read _).bind fun _ => Moves.pure ()

omit [Profile] in
theorem removeRest_moves (range : KeyRange) (right old : Bytes) :
    Moves R (ZkTrie.removeRest parse range right old : Call (Session D) Unit) :=
  (SpareMerkleTrie.remove_moves _).bind fun _ => ZkTrie.rewriteLeaf_moves _ _

theorem insertRest_unlogs (range : KeyRange) (right new : Bytes) (free : UInt64) (hkey hval : SH256) :
    Unlogs (ZkTrie.insertRest parse range right new free hkey hval : Call (Session (Logged D)) Unit)
      (ZkTrie.insertRest parse range right new free hkey hval) := by
  refine (SpareMerkleTrie.put_unlogs _ _).bind fun _ => ?_
  refine (ZkTrie.rewriteLeaf_unlogs _ _).bind fun _ => ?_
  exact ZkTrie.incrementNextFreeLeafNodeIndex_unlogs.bind fun _ =>
    (Action.Projects.read fun _ => rfl).bind fun _ => Action.Projects.pure ()

omit [Profile] in
theorem updateRest_unlogs (path : Bytes) (hval : SH256) :
    Unlogs (ZkTrie.updateRest parse path hval : Call (Session (Logged D)) Unit)
      (ZkTrie.updateRest parse path hval) :=
  (ZkTrie.rewriteLeaf_unlogs _ _).bind fun _ =>
    (Action.Projects.read fun _ => rfl).bind fun _ => Action.Projects.pure ()

omit [Profile] in
theorem removeRest_unlogs (range : KeyRange) (right old : Bytes) :
    Unlogs (ZkTrie.removeRest parse range right old : Call (Session (Logged D)) Unit)
      (ZkTrie.removeRest parse range right old) :=
  (SpareMerkleTrie.remove_unlogs _).bind fun _ => ZkTrie.rewriteLeaf_unlogs _ _

end Rest

omit [TrieHash] [Profile] in
theorem orPanic_ne_error {α ε : Type} {x : Option α} {e : ε} :
    (orPanic x : Except (Fault ε) α) ≠ .error (.error e) := by
  cases x <;> simp [orPanic]

omit [Profile] in
theorem rewriteLeaf_bind_failsClean {left : Bytes} {change : LeafOpening → LeafOpening}
    {f : Unit → Call (Session (Logged D)) Unit} :
    FailsAt s.trie (ZkTrie.rewriteLeaf parse left change >>= f) s ↔
      ∀ s₁, (ZkTrie.rewriteLeaf parse left change).Returns s () s₁ → FailsAt s.trie (f ()) s₁ := by
  rw [failsAt_bind (ZkTrie.rewriteLeaf_unlogs _ _) (ZkTrie.rewriteLeaf_moves _ _)]
  constructor
  · intro h s₁
    exact h.2 () s₁
  · intro h
    exact ⟨rewriteLeaf_failsClean _ _, fun _ => h⟩

theorem insertLeaf_failsClean_iff (hkey : SH256) (range : KeyRange) (value : Bytes) :
    FailsClean (do
      ZkTrie.insertLeaf parse hkey range value
      let _ ← Action.read ZkTrie.subRootHash
      pure ()) s ↔ InsertSafe parse hkey range value s := by
  have hindex (right new : Bytes) (free : UInt64) (hval : SH256) (s₁ : Session D) :
      FailsAt s.trie (do
        ZkTrie.updateIndex hkey ⟨free, value⟩
        ZkTrie.insertRest parse range right new free hkey hval) s₁ ↔
      ¬ Errs (ZkTrie.insertRest parse range right new free hkey hval)
        { s₁ with db := Database.updateIndex hkey ⟨free, value⟩ s₁.db } :=
    failsAt_noted rfl (insertRest_unlogs _ _ _ _ _ _) (insertRest_moves _ _ _ _ _ _)
  unfold ZkTrie.insertLeaf InsertSafe
  unfold ZkTrie.insertRest at hindex ⊢
  simp only [Action.bind_assoc, Action.pure_bind, failsAt_lift_bind, failsAt_read_bind,
    rewriteLeaf_bind_failsClean, orPanic_ne_error, orPanic_eq_ok, false_implies, implies_true, true_and,
    hindex]
  rfl

theorem updateLeaf_failsClean_iff (hkey : SH256) (current : FlattenedLeaf) (value : Bytes) :
    FailsClean (do
      ZkTrie.updateLeaf parse hkey current value
      let _ ← Action.read ZkTrie.subRootHash
      pure ()) s ↔ UpdateSafe parse hkey current value s := by
  have hindex (path : Bytes) (hval : SH256) :
      FailsAt s.trie (do
        ZkTrie.updateIndex hkey ⟨current.leafIndex, value⟩
        ZkTrie.updateRest parse path hval) s ↔
      ¬ Errs (ZkTrie.updateRest parse path hval)
        { s with db := Database.updateIndex hkey ⟨current.leafIndex, value⟩ s.db } :=
    failsAt_noted rfl (updateRest_unlogs _ _) (updateRest_moves _ _)
  unfold ZkTrie.updateLeaf UpdateSafe
  unfold ZkTrie.updateRest at hindex ⊢
  simp only [Action.bind_assoc, failsAt_lift_bind, orPanic_ne_error, orPanic_eq_ok, implies_true,
    true_and, hindex]

theorem put_failsClean_iff (key value : Bytes) :
    FailsClean (ZkTrie.put parse key value) s ↔ PutSafe parse key value s := by
  unfold ZkTrie.put PutSafe
  simp only [failsAt_lift_bind, failsAt_read_bind, implies_true, true_and]
  refine forall₂_congr fun hkey hhash => forall₂_congr fun range hrange => forall₂_congr fun sub hsub => ?_
  cases range.center with
  | none => exact insertLeaf_failsClean_iff hkey range value
  | some current => exact updateLeaf_failsClean_iff hkey current value

theorem remove_failsClean_iff (key : Bytes) :
    FailsClean (ZkTrie.remove parse key) s ↔ RemoveSafe parse key s := by
  have hindex (hkey : SH256) (range : KeyRange) (right old : Bytes) (s₁ : Session D) :
      FailsAt s.trie (do
        ZkTrie.removeIndex hkey
        ZkTrie.removeRest parse range right old) s₁ ↔
      ¬ Errs (ZkTrie.removeRest parse range right old)
        { s₁ with db := Database.removeIndex hkey s₁.db } :=
    failsAt_noted rfl (removeRest_unlogs _ _ _) (removeRest_moves _ _ _)
  have hparse (path : Bytes) (s₁ : Session D) :
      ZkTrie.parseNode parse path s₁.logged = ZkTrie.parseNode parse path s₁ :=
    (ZkTrie.parseNode_unlogs path s₁.logged).symm
  unfold ZkTrie.remove RemoveSafe DeleteSafe
  unfold ZkTrie.removeRest at hindex ⊢
  simp only [failsAt_lift_bind, failsAt_read_bind, implies_true, true_and]
  refine forall₂_congr fun hkey hhash => forall₂_congr fun range hrange => ?_
  cases range.center with
  | none => simp [failsAt_pure]
  | some current =>
    simp only [failsAt_lift_bind, failsAt_read_bind, rewriteLeaf_bind_failsClean, orPanic_ne_error,
      orPanic_eq_ok, false_implies, implies_true, true_and, hindex, hparse, Option.some.injEq, forall_eq']

end Failures

end LineaSgxProver.Zktrie
