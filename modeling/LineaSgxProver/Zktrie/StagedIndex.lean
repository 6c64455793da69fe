import LineaSgxProver.Zktrie.CleanFailures
import LineaSgxProver.Zktrie.ReferenceTree
import LineaSgxProver.Zktrie.TraceStore

namespace LineaSgxProver.Zktrie

open Library

inductive MapOp where
  | put (key value : Bytes)
  | remove (key : Bytes)
  | read (key : Bytes)

namespace MapOp

def key : MapOp → Bytes
  | put k _ => k
  | remove k => k
  | read k => k

def apply (live : Bytes → Option Bytes) : MapOp → Bytes → Option Bytes
  | put k v => Function.update live k (some v)
  | remove k => Function.update live k none
  | read _ => live

def answer (live : Bytes → Option Bytes) : MapOp → Option Bytes
  | read k => live k
  | _ => none

def answers (live : Bytes → Option Bytes) : List MapOp → List (Option Bytes)
  | [] => []
  | op :: ops => op.answer live :: answers (op.apply live) ops

section Run

variable [TrieHash] [Profile] {D : Type} [Database D] (parse : Bytes → Option LeafOpening)

def run : MapOp → Call (Session D) (Option Bytes)
  | put k v => do
    ZkTrie.put parse k v
    pure none
  | remove k => do
    ZkTrie.remove parse k
    pure none
  | read k => Action.read (ZkTrie.read k)

def runAll : List MapOp → Call (Session D) (List (Option Bytes))
  | [] => pure []
  | op :: ops => do
    let a ← op.run parse
    let as ← runAll ops
    pure (a :: as)

end Run

end MapOp

section Index

variable [TrieHash]

/-- The index that queries are answered from has not changed. -/
def SameIndex (db db' : PrefixDB) : Prop := db'.pfx = db.pfx ∧ db'.raw.index = db.raw.index

instance : Steady SameIndex where
  refl _ := ⟨rfl, rfl⟩
  trans h h' := ⟨h'.1.trans h.1, h'.2.trans h.2⟩
  node _ _ _ := ⟨rfl, rfl⟩
  index _ _ _ := ⟨rfl, rfl⟩
  unindex _ _ := ⟨rfl, rfl⟩

theorem SameIndex.getNearestKeys {db db' : PrefixDB} (h : SameIndex db db') (root hkey : SH256) :
    Database.getNearestKeys db' root hkey = Database.getNearestKeys db root hkey := by
  rw [getNearestKeys_eq, getNearestKeys_eq, h.1, h.2]

end Index

namespace MapOp

variable [TrieHash] [Profile] {parse : Bytes → Option LeafOpening}

theorem run_moves {D : Type} [Database D] {R : D → D → Prop} [Steady R] (op : MapOp) :
    Moves R (op.run parse : Call (Session D) (Option Bytes)) := by
  cases op with
  | put k v => exact (ZkTrie.put_moves k v).bind fun _ => Moves.pure none
  | remove k => exact (ZkTrie.remove_moves k).bind fun _ => Moves.pure none
  | read k => exact Moves.read _

theorem runAll_moves {D : Type} [Database D] {R : D → D → Prop} [Steady R] (ops : List MapOp) :
    Moves R (runAll parse ops : Call (Session D) (List (Option Bytes))) := by
  induction ops with
  | nil => exact Moves.pure []
  | cons op ops ih => exact (run_moves op).bind fun a => ih.bind fun as => Moves.pure (a :: as)

theorem runAll_cons {D : Type} [Database D] {op : MapOp} {ops : List MapOp} {s t : Session D} {a : Option Bytes}
    (h : (op.run parse).Returns s a t) (as : List (Option Bytes)) :
    (runAll parse (op :: ops) s).1 = .ok as ↔ ∃ as', as = a :: as' ∧ (runAll parse ops t).1 = .ok as' := by
  have hrun : runAll parse (op :: ops) s = (runAll parse ops >>= fun as => pure (a :: as)) t := h.bind_eq
  rw [hrun, Action.bind_apply]
  rcases runAll parse ops t with ⟨e | as', u⟩
  · constructor
    · intro h
      cases h
    · rintro ⟨_, _, ⟨⟩⟩
  · constructor
    · intro h
      cases h
      exact ⟨as', rfl, rfl⟩
    · rintro ⟨_, rfl, h⟩
      cases h
      rfl

section Reference

variable (parse) (index : SH256 → SH256 → Option KeyRange)

def act (t : ReferenceTree) : MapOp → Option (Option Bytes × ReferenceTree)
  | put k v => (t.put parse index k v).map (none, ·)
  | remove k => (t.remove parse index k).map (none, ·)
  | read k => (t.read index k).map (·, t)

/-- Each operation finds its index entry at the root the trie then has, the leaves that the entry names
are in the trie, and the entry that a read finds has the value of the key. -/
def Ready : (Bytes → Option Bytes) → ReferenceTree → List MapOp → Prop
  | _, _, [] => True
  | live, t, op :: ops => ∃ t', op.act parse index t = some (op.answer live, t') ∧ Ready (op.apply live) t' ops

end Reference

section Runs

variable {E : Set Bytes} {s : Session PrefixDB} {index : SH256 → SH256 → Option KeyRange} {older : NodeMap}

theorem run_yields (hE : CollisionFree E)
    (hindex : ∀ root hkey, Database.getNearestKeys s.db root hkey = index root hkey)
    {t : ReferenceTree} (h : Represents E s t.free t.leaves) (op : MapOp) :
    Yields E s (op.run parse) (op.act parse index t) fun b a s' =>
      a = b.1 ∧ Represents E s' b.2.free b.2.leaves := by
  cases op with
  | put k v =>
    have htrie : Yields E s (ZkTrie.put parse k v) (t.put parse index k v) _ :=
      ReferenceTree.put_yields hindex hE h k v
    have hput := htrie.bind (g := fun t' => some (none, t')) (f := fun _ => pure (none : Option Bytes))
      (Q := fun b a s' => a = b.1 ∧ Represents E s' b.2.free b.2.leaves)
      fun t' _ s' h' => Yields.pure _ ⟨rfl, h'⟩
    cases hact : t.put parse index k v <;> rw [hact] at hput <;> simp only [act, hact] <;> exact hput
  | remove k =>
    have htrie : Yields E s (ZkTrie.remove parse k) (t.remove parse index k) _ :=
      ReferenceTree.remove_yields hindex hE h k
    have hremove := htrie.bind (g := fun t' => some (none, t')) (f := fun _ => pure (none : Option Bytes))
      (Q := fun b a s' => a = b.1 ∧ Represents E s' b.2.free b.2.leaves)
      fun t' _ s' h' => Yields.pure _ ⟨rfl, h'⟩
    cases hact : t.remove parse index k <;> rw [hact] at hremove <;> simp only [act, hact] <;> exact hremove
  | read k =>
    have hread := (ReferenceTree.read_yields hindex h k).last (b := fun a => (a, t))
      (Q := fun b a s' => a = b.1 ∧ Represents E s' b.2.free b.2.leaves)
      fun a a' s' ⟨ha, hs⟩ => ⟨ha, hs ▸ h⟩
    cases hact : t.read index k <;> rw [hact] at hread <;> simp only [act, hact] <;> exact hread

theorem run_outlasts (op : MapOp) : Outlasts older (op.run parse) := by
  cases op with
  | put k v => exact (ZkTrie.put_outlasts k v).bind fun _ => Outlasts.pure none
  | remove k => exact (ZkTrie.remove_outlasts k).bind fun _ => Outlasts.pure none
  | read k => exact Outlasts.read fun _ => Or.inl rfl

/-- Whatever older nodes the store has, the run answers as a map exactly when it is ready to. -/
theorem runAll_iff (hE : CollisionFree E) (ops : List MapOp) (live : Bytes → Option Bytes) {t : ReferenceTree}
    (h : Represents E s t.free t.leaves)
    (hindex : ∀ root hkey, Database.getNearestKeys s.db root hkey = index root hkey)
    (hlog : encodings (known (runAll parse ops (s.beneath older)).2.db) ⊆ E) :
    (runAll parse ops (s.beneath older)).1 = .ok (answers live ops) ↔ Ready parse index live t ops := by
  induction ops generalizing live t s with
  | nil => exact iff_of_true rfl trivial
  | cons op ops ih =>
    have hgrow : Extends (op.run parse (s.beneath older)).2.db (runAll parse (op :: ops) (s.beneath older)).2.db :=
      Moves.bind_after _ (fun a => (runAll_moves ops).bind fun as => Moves.pure (a :: as)) _
    have hsub := ((run_outlasts op).encodings_subset s).trans ((Extends.encodings_subset hgrow).trans hlog)
    have hyields : Yields E s (op.run parse) (op.act parse index t) _ := run_yields hE hindex h op
    replace hyields := hyields hsub
    cases hact : op.act parse index t with
    | none =>
      rw [hact] at hyields
      obtain ⟨e, u, hstop, hmissing⟩ := hyields
      have hrun : (runAll parse (op :: ops)).Stops (s.beneath older) e (u.beneath older) :=
        ((run_outlasts op).stops hstop hmissing).head
      apply iff_of_false
      · rw [hrun]
        rintro ⟨⟩
      · rintro ⟨t', ht', _⟩
        rw [hact] at ht'
        cases ht'
    | some b =>
      rw [hact] at hyields
      obtain ⟨a, u, hret, rfl, hu⟩ := hyields
      have hthere : (op.run parse).Returns (s.beneath older) b.1 (u.beneath older) := (run_outlasts op).returns hret
      have hsame : SameIndex s.db u.db := by
        have hmoves : SameIndex s.db (op.run parse s).2.db := run_moves op s
        rwa [hret] at hmoves
      have hrest : encodings (known (runAll parse ops (u.beneath older)).2.db) ⊆ E := by
        have hend : runAll parse (op :: ops) (s.beneath older) =
            (runAll parse ops >>= fun as => pure (b.1 :: as)) (u.beneath older) := hthere.bind_eq
        rw [hend] at hlog
        exact (Extends.encodings_subset (Moves.bind_after _ (fun as => Moves.pure (b.1 :: as)) _)).trans hlog
      have htail := ih (op.apply live) hu
        (fun root hkey => (hsame.getNearestKeys root hkey).trans (hindex root hkey)) hrest
      rw [runAll_cons hthere]
      constructor
      · rintro ⟨as, heq, has⟩
        obtain ⟨hans, rfl⟩ := List.cons.inj heq
        exact ⟨b.2, by rw [hact, hans], htail.mp has⟩
      · rintro ⟨t', ht', hready⟩
        obtain rfl := Option.some.inj (hact.symm.trans ht')
        exact ⟨_, rfl, htail.mpr hready⟩

end Runs

/-- `ZkTrie::empty` makes the same trie whatever nodes the store has already. -/
theorem empty_beneath {E : Set Bytes} (hE : CollisionFree E) (store : MemStore) (pfx : UInt64) {s : Session PrefixDB}
    (hempty : ZkTrie.empty (⟨pfx, store⟩ : PrefixDB) = (.ok (), s)) (hlog : encodings (known s.db) ⊆ E) :
    ∃ u : Session PrefixDB, s = u.beneath store.nodes ∧
      Represents E u ReferenceTree.fresh.free ReferenceTree.fresh.leaves := by
  let bare : PrefixDB := ⟨pfx, { store with nodes := [] }⟩
  have hrun : ZkTrie.setHeadAndTail (Session.beneath store.nodes ⟨⟨initWorldState.1.hash⟩, bare⟩) = (.ok (), s) :=
    hempty
  have houtlasts : Outlasts store.nodes ZkTrie.setHeadAndTail := ZkTrie.setHeadAndTail_outlasts
  have hsub := houtlasts.encodings_subset ⟨⟨initWorldState.1.hash⟩, bare⟩
  rw [hrun] at hsub
  have hgrow : Extends (⟨pfx, store⟩ : PrefixDB) s.db := by
    have hmoves : Extends (⟨pfx, store⟩ : PrefixDB) _ :=
      ZkTrie.setHeadAndTail_moves (Session.beneath store.nodes ⟨⟨initWorldState.1.hash⟩, bare⟩)
    rwa [hrun] at hmoves
  have hbefore : encodings (known bare) ⊆ encodings (known s.db) :=
    (encodings_mono fun e he => List.mem_append_left _ ((List.mem_append.mp he).resolve_right List.not_mem_nil)).trans
      (Extends.encodings_subset hgrow)
  have hbare : Represents E ⟨⟨initWorldState.1.hash⟩, bare⟩ 0 fun _ => none :=
    represents_initWorldState bare (fun e he => by cases he) (hbefore.trans hlog)
  obtain ⟨_, u, hret, hu⟩ := ZkTrie.setHeadAndTail_reaches hE hbare (hsub.trans hlog)
  refine ⟨u, ?_, ?_⟩
  · exact congrArg Prod.snd (hrun.symm.trans (houtlasts.returns hret))
  · rw [treeMap_ends] at hu
    exact hu

/-- A run over a new trie answers as a map exactly when the store's index is ready for it, and no run
ever changes what the index answers. -/
theorem runAll_map_iff (parse : Bytes → Option LeafOpening) (store : MemStore) (pfx : UInt64) {s : Session PrefixDB}
    (hempty : ZkTrie.empty (⟨pfx, store⟩ : PrefixDB) = (.ok (), s)) (ops : List MapOp)
    (hhash : CollisionFree (encodings (known (runAll parse ops s).2.db))) :
    ((runAll parse ops s).1 = .ok (answers (fun _ => none) ops) ↔
        Ready parse (Database.getNearestKeys (⟨pfx, store⟩ : PrefixDB)) (fun _ => none) .fresh ops) ∧
      ∀ root hkey, Database.getNearestKeys (runAll parse ops s).2.db root hkey =
        Database.getNearestKeys (⟨pfx, store⟩ : PrefixDB) root hkey := by
  have hstart : SameIndex ⟨pfx, store⟩ s.db := by
    have hmoves : SameIndex _ (ZkTrie.empty (⟨pfx, store⟩ : PrefixDB)).2.db :=
      ZkTrie.setHeadAndTail_moves (⟨⟨initWorldState.1.hash⟩, ⟨pfx, store⟩⟩ : Session PrefixDB)
    rwa [hempty] at hmoves
  have hgrow : Extends s.db (runAll parse ops s).2.db := runAll_moves ops s
  obtain ⟨u, rfl, hu⟩ := empty_beneath hhash store pfx hempty (Extends.encodings_subset hgrow)
  constructor
  · exact runAll_iff hhash ops _ hu (fun root hkey => hstart.getNearestKeys root hkey) fun _ h => h
  · intro root hkey
    have hmoves : SameIndex (u.beneath store.nodes).db (runAll parse ops (u.beneath store.nodes)).2.db :=
      runAll_moves ops (u.beneath store.nodes)
    exact (NodeSteady.trans hstart hmoves).getNearestKeys root hkey

end MapOp

namespace ReferenceTree

variable [TrieHash] [Profile] {parse : Bytes → Option LeafOpening} {index : SH256 → SH256 → Option KeyRange}
  {t : ReferenceTree} {key : Bytes} {hkey : SH256} {range : KeyRange}

omit [Profile] in
theorem read_of_entry (hsum : TrieHash.sum key = .ok hkey) (hentry : index t.root hkey = some range) :
    t.read index key = some (range.center.map FlattenedLeaf.leafValue) := by
  unfold ReferenceTree.read
  rw [hsum]
  change (index t.root hkey >>= _) = _
  rw [hentry]
  rfl

theorem put_of_entry (hsum : TrieHash.sum key = .ok hkey) (hentry : index t.root hkey = some range)
    (hcenter : range.center = none) (value : Bytes) :
    t.put parse index key value = t.insertLeaf parse hkey range value := by
  unfold ReferenceTree.put
  rw [hsum]
  change (index t.root hkey >>= _) = _
  rw [hentry]
  simp only [Option.bind_eq_bind, Option.bind_some, hcenter]

end ReferenceTree

theorem freshTrie_eq :
    letI := residueHash
    letI := debugProfile
    ∀ store ∈ [MemStore.new, freshStore],
      ZkTrie.empty (⟨UInt64.ofNat (2 ^ 64 - 1), store⟩ : PrefixDB) = (.ok (), freshTrie store) := by
  let := residueHash
  let := debugProfile
  have hok : ∀ store ∈ [MemStore.new, freshStore],
      (ZkTrie.empty (⟨UInt64.ofNat (2 ^ 64 - 1), store⟩ : PrefixDB)).1.isOk = true := by
    decide +kernel
  intro store hstore
  obtain ⟨_, h⟩ := isOk_iff.mp (hok store hstore)
  exact Prod.ext h rfl

namespace MapOp

/-- Where the index has an entry at the root of the new trie, reads and the first insertion succeed. -/
theorem runAll_map_iff_sample :
    letI := residueHash
    letI := debugProfile
    (runAll LeafOpening.parse [read [1], put [1] [7]] (freshTrie freshStore)).1 = .ok [none, none] := by
  let := residueHash
  let := debugProfile
  have hempty := freshTrie_eq freshStore (by simp)
  have hrun : separated
        (known (runAll LeafOpening.parse [read [1], put [1] [7]] (freshTrie freshStore)).2.db) = true ∧
      Database.getNearestKeys (⟨UInt64.ofNat (2 ^ 64 - 1), freshStore⟩ : PrefixDB)
        (freshTrie freshStore).trie.rootHash 2 = some ⟨0, none, 1⟩ ∧
      (ReferenceTree.fresh.insertLeaf LeafOpening.parse 2 ⟨0, none, 1⟩ [7]).isSome = true := by
    decide +kernel
  obtain ⟨hseparated, hindex, hinsert⟩ := hrun
  have hhash := collisionFree_of_separated hseparated
  have hgrow : Extends (freshTrie freshStore).db
      (runAll LeafOpening.parse [read [1], put [1] [7]] (freshTrie freshStore)).2.db := runAll_moves _ _
  obtain ⟨u, hu, hfresh⟩ := empty_beneath hhash freshStore _ hempty (Extends.encodings_subset hgrow)
  have hroot : (freshTrie freshStore).trie.rootHash = ReferenceTree.fresh.root :=
    (congrArg (·.trie.rootHash) hu).trans hfresh.rootHash
  rw [hroot] at hindex
  obtain ⟨t, ht⟩ := Option.isSome_iff_exists.mp hinsert
  have hone : TrieHash.sum [1] = .ok 2 := rfl
  have hread := ReferenceTree.read_of_entry hone hindex
  have hput := (ReferenceTree.put_of_entry hone hindex rfl [7]).trans ht
  refine (runAll_map_iff LeafOpening.parse freshStore _ hempty [read [1], put [1] [7]] hhash).1.mpr ?_
  exact ⟨.fresh, by rw [act, hread]; rfl, t, by rw [act, hput]; rfl, trivial⟩

/-- The first insertion into the empty trie panics. -/
theorem put_panics :
    letI := residueHash
    letI := debugProfile
    ZkTrie.empty (⟨UInt64.ofNat (2 ^ 64 - 1), MemStore.new⟩ : PrefixDB) = (.ok (), freshTrie MemStore.new) ∧
      (TrieHash.sum [1]).isOk = true ∧ (TrieHash.sum [7]).isOk = true ∧
      ((put [1] [7]).run LeafOpening.parse (freshTrie MemStore.new)).1 = .error .panic := by
  let := residueHash
  let := debugProfile
  have hindex :
      Database.getNearestKeys (freshTrie MemStore.new).db (freshTrie MemStore.new).trie.rootHash 2 = none := by
    decide +kernel
  have hnear : ZkTrie.nearestKeys 2 (freshTrie MemStore.new) = .error .panic := by
    rw [ZkTrie.nearestKeys, ZkTrie.topRootHash, hindex]
    rfl
  have hput : (ZkTrie.put LeafOpening.parse [1] [7]).Stops (freshTrie MemStore.new) .panic (freshTrie MemStore.new) :=
    (Action.Returns.lift 2 _).stops (Action.Stops.read hnear).head
  have hrun : ((put [1] [7]).run LeafOpening.parse).Stops (freshTrie MemStore.new) .panic (freshTrie MemStore.new) :=
    hput.head
  refine ⟨freshTrie_eq MemStore.new (by simp), rfl, rfl, ?_⟩
  rw [hrun]

end MapOp

end LineaSgxProver.Zktrie
