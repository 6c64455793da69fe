import LineaSgxProver.Zktrie.Capacity
import LineaSgxProver.Zktrie.LeafCodec
import LineaSgxProver.Zktrie.Replay
import LineaSgxProver.Zktrie.StagedIndex

namespace LineaSgxProver.Zktrie

open Library
open LinkedList (first last)
open ZkTrie (Decodes SafeButNext)

section Start

variable [TrieHash] [Profile]

theorem foldlM_addTraceNodes_isSome {traces : List Trace}
    (h : ∀ t ∈ traces, (∃ state, t.oldState = some state) ∧ ∃ ns, t.nodes = some ns) (m : NodeMap) :
    ∃ m', traces.foldlM addTraceNodes m = some m' := by
  induction traces generalizing m with
  | nil => exact ⟨m, rfl⟩
  | cons t ts ih =>
    obtain ⟨⟨state, hstate⟩, ns, hns⟩ := h t (List.mem_cons_self ..)
    have hstep : ∃ m₁, addTraceNodes m t = some m₁ := by
      unfold addTraceNodes
      rw [hstate, hns]
      exact ⟨_, rfl⟩
    obtain ⟨m₁, hstep⟩ := hstep
    obtain ⟨m', hrest⟩ := ih (fun u hu => h u (List.mem_cons_of_mem _ hu)) m₁
    refine ⟨m', ?_⟩
    rw [List.foldlM_cons, hstep]
    exact hrest

theorem foldlM_addTrace_isOk {traces : List Trace}
    (h : ∀ t ∈ traces, (∃ root, t.oldTopHash = some root) ∧ ∃ hkey, TrieHash.sum t.key = .ok hkey)
    (base : LevelMap) : ∃ index, traces.foldlM LevelMap.addTrace base = .ok index := by
  induction traces generalizing base with
  | nil => exact ⟨base, rfl⟩
  | cons t ts ih =>
    obtain ⟨⟨root, hroot⟩, hkey, hsum⟩ := h t (List.mem_cons_self ..)
    have hstep : ∃ next, base.addTrace t = .ok next := by
      unfold LevelMap.addTrace
      rw [hroot, trieHash, hsum]
      exact ⟨_, rfl⟩
    obtain ⟨next, hstep⟩ := hstep
    obtain ⟨index, hrest⟩ := ih (fun u hu => h u (List.mem_cons_of_mem _ hu)) next
    refine ⟨index, ?_⟩
    rw [List.foldlM_cons, hstep]
    exact hrest

omit [Profile] in
theorem HonestRun.mem {st : TrieState} {run : List (Trace × TrieState)} (h : HonestRun st run)
    {t : Trace} (ht : t ∈ run.map Prod.fst) :
    ∃ before ∈ st :: run.map Prod.snd, ∃ after, Honest before t after := by
  induction run generalizing st with
  | nil => cases ht
  | cons r run ih =>
    obtain ⟨u, next⟩ := r
    obtain ⟨hstep, hrest⟩ := h
    rcases List.mem_cons.mp ht with rfl | ht
    · exact ⟨st, List.mem_cons_self .., next, hstep⟩
    · obtain ⟨before, hbefore, hafter⟩ := ih hrest ht
      exact ⟨before, List.mem_cons_of_mem _ hbefore, hafter⟩

/-- The database of the traces, with the first top node on top. -/
def startDB (st : TrieState) (nodes : NodeMap) (index : LevelMap) : PrefixDB :=
  ⟨UInt64.ofNat (2 ^ 64 - 1), ⟨entry (worldTop st.free (leavesOf st.map)) :: nodes, index, []⟩⟩

theorem replayStart_eq {st : TrieState} {run : List (Trace × TrieState)} (h : HonestRun st run)
    (hne : run ≠ []) :
    ∃ nodes index, traceNodes (run.map Prod.fst) = some nodes ∧
      LevelMap.fromTraces (run.map Prod.fst) = .ok index ∧
      replayStart (run.map Prod.fst) = .ok ⟨⟨st.root⟩, startDB st nodes index⟩ := by
  obtain ⟨nodes, hnodes⟩ : ∃ nodes, traceNodes (run.map Prod.fst) = some nodes := by
    refine foldlM_addTraceNodes_isSome ?_ []
    intro t ht
    obtain ⟨before, _, after, hstep⟩ := h.mem ht
    exact ⟨⟨_, hstep.oldState⟩, hstep.nodes⟩
  obtain ⟨index, hindex⟩ : ∃ index, (run.map Prod.fst).foldlM LevelMap.addTrace ⟨[]⟩ = .ok index := by
    refine foldlM_addTrace_isOk ?_ ⟨[]⟩
    intro t ht
    obtain ⟨before, _, after, hstep⟩ := h.mem ht
    obtain ⟨hkey, hsum, _⟩ := hstep.neighbours
    exact ⟨⟨_, hstep.oldTopHash⟩, hkey, hsum⟩
  have hfrom : LevelMap.fromTraces (run.map Prod.fst) = .ok index := by
    rw [LevelMap.fromTraces, if_neg (by simpa using hne), hindex]
  refine ⟨nodes, index, hnodes, hfrom, ?_⟩
  cases run with
  | nil => exact absurd rfl hne
  | cons r run =>
    obtain ⟨t, next⟩ := r
    have htop := h.1.oldTopNode
    unfold replayStart MemStore.fromTraces
    rw [hnodes, hfrom]
    change (do
      let top ← orPanic t.oldTopNode
      _) = _
    rw [htop]
    rfl

end Start

section Serves

variable [TrieHash] [Profile] {E : Set Bytes}

/-- What the replay of a trace needs: the trace's own nodes, and a true answer about its key. -/
structure Serves (E : Set Bytes) (db : PrefixDB) (st : TrieState) (t : Trace) : Prop where
  value : ∀ c, t.keyRange.center = some c → c.leafValue ∈ E
  nodes : ∀ ns, t.nodes = some ns → ∀ n ∈ ns, (n.hash, n) ∈ known db
  range : ∀ hkey, TrieHash.sum t.key = .ok hkey → ∃ r,
    Database.getNearestKeys db st.root hkey = some r ∧ Neighbours st.map hkey r ∧
      ∀ c, r.center = some c → c.leafValue ∈ E

/-- The values that the traces of reads, updates and deletions give are hashed within `E`. -/
def ValuesIn (E : Set Bytes) (traces : List Trace) : Prop :=
  ∀ t ∈ traces, ∀ c, t.keyRange.center = some c → c.leafValue ∈ E

variable {st : TrieState} {run : List (Trace × TrieState)} {nodes : NodeMap} {index : LevelMap}

/-- A later trace may overwrite an answer, but only by one about the same tree. -/
theorem serves_of_run (hE : CollisionFree E) (hrun : HonestRun st run)
    (hwithin : ∀ before ∈ st :: run.map Prod.snd, before.Within E)
    (hvalues : ValuesIn E (run.map Prod.fst)) (hnodes : traceNodes (run.map Prod.fst) = some nodes)
    (hindex : LevelMap.fromTraces (run.map Prod.fst) = .ok index) {before after : TrieState} {t : Trace}
    (hbefore : before.Within E) (ht : t ∈ run.map Prod.fst) (h : Honest before t after) :
    Serves E (startDB st nodes index) before t := by
  refine ⟨hvalues t ht, ?_, ?_⟩
  · intro ns hns n hn
    apply List.mem_append_right
    apply List.mem_cons_of_mem
    exact (foldlM_addTraceNodes_mem hnodes _).mpr
      (Or.inr ⟨t, ht, _, _, ns, h.oldState, hns, Or.inl ⟨n, hn, rfl⟩⟩)
  · intro hkey hsum
    have hlookup := LevelMap.lookup_fromTraces hindex before.root hkey (UInt64.ofNat (2 ^ 64 - 1))
    rw [if_pos rfl] at hlookup
    have hself : LevelMap.Answering before.root hkey t := by
      refine ⟨h.oldTopHash, ?_⟩
      rw [trieHash, hsum]
      rfl
    cases hfound : (run.map Prod.fst).reverse.find? fun u =>
        decide (LevelMap.Answering before.root hkey u) with
    | none =>
      have hnone := List.find?_eq_none.mp hfound t (List.mem_reverse.mpr ht)
      exact absurd (decide_eq_true hself) hnone
    | some u =>
      rw [hfound] at hlookup
      have hu : u ∈ run.map Prod.fst := List.mem_reverse.mp (List.mem_of_find?_eq_some hfound)
      have hanswering := List.find?_some hfound
      obtain ⟨hroot, hhash⟩ := of_decide_eq_true hanswering
      obtain ⟨other, hother, next, hstep⟩ := hrun.mem hu
      obtain ⟨hkey', hsum', hneigh⟩ := hstep.neighbours
      have hsame : other.root = before.root := Option.some.inj (hstep.oldTopHash.symm.trans hroot)
      have hmap := TrieState.map_eq hE (hwithin other hother) hbefore hsame
      obtain rfl : hkey' = hkey := by
        rw [trieHash, hsum'] at hhash
        exact Option.some.inj hhash
      refine ⟨u.keyRange, ?_, hmap ▸ hneigh, hvalues u hu⟩
      rw [getNearestKeys_eq]
      exact hlookup

theorem startDB_sound (hnodes : traceNodes (run.map Prod.fst) = some nodes)
    (hlog : encodings (known (startDB st nodes index)) ⊆ E) : Sound E (startDB st nodes index) := by
  refine ⟨?_, hlog⟩
  intro e he
  rcases List.mem_append.mp he with he | he
  · exact emptyTrieNode_proper e he
  · rcases List.mem_cons.mp he with rfl | he
    · exact ⟨rfl, ofTree_kinded _⟩
    · exact traceNodes_proper hnodes e he

end Serves

section Step

variable [TrieHash] [Profile] {E : Set Bytes} {start : PrefixDB} {s : Session PrefixDB}
  {st st' : TrieState} {t : Trace}

/-- The routes that a database has from the beginning, whatever tree they belong to. -/
def routesOf (start : PrefixDB) : Coverage PrefixDB :=
  Coverage.listed {r : IndexMap × UInt64 | Wrote start r.1 r.2}

/-- The session is at the root of the trie, with the answers and the nodes it started with. -/
structure Follows (E : Set Bytes) (start : PrefixDB) (s : Session PrefixDB) (st : TrieState) : Prop where
  tree : Holds E (routesOf start) s st.free st.map
  index : SameIndex start s.db

omit [Profile] in
theorem follows_start {nodes : NodeMap} {index : LevelMap} (hdb : Sound E (startDB st nodes index)) :
    Follows E (startDB st nodes index) ⟨⟨st.root⟩, startDB st nodes index⟩ st where
  tree := ⟨rfl, hdb, List.mem_append_right _ (List.mem_cons_self ..), fun _ hr => hr⟩
  index := ⟨rfl, rfl⟩

omit [Profile] in
theorem Follows.getNearestKeys (h : Follows E start s st) (hkey : SH256) :
    Database.getNearestKeys s.db s.trie.rootHash hkey = Database.getNearestKeys start st.root hkey := by
  rw [h.index.getNearestKeys, h.tree.rootHash]
  rfl

omit [Profile] in
theorem read_eq {key : Bytes} {hkey : SH256} {r : KeyRange} (hsum : TrieHash.sum key = .ok hkey)
    (hrange : Database.getNearestKeys s.db s.trie.rootHash hkey = some r) :
    ZkTrie.read key s = .ok (r.center.map FlattenedLeaf.leafValue) := by
  have hhash : trieHash key = .ok hkey := by rw [trieHash, hsum]
  have hnear : ZkTrie.nearestKeys hkey s = .ok r := by
    rw [ZkTrie.nearestKeys, hrange]
    rfl
  unfold ZkTrie.read
  rw [hhash, ok_bind, hnear, ok_bind]
  cases r.center <;> rfl

/-- A read is answered as traced and changes nothing. -/
theorem Honest.read_step (parse : Bytes → Option LeafOpening) (hE : CollisionFree E)
    (h : Honest st t st') (hread : t.IsRead) (hf : Follows E start s st) (hs : Serves E start st t) :
    st' = st ∧ ∃ a, (t.replay parse).Returns s a s ∧ t.Traced a s := by
  cases h with
  | insertion h => cases hread
  | update h => cases hread
  | deletion h => cases hread
  | @read as bs l c x free h location key value hkey hval =>
    refine ⟨rfl, ?_⟩
    obtain ⟨r, hrange, hneigh, hin⟩ := hs.range _ hkey
    obtain ⟨value', rfl, hval'⟩ := hneigh.at_cell h
    have heq : value' = value :=
      hE.injective _ (hin _ rfl) _ (hs.value _ rfl) _ hval' hval
    have hread := read_eq hkey ((hf.getNearestKeys _).trans hrange)
    exact ⟨some value', Action.Returns.read hread, congrArg some heq⟩
  | @readZero as bs l x free h k location key hkey hl hx =>
    refine ⟨rfl, ?_⟩
    obtain ⟨r, hrange, hneigh, _⟩ := hs.range _ hkey
    obtain rfl := hneigh.between h hl hx
    have hread := read_eq hkey ((hf.getNearestKeys _).trans hrange)
    exact ⟨none, Action.Returns.read hread, rfl⟩

/-- The last thing an operation does to the tree: it rewrites a leaf, and a wrong pointer to the next leaf
would stay in it. -/
structure Finishes (m m' : IndexMap) (i : UInt64) (prior : LeafOpening)
    (change : LeafOpening → LeafOpening) : Prop where
  index_lt : i.toNat < 2 ^ zkTrieDepth
  map_eq : m' = Function.update m i (some (change prior).leafValue)
  garbled_ne : change prior.garbled ≠ change prior

theorem Honest.write_step (parse : Bytes → Option LeafOpening) (hE : CollisionFree E)
    (h : Honest st t st') (hwrite : ¬ t.IsRead) (hf : Follows E start s st) (hs : Serves E start st t) :
    ∃ m i prior change, Finishes m st'.map i prior change ∧
      (∀ a (s' : Session PrefixDB), t.Traced a s' ↔ ZkTrie.subRootHash s' = .ok (subRootOf st'.map)) ∧
      ∀ {dec : LeafOpening → LeafOpening}, Decodes parse dec → SafeButNext dec →
        Reaches E s (t.replay parse) fun _ s' =>
          Holds E (routesOf start) s' st'.free (Function.update m i (some (change (dec prior)).leafValue)) ∧
          Wrote s'.db (Function.update m i (some (change (dec prior)).leafValue)) i := by
  cases h with
  | read h => exact absurd trivial hwrite
  | readZero h => exact absurd trivial hwrite
  | @insertion as bs l x free h e location key value hkey hval hl hx hfree =>
    obtain ⟨r, hrange, hneigh, _⟩ := hs.range _ hkey
    obtain rfl := hneigh.between h hl hx
    obtain ⟨ns, hns, hwrote⟩ := Honest.insertion_proofs h hl hx hfree
    obtain ⟨hul, huc, hux⟩ := hwrote start (hs.nodes ns hns)
    have hnew := h.insert hl hx hfree
    refine ⟨insertNew as l (free, e) x bs, x.1, opening ⟨l.1, x.2, first 1 bs⟩, (·.newPrevLeaf free),
      ⟨h.index_lt (by simp), (treeMap_insert hnew.nodup).symm, ?_⟩, fun _ _ => Iff.rfl, ?_⟩
    · intro heq
      exact h.first_ne (congrArg LeafOpening.nextLeaf heq).symm
    · intro dec hparse hdec
      refine (ZkTrie.put_insert_reaches hE hparse hdec hf.tree h hl hx hfree hul huc hux hkey hval
        ((hf.getNearestKeys _).trans hrange)).bind (fun _ => Moves.pure none) ?_
      intro _ s' hs'
      exact Reaches.pure none hs'
  | @update as bs l c x free h hval location key oldValue newValue hkey hold hnew =>
    obtain ⟨r, hrange, hneigh, _⟩ := hs.range _ hkey
    obtain ⟨old, rfl, _⟩ := hneigh.at_cell h
    obtain ⟨ns, hns, hwrote⟩ := Honest.update_proof h
    have huc := hwrote start (hs.nodes ns hns)
    refine ⟨treeMap (as ++ l :: c :: x :: bs), c.1, opening ⟨l.1, c.2, x.1⟩, (·.newHval hval),
      ⟨h.index_lt (by simp), (treeMap_replace h.nodup ⟨c.2.hkey, hval⟩).symm, ?_⟩, fun _ _ => Iff.rfl, ?_⟩
    · intro heq
      exact (LinkedList.indices_ne h.nodup).2.1 (congrArg LeafOpening.nextLeaf heq)
    · intro dec hparse hdec
      refine (ZkTrie.put_update_reaches hE hparse hf.tree h huc hkey hnew
        ((hf.getNearestKeys _).trans hrange)).bind (fun _ => Moves.pure none) ?_
      intro _ s' hs'
      exact Reaches.pure none hs'
  | @deletion as bs l c x free h location key deleteValue hkey hold =>
    obtain ⟨r, hrange, hneigh, _⟩ := hs.range _ hkey
    obtain ⟨old, rfl, _⟩ := hneigh.at_cell h
    obtain ⟨ns, hns, hwrote⟩ := Honest.deletion_proofs h
    obtain ⟨hul, huc, hux⟩ := hwrote start (hs.nodes ns hns)
    have hshift : (as ++ [l]) ++ c :: x :: bs = as ++ l :: c :: x :: bs := by simp
    refine ⟨deleteOld as l c x bs, x.1, opening ⟨c.1, x.2, first 1 bs⟩, (·.newPrevLeaf l.1),
      ⟨h.index_lt (by simp), (treeMap_erase h.nodup).symm, ?_⟩, fun _ _ => Iff.rfl, ?_⟩
    · intro heq
      exact (hshift ▸ h).first_ne (congrArg LeafOpening.nextLeaf heq).symm
    · intro dec hparse hdec
      refine (ZkTrie.remove_reaches hE hparse hdec hf.tree h hul huc hux hkey
        ((hf.getNearestKeys _).trans hrange)).bind (fun _ => Moves.pure none) ?_
      intro _ s' hs'
      exact Reaches.pure none hs'

theorem Honest.step_reaches {parse : Bytes → Option LeafOpening} (hE : CollisionFree E)
    (hparse : Decodes parse id) (h : Honest st t st') (hf : Follows E start s st)
    (hs : Serves E start st t) :
    Reaches E s (t.replay parse) fun a s' => t.Traced a s' ∧ Follows E start s' st' := by
  by_cases hread : t.IsRead
  · obtain ⟨rfl, a, hret, htraced⟩ := h.read_step parse hE hread hf hs
    exact Reaches.of_returns hret fun _ => ⟨htraced, hf⟩
  · obtain ⟨m, i, prior, change, hfin, htraced, hreach⟩ := h.write_step parse hE hread hf hs
    refine (hreach hparse fun _ _ => rfl).self.mono ?_
    rintro a s' ⟨hret, htree, _⟩
    have hmoves : SameIndex s.db (t.replay parse s).2.db := t.replay_moves s
    rw [hret] at hmoves
    rw [id_eq, ← hfin.map_eq] at htree
    exact ⟨(htraced a s').mpr (htree.subRootHash hE), htree, NodeSteady.trans hf.index hmoves⟩

/-- The pointer that the code's decoder gets wrong shows in the sub root of every write. -/
theorem Honest.read_of_traced (hE : CollisionFree E) (h : Honest st t st') (hwithin : st'.Within E)
    (hf : Follows E start s st) (hs : Serves E start st t) {a : Option Bytes} {s' : Session PrefixDB}
    (hret : (t.replay LeafOpening.parse).Returns s a s') (hlog : encodings (known s'.db) ⊆ E)
    (htraced : t.Traced a s') : t.IsRead := by
  by_contra hwrite
  obtain ⟨m, i, prior, change, hfin, hsub, hreach⟩ := h.write_step LeafOpening.parse hE hwrite hf hs
  have hdone := hreach LeafOpening.parse_toBytes fun _ _ => rfl
  rw [Reaches, hret] at hdone
  obtain ⟨a', s'', hret', htree, hwrote⟩ := hdone hlog
  obtain ⟨-, rfl⟩ := Prod.mk.inj (hret.symm.trans hret')
  have hroot : subRootOf (Function.update m i (some (change prior.garbled).leafValue)) =
      subRootOf st'.map :=
    Except.ok.inj ((htree.subRootHash hE).symm.trans ((hsub a s').mp htraced))
  rw [hfin.map_eq] at hroot
  refine subRootOf_ne hE hfin.index_lt ?_ ?_ ?_ hroot
  · intro heq
    exact hfin.garbled_ne (leafValue_injective heq)
  · intro x hx b hb
    exact hlog ⟨entry x, hwrote x hx, hb⟩
  · rw [← hfin.map_eq]
    intro x hx
    exact hwithin.route (indexPath_length i) x hx

end Step

section Run

variable [TrieHash] [Profile] {E : Set Bytes} {parse : Bytes → Option LeafOpening}
  {start : PrefixDB} {s : Session PrefixDB} {st : TrieState} {run : List (Trace × TrieState)}

theorem replayAll_cons {t : Trace} {ts : List Trace} {a : Option Bytes} {s' : Session PrefixDB}
    (hret : (t.replay parse).Returns s a s') :
    replayAll parse (t :: ts) s = replayAll parse ts s' := by
  rw [replayAll, Action.bind_apply, hret]

theorem replayAll_reaches (hE : CollisionFree E) (hparse : Decodes parse id) (hrun : HonestRun st run)
    (hwithin : ∀ before ∈ st :: run.map Prod.snd, before.Within E)
    (hserves : ∀ {before t after}, before.Within E → t ∈ run.map Prod.fst → Honest before t after →
      Serves E start before t)
    (hf : Follows E start s st) :
    Reaches E s (replayAll parse (run.map Prod.fst)) fun _ _ => Reproduces parse (run.map Prod.fst) s := by
  induction run generalizing s st with
  | nil => exact Reaches.pure () trivial
  | cons r run ih =>
    obtain ⟨t, next⟩ := r
    obtain ⟨hstep, hrest⟩ := hrun
    have hs := hserves (hwithin st (List.mem_cons_self ..)) (List.mem_cons_self ..) hstep
    refine (hstep.step_reaches hE hparse hf hs).self.bind (fun _ => replayAll_moves _) ?_
    rintro a s' ⟨hret, htraced, hf'⟩
    refine (ih hrest (fun b hb => hwithin b (List.mem_cons_of_mem _ hb))
      (fun hb ht => hserves hb (List.mem_cons_of_mem _ ht)) hf').mono ?_
    intro _ _ htail
    refine ⟨?_, a, s', hret, htraced, htail⟩
    rw [hf.tree.rootHash]
    exact hstep.oldTopHash

theorem reads_reproduce (hE : CollisionFree E) (hrun : HonestRun st run)
    (hwithin : ∀ before ∈ st :: run.map Prod.snd, before.Within E)
    (hserves : ∀ {before t after}, before.Within E → t ∈ run.map Prod.fst → Honest before t after →
      Serves E start before t)
    (hf : Follows E start s st) (hreads : ∀ t ∈ run.map Prod.fst, t.IsRead) :
    Reproduces parse (run.map Prod.fst) s := by
  induction run generalizing st with
  | nil => trivial
  | cons r run ih =>
    obtain ⟨t, next⟩ := r
    obtain ⟨hstep, hrest⟩ := hrun
    have hs := hserves (hwithin st (List.mem_cons_self ..)) (List.mem_cons_self ..) hstep
    obtain ⟨rfl, a, hret, htraced⟩ := hstep.read_step parse hE (hreads t (List.mem_cons_self ..)) hf hs
    refine ⟨?_, a, s, hret, htraced, ?_⟩
    · rw [hf.tree.rootHash]
      exact hstep.oldTopHash
    · exact ih hrest (fun b hb => hwithin b (List.mem_cons_of_mem _ hb))
        (fun hb ht => hserves hb (List.mem_cons_of_mem _ ht)) hf
        fun u hu => hreads u (List.mem_cons_of_mem _ hu)

theorem reads_of_reproduces (hE : CollisionFree E) (hrun : HonestRun st run)
    (hwithin : ∀ before ∈ st :: run.map Prod.snd, before.Within E)
    (hserves : ∀ {before t after}, before.Within E → t ∈ run.map Prod.fst → Honest before t after →
      Serves E start before t)
    (hf : Follows E start s st)
    (hlog : encodings (known (replayAll LeafOpening.parse (run.map Prod.fst) s).2.db) ⊆ E)
    (h : Reproduces LeafOpening.parse (run.map Prod.fst) s) : ∀ t ∈ run.map Prod.fst, t.IsRead := by
  induction run generalizing st with
  | nil =>
    intro t ht
    cases ht
  | cons r run ih =>
    obtain ⟨t, next⟩ := r
    obtain ⟨hstep, hrest⟩ := hrun
    obtain ⟨_, a, s', hret, htraced, htail⟩ := h
    have hs := hserves (hwithin st (List.mem_cons_self ..)) (List.mem_cons_self ..) hstep
    have hnext := hwithin next (List.mem_cons_of_mem _ (List.mem_cons_self ..))
    rw [List.map_cons, replayAll_cons hret] at hlog
    have hgrow : Extends s'.db (replayAll LeafOpening.parse (run.map Prod.fst) s').2.db :=
      replayAll_moves _ s'
    have hread : t.IsRead :=
      hstep.read_of_traced hE hnext hf hs hret (hgrow.encodings_subset.trans hlog) htraced
    obtain ⟨rfl, a', hret', _⟩ := hstep.read_step LeafOpening.parse hE hread hf hs
    obtain ⟨-, rfl⟩ := Prod.mk.inj (hret'.symm.trans hret)
    intro u hu
    rcases List.mem_cons.mp hu with rfl | hu
    · exact hread
    · exact ih hrest (fun b hb => hwithin b (List.mem_cons_of_mem _ hb))
        (fun hb ht => hserves hb (List.mem_cons_of_mem _ ht)) hf hlog htail u hu

/-- A replay with a right decoder reproduces the traced run. With the decoder of the code it does so
exactly when the run only reads. -/
theorem replay_reproduces_iff (hE : CollisionFree E) (hrun : HonestRun st run) (hne : run ≠ [])
    (hwithin : ∀ before ∈ st :: run.map Prod.snd, before.Within E)
    (hvalues : ValuesIn E (run.map Prod.fst)) :
    ∃ s, replayStart (run.map Prod.fst) = .ok s ∧
      (∀ parse, Decodes parse id →
        encodings (known (replayAll parse (run.map Prod.fst) s).2.db) ⊆ E →
        Reproduces parse (run.map Prod.fst) s) ∧
      (encodings (known (replayAll LeafOpening.parse (run.map Prod.fst) s).2.db) ⊆ E →
        (Reproduces LeafOpening.parse (run.map Prod.fst) s ↔ ∀ t ∈ run.map Prod.fst, t.IsRead)) := by
  obtain ⟨nodes, index, hnodes, hindex, hstart⟩ := replayStart_eq hrun hne
  have hserves {before t after} (hbefore : before.Within E) (ht : t ∈ run.map Prod.fst)
      (h : Honest before t after) : Serves E (startDB st nodes index) before t :=
    serves_of_run hE hrun hwithin hvalues hnodes hindex hbefore ht h
  have follows {parse : Bytes → Option LeafOpening}
      (hlog : encodings (known (replayAll parse (run.map Prod.fst)
        ⟨⟨st.root⟩, startDB st nodes index⟩).2.db) ⊆ E) :
      Follows E (startDB st nodes index) ⟨⟨st.root⟩, startDB st nodes index⟩ st := by
    have hgrow : Extends (startDB st nodes index)
        (replayAll parse (run.map Prod.fst) ⟨⟨st.root⟩, startDB st nodes index⟩).2.db :=
      replayAll_moves (run.map Prod.fst) (⟨⟨st.root⟩, startDB st nodes index⟩ : Session PrefixDB)
    exact follows_start (startDB_sound hnodes (hgrow.encodings_subset.trans hlog))
  refine ⟨_, hstart, ?_, ?_⟩
  · intro parse hparse hlog
    obtain ⟨_, _, _, hreproduces⟩ :=
      replayAll_reaches hE hparse hrun hwithin hserves (follows hlog) hlog
    exact hreproduces
  · intro hlog
    constructor
    · exact reads_of_reproduces hE hrun hwithin hserves (follows hlog) hlog
    · exact reads_reproduce hE hrun hwithin hserves (follows hlog)

end Run

namespace ReplayRun

open OneKey (Phase Stage phaseMap keyCell placeNumber)

/-- The tree that the code leaves behind when it inserts a key before the tail. -/
def garbledTail (i : UInt64) : IndexMap :=
  Function.update (Stage.placed.map i) 1
    (some ((opening ⟨0, Cell.tail.2, 1⟩).garbled.newPrevLeaf i).leafValue)

def trees : Phase → IndexMap
  | (.head, i) => garbledTail i
  | f => phaseMap f

def numbering : Numbering Phase where
  slot p := BitVec.ofNat 256 (placeNumber p + 1)
  nonzero p hp h := by
    have hbounds := OneKey.placeNumber_bounds hp
    have hnat := congrArg BitVec.toNat h
    rw [BitVec.toNat_ofNat, Nat.mod_eq_of_lt (by omega)] at hnat
    cases hnat
  injective p p' hp hp' h := by
    have hbounds := OneKey.placeNumber_bounds hp
    have hbounds' := OneKey.placeNumber_bounds hp'
    have hnat := congrArg BitVec.toNat h
    rw [BitVec.toNat_ofNat, BitVec.toNat_ofNat, Nat.mod_eq_of_lt (by omega),
      Nat.mod_eq_of_lt (by omega)] at hnat
    exact OneKey.placeNumber_injective hp hp' (Nat.succ_injective hnat)

theorem slot_ne_one (p : Place Phase) (hp : p.Inside) : numbering.slot p ≠ 1 := by
  have hbounds := OneKey.placeNumber_bounds hp
  intro h
  have hnat := congrArg BitVec.toNat h
  change (BitVec.ofNat 256 (placeNumber p + 1)).toNat = 1 at hnat
  rw [BitVec.toNat_ofNat, Nat.mod_eq_of_lt (by omega)] at hnat
  omega

/-- The word of the next free node, which is no tree's. -/
def freeWord : Bytes := SH256.bytes (formatNodeIndex 2)

def hashes : Set Bytes := insert freeWord (TableHash.encodings numbering trees)

def endsState : TrieState := ⟨[] ++ Cell.head :: Cell.tail :: [], 2, ordered_ends⟩

theorem room : (2 : UInt64).toNat < 2 ^ zkTrieDepth := by decide

def keyState : TrieState :=
  ⟨[] ++ Cell.head :: keyCell 2 :: Cell.tail :: [], 2 + 1,
    endsState.ordered.insert (by decide) (by decide) room⟩

section Sample

variable [TrieHash]

def absence : Trace := .readZero {
  location := [], nextFreeNode := 2, key := OneKey.key
  subRoot := subRootOf endsState.map
  leftLeaf := opening ⟨0, Cell.head.2, 1⟩
  rightLeaf := opening ⟨0, Cell.tail.2, 1⟩
  leftProof := proofAt endsState.map 0
  rightProof := proofAt endsState.map 1 }

def insertion : Trace := .insertion {
  location := [], newNextFreeNode := 2 + 1, key := OneKey.key, value := OneKey.key
  oldSubRoot := subRootOf endsState.map
  newSubRoot := subRootOf keyState.map
  leftProof := proofAt endsState.map 0
  newProof := proofAt (Stage.linked.map 2) 2
  rightProof := proofAt (Stage.placed.map 2) 1
  priorLeftLeaf := opening ⟨0, Cell.head.2, 1⟩
  priorRightLeaf := opening ⟨0, Cell.tail.2, 1⟩ }

/-- The empty trie is asked for a key, and then given it. -/
def run : List (Trace × TrieState) := [(absence, endsState), (insertion, keyState)]

end Sample

section Table

variable [TrieHash] (htable : ∀ b, TrieHash.sum b = TableHash.sum numbering trees b)

include htable

omit [TrieHash] htable in
theorem sum_freeWord : TableHash.sum numbering trees freeWord = .ok 1 := by
  have hlen : freeWord.length = 32 := SH256.bytes_length _
  exact TableHash.sum_other (List.ne_nil_of_length_pos (by omega)) (by omega) (by omega)

theorem collisionFree : CollisionFree hashes :=
  TableHash.collisionFree_insert htable slot_ne_one sum_freeWord

theorem commits (free : UInt64) (f : Phase) :
    Commits hashes (worldRoot free (leavesOf (trees f))) free (trees f) :=
  (TableHash.commits htable free f).mono (Set.subset_insert _ _)

theorem sum_key : TrieHash.sum OneKey.key = .ok 1 := by
  rw [htable]
  exact TableHash.sum_other (by decide) (by decide) (by decide)

theorem honestRun : HonestRun endsState run :=
  ⟨Honest.readZero endsState.ordered [] OneKey.key (sum_key htable) (by decide) (by decide),
    Honest.insertion endsState.ordered [] OneKey.key OneKey.key (sum_key htable) (sum_key htable)
      (by decide) (by decide) room, trivial⟩

theorem within_hashes : ∀ before ∈ endsState :: run.map Prod.snd, before.Within hashes := by
  intro before hbefore
  simp only [run, List.map_cons, List.map_nil, List.mem_cons, List.not_mem_nil, or_false] at hbefore
  rcases hbefore with rfl | rfl | rfl
  · exact commits htable 2 (.ends, 0)
  · exact commits htable 2 (.ends, 0)
  · exact commits htable 3 (.full, 2)

variable [Profile] {nodes : NodeMap} {index : LevelMap}

def routeNodes (f : Phase) (i : UInt64) : List Node :=
  (MerkleTree.route treeDigest (indexPath i) (leavesOf (trees f))).reverse.map Node.ofTree

omit [Profile] in
theorem routeNodes_within (f : Phase) (i : UInt64) {n : Node} (hn : n ∈ routeNodes f i) {b : Bytes}
    (hb : n.raw.toBytes = some b) : b ∈ hashes := by
  obtain ⟨x, hx, rfl⟩ := List.mem_map.mp hn
  exact (commits htable 0 f).route (indexPath_length i) x (List.mem_reverse.mp hx) b hb

omit htable in
theorem insertion_nodes :
    insertion.nodes = some (routeNodes (.ends, 0) 0 ++ routeNodes (.linked, 2) 2 ++
      routeNodes (.placed, 2) 1) := by
  have hnodup := OneKey.nodup_full (show 2 ≤ (2 : UInt64).toNat by decide) room.le
  have hl : (proofAt endsState.map 0).buildNodes (some (opening ⟨0, Cell.head.2, 1⟩)) =
      some (routeNodes (.ends, 0) 0) := buildNodes_route OneKey.zero_lt rfl
  have hc : (proofAt (Stage.linked.map 2) 2).buildNodes none = some (routeNodes (.linked, 2) 2) :=
    buildNodes_route room (insertLeft_new hnodup)
  have hx : (proofAt (Stage.placed.map 2) 1).buildNodes (some (opening ⟨0, Cell.tail.2, 1⟩)) =
      some (routeNodes (.placed, 2) 1) := buildNodes_route OneKey.one_lt (insertNew_right hnodup)
  unfold Trace.nodes insertion
  dsimp only
  rw [hl, hc, hx]
  rfl

omit [Profile] in
theorem nextFreeNode_hash : (Node.nextFreeNode 2).hash = 1 := by
  have hsum : TrieHash.sum freeWord = .ok (Node.nextFreeNode 2).hash :=
    (Node.nextFreeNode 2).sum_of_toBytes rfl
  rw [htable, sum_freeWord] at hsum
  exact (Except.ok.inj hsum).symm

theorem start_within (hnodes : traceNodes (run.map Prod.fst) = some nodes) :
    encodings (known (startDB endsState nodes index)) ⊆ hashes := by
  rintro b ⟨e, he, hb⟩
  rcases List.mem_append.mp he with he | he
  · exact Or.inr (TableHash.empty_within (f := (.blank, 0)) htable leavesOf_none ⟨e, he, hb⟩)
  rcases List.mem_cons.mp he with rfl | he
  · exact (commits htable 2 (.ends, 0)).top b hb
  rcases (foldlM_addTraceNodes_mem hnodes e).mp he with he | ⟨t, ht, free, sub, ns, hstate, hns, hnew⟩
  · cases he
  have hrun := honestRun htable
  have hstate' : t.oldState = some (2, subRootOf endsState.map) := by
    rcases List.mem_pair.mp ht with rfl | rfl
    · exact hrun.1.oldState
    · exact hrun.2.1.oldState
  obtain ⟨rfl, rfl⟩ := Prod.mk.inj (Option.some.inj (hstate.symm.trans hstate'))
  rcases hnew with ⟨n, hn, rfl⟩ | rfl | rfl
  · rcases List.mem_pair.mp ht with rfl | rfl
    · obtain rfl : [] = ns := Option.some.inj hns
      cases hn
    · obtain rfl := Option.some.inj (insertion_nodes.symm.trans hns)
      rcases List.mem_append.mp hn with hn | hn
      · rcases List.mem_append.mp hn with hn | hn
        · exact routeNodes_within htable _ _ hn hb
        · exact routeNodes_within htable _ _ hn hb
      · exact routeNodes_within htable _ _ hn hb
  · exact Or.inl (Option.some.inj hb).symm
  · rw [nextFreeNode_hash htable] at hb
    exact (commits htable 1 (.ends, 0)).top b hb

omit htable [Profile] in
theorem values_within : ValuesIn hashes (run.map Prod.fst) := by
  intro t ht c hc
  rcases List.mem_pair.mp ht with rfl | rfl
  · cases hc
  · cases hc

theorem serves (hnodes : traceNodes (run.map Prod.fst) = some nodes)
    (hindex : LevelMap.fromTraces (run.map Prod.fst) = .ok index) {before after : TrieState} {t : Trace}
    (hbefore : before.Within hashes) (ht : t ∈ run.map Prod.fst) (h : Honest before t after) :
    Serves hashes (startDB endsState nodes index) before t :=
  serves_of_run (collisionFree htable) (honestRun htable) (within_hashes htable) values_within hnodes
    hindex hbefore ht h

theorem follows (hnodes : traceNodes (run.map Prod.fst) = some nodes) :
    Follows hashes (startDB endsState nodes index) ⟨⟨endsState.root⟩, startDB endsState nodes index⟩
      endsState :=
  follows_start (startDB_sound hnodes (start_within htable hnodes))

/-- The replay ends in a listed tree, and hashes no more than the listed ones. -/
theorem replay_within {parse : Bytes → Option LeafOpening} {dec : LeafOpening → LeafOpening}
    (hparse : Decodes parse dec) (hdec : SafeButNext dec) {f : Phase}
    (hf : Function.update (Stage.placed.map 2) 1
      (some ((dec (opening ⟨0, Cell.tail.2, 1⟩)).newPrevLeaf 2).leafValue) = trees f)
    (hnodes : traceNodes (run.map Prod.fst) = some nodes)
    (hindex : LevelMap.fromTraces (run.map Prod.fst) = .ok index) :
    encodings (known (replayAll parse (run.map Prod.fst)
      ⟨⟨endsState.root⟩, startDB endsState nodes index⟩).2.db) ⊆ hashes := by
  have hE := collisionFree htable
  have hrun := honestRun htable
  have hfollows : Follows hashes (startDB endsState nodes index)
      ⟨⟨endsState.root⟩, startDB endsState nodes index⟩ endsState := follows htable hnodes
  have hends := within_hashes htable endsState (List.mem_cons_self ..)
  obtain ⟨_, a, hread, _⟩ := hrun.1.read_step parse hE trivial hfollows
    (serves htable hnodes hindex hends (List.mem_cons_self ..) hrun.1)
  have hs := serves htable hnodes hindex hends (List.mem_cons_of_mem _ (List.mem_cons_self ..)) hrun.2.1
  obtain ⟨r, hrange, hneigh, _⟩ := hs.range 1 (sum_key htable)
  obtain rfl := hneigh.between endsState.ordered (by decide) (by decide)
  have hnodup := OneKey.nodup_full (show 2 ≤ (2 : UInt64).toNat by decide) room.le
  have hadmits (g : Phase) : Admits hashes (trees g) := fun free => commits htable free g
  obtain ⟨ns, hns, hwrote⟩ :=
    Honest.insertion_proofs endsState.ordered (e := ⟨1, 1⟩) (by decide) (by decide) room
  obtain ⟨hul, hun, hux⟩ := hwrote (startDB endsState nodes index) (hs.nodes ns hns)
  have hm₁ : Function.update endsState.map 0
      (some ((dec (opening ⟨0, Cell.head.2, 1⟩)).newNextLeaf 2).leafValue) = trees (.linked, 2) := by
    rw [hdec]
    rfl
  obtain ⟨s', hins, hs'⟩ := ZkTrie.insertLeaf_returns hE hparse hfollows.tree OneKey.zero_lt OneKey.one_lt
    room hul hun hux rfl hm₁ rfl (insertNew_right hnodup) hf (hadmits (.linked, 2)) (hadmits (.placed, 2))
    (hadmits f) (sum_key htable)
  have hput := ZkTrie.put_of_insert hE hfollows.tree (sum_key htable) hrange hins hs'
  have hreplay : (insertion.replay parse).Returns _ none s' := hput.bind (Action.Returns.pure none s')
  have hend : replayAll parse (run.map Prod.fst) ⟨⟨endsState.root⟩, startDB endsState nodes index⟩ =
      (.ok (), s') := (replayAll_cons hread).trans (replayAll_cons hreplay)
  rw [hend]
  exact hs'.sound.within

end Table

end ReplayRun

open ReplayRun (endsState)

theorem replay_reproduces_iff_sample :
    letI := TableHash.hash ReplayRun.numbering ReplayRun.trees
    letI := debugProfile
    ∃ s, replayStart (ReplayRun.run.map Prod.fst) = .ok s ∧
      Reproduces readLeaf (ReplayRun.run.map Prod.fst) s ∧
      (Reproduces LeafOpening.parse (ReplayRun.run.map Prod.fst) s ↔
        ∀ t ∈ ReplayRun.run.map Prod.fst, t.IsRead) := by
  let := TableHash.hash ReplayRun.numbering ReplayRun.trees
  let := debugProfile
  have hE := ReplayRun.collisionFree fun _ => rfl
  have hrun := ReplayRun.honestRun fun _ => rfl
  have hwithin := ReplayRun.within_hashes fun _ => rfl
  have hnodup := OneKey.nodup_full (show 2 ≤ (2 : UInt64).toNat by decide) ReplayRun.room.le
  obtain ⟨nodes, index, hnodes, hindex, hstart⟩ := replayStart_eq hrun (by simp [ReplayRun.run])
  obtain ⟨s, hs, hright, hcode⟩ :=
    replay_reproduces_iff hE hrun (by simp [ReplayRun.run]) hwithin ReplayRun.values_within
  obtain rfl := Except.ok.inj (hstart.symm.trans hs)
  refine ⟨_, hs, hright readLeaf readLeaf_decodes ?_, hcode ?_⟩
  · exact ReplayRun.replay_within (f := (.full, 2)) (fun _ => rfl) readLeaf_decodes (fun _ _ => rfl)
      (treeMap_insert hnodup) hnodes hindex
  · exact ReplayRun.replay_within (f := (.head, 2)) (fun _ => rfl) LeafOpening.parse_toBytes
      (fun _ _ => rfl) rfl hnodes hindex

/-- The insertion of a key into the empty trie is not reproduced from its own trace. -/
theorem insertion_not_reproduced :
    letI := TableHash.hash ReplayRun.numbering ReplayRun.trees
    letI := debugProfile
    CollisionFree ReplayRun.hashes ∧ HonestRun endsState ReplayRun.run ∧
      (∀ before ∈ endsState :: ReplayRun.run.map Prod.snd, before.Within ReplayRun.hashes) ∧
      ValuesIn ReplayRun.hashes (ReplayRun.run.map Prod.fst) ∧
      ∃ s, replayStart (ReplayRun.run.map Prod.fst) = .ok s ∧
        encodings (known (replayAll LeafOpening.parse (ReplayRun.run.map Prod.fst) s).2.db) ⊆
          ReplayRun.hashes ∧
        ¬ Reproduces LeafOpening.parse (ReplayRun.run.map Prod.fst) s := by
  let := TableHash.hash ReplayRun.numbering ReplayRun.trees
  let := debugProfile
  have hE := ReplayRun.collisionFree fun _ => rfl
  have hrun := ReplayRun.honestRun fun _ => rfl
  have hwithin := ReplayRun.within_hashes fun _ => rfl
  obtain ⟨nodes, index, hnodes, hindex, hstart⟩ := replayStart_eq hrun (by simp [ReplayRun.run])
  have hlog := ReplayRun.replay_within (f := (.head, 2)) (fun _ => rfl) LeafOpening.parse_toBytes
    (fun _ _ => rfl) rfl hnodes hindex
  refine ⟨hE, hrun, hwithin, ReplayRun.values_within, _, hstart, hlog, ?_⟩
  intro h
  exact reads_of_reproduces hE hrun hwithin
    (fun hb ht hstep => ReplayRun.serves (fun _ => rfl) hnodes hindex hb ht hstep)
    (ReplayRun.follows (fun _ => rfl) hnodes) hlog h ReplayRun.insertion
    (List.mem_cons_of_mem _ (List.mem_cons_self ..))

end LineaSgxProver.Zktrie
