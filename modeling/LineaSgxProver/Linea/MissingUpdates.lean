import LineaSgxProver.Linea.ZkTrieState

namespace LineaSgxProver.Linea

open Library Zktrie

namespace TrieCache

variable {T K V D : Type} [DecidableEq K]

theorem settle_zip {results : List TrieUpdate} {keys : List K} (h : results.length = keys.length)
    (missing : List SH256) :
    ∃ nodes, settle (results.zip keys) keys missing = ([], missing ++ nodes) ∧
      (nodes = [] ↔ ∀ result ∈ results, result = .success) := by
  induction results generalizing keys missing with
  | nil =>
    obtain rfl := List.length_eq_zero_iff.mp h.symm
    refine ⟨[], by simp [settle], ?_⟩
    simp
  | cons result results ih =>
    cases keys with
    | nil => cases h
    | cons k keys =>
      have hlen : results.length = keys.length := Nat.succ.inj h
      cases result with
      | success =>
        obtain ⟨nodes, hsettle, hnodes⟩ := ih hlen missing
        refine ⟨nodes, ?_, by simpa using hnodes⟩
        simpa [settle] using hsettle
      | missing node =>
        obtain ⟨nodes, hsettle, _⟩ := ih hlen (missing ++ [node])
        refine ⟨node :: nodes, ?_, by simp⟩
        simpa [settle] using hsettle

variable [Trie T D] [LE K] [DecidableLE K] [CacheKey K] [CacheValueEnc V]
  {c : TrieCache T K V} {db db' : D} {raw : T} {results : List TrieUpdate}

/-- The keys reported missing, and no others, are dirty, and what is cached is as it was. -/
structure KeepsMissing (results : List TrieUpdate) (c c' : TrieCache T K V) : Prop where
  dirty : ∀ k, k ∈ c'.dirty ↔ ∃ node, (.missing node, k) ∈ results.zip c.dirty
  cache : c'.cache = c.cache

omit [DecidableEq K] [Trie T D] [LE K] [DecidableLE K] in
theorem KeepsMissing.mem_updates {c' : TrieCache T K V} (h : KeepsMissing results c c') {k : K}
    {node : SH256} (hmem : (.missing node, k) ∈ results.zip c.dirty) :
    ∃ u ∈ c.updates, u ∈ c'.updates ∧ u.1 = CacheKey.bytes k := by
  have hk : k ∈ c.dirty := (List.of_mem_zip hmem).2
  refine ⟨_, List.mem_map_of_mem hk, ?_, rfl⟩
  rw [← h.cache]
  exact List.mem_map_of_mem ((h.dirty k).mpr ⟨node, hmem⟩)

omit [LE K] [DecidableLE K] in
theorem flush_clears (hupdate : Trie.update c.updates (c.raw, db) = (some results, raw, db'))
    (hlen : results.length = c.dirty.length) :
    ∃ r, flush (c, db) = (r, ⟨raw, c.cache, []⟩, db') ∧ r ≠ .error .panic ∧
      (r = .ok () ↔ ∀ result ∈ results, result = .success) := by
  obtain ⟨nodes, hsettle, hnodes⟩ := settle_zip hlen []
  rw [List.nil_append] at hsettle
  refine ⟨if 0 < nodes.length then .error (.error nodes) else .ok (), ?_, ?_, ?_⟩
  · unfold flush
    simp only [hupdate, hlen, if_true, hsettle]
  · split_ifs <;> simp
  · rw [← hnodes, ← List.length_eq_zero_iff]
    split_ifs with hpos
    · simp only [false_iff]
      omega
    · simp only [true_iff]
      omega

end TrieCache

section Flush

variable {T K V D : Type} [DecidableEq K] [Trie T D] [LE K] [DecidableLE K] [CacheKey K]
  [CacheValueEnc V]

def flushAccounts : Action (TrieCache T K V × D) (Fault StateError) SH256 := fun (c, db) =>
  match TrieCache.flush (c, db) with
  | (.error .panic, c, db) => (.error .panic, c, db)
  | (_, c, db) => (.ok c.rootHash, c, db)

variable {c : TrieCache T K V} {db db' : D} {raw : T} {results : List TrieUpdate}

omit [LE K] [DecidableLE K] in
theorem flushAccounts_returns (hupdate : Trie.update c.updates (c.raw, db) = (some results, raw, db'))
    (hlen : results.length = c.dirty.length) :
    flushAccounts.Returns (c, db) (Trie.rootHash raw) (⟨raw, c.cache, []⟩, db') := by
  obtain ⟨r, hflush, hpanic, _⟩ := TrieCache.flush_clears hupdate hlen
  unfold Action.Returns flushAccounts
  simp only [hflush]
  rcases r with (e | _) | ⟨⟩
  · rfl
  · exact absurd rfl hpanic
  · rfl

/-- A flush that loses no update: the missing ones are kept, and reported by the state. -/
structure LosesNothing (results : List TrieUpdate) (c : TrieCache T K V) (db : D) : Prop where
  keeps : TrieCache.KeepsMissing results c (TrieCache.flush (c, db)).2.1
  reports : (∃ node, .missing node ∈ results) → ∃ e s, flushAccounts.Stops (c, db) (.error e) s

omit [LE K] [DecidableLE K] in
theorem flush_losesNothing_iff
    (hupdate : Trie.update c.updates (c.raw, db) = (some results, raw, db'))
    (hlen : results.length = c.dirty.length) :
    LosesNothing results c db ↔ ∀ result ∈ results, result = .success := by
  obtain ⟨r, hflush, _⟩ := TrieCache.flush_clears hupdate hlen
  have hret := flushAccounts_returns hupdate hlen
  constructor
  · intro h result hresult
    cases result with
    | success => rfl
    | missing node =>
      obtain ⟨e, s, hstop⟩ := h.reports ⟨node, hresult⟩
      cases hret.symm.trans hstop
  · intro h
    have hnone : ¬ ∃ node, .missing node ∈ results := by
      rintro ⟨node, hnode⟩
      cases h _ hnode
    refine ⟨⟨?_, ?_⟩, fun hmissing => absurd hmissing hnone⟩
    · intro k
      rw [hflush]
      constructor
      · intro hk
        cases hk
      · rintro ⟨node, hmem⟩
        exact absurd ⟨node, (List.of_mem_zip hmem).1⟩ hnone
    · rw [hflush]

end Flush

section State

variable {D ε : Type} [RawTrie D ε] [TrieHash] [KeccakHash]

theorem ZkTrie.write_success {item data : Bytes} {s s' : Session D} {result : TrieUpdate}
    (h : (ZkTrie.write item data).Returns s result s') : result = .success := by
  obtain ⟨_, t, _, h⟩ := Action.bind_returns_iff.mp h
  by_cases hdata : data.length = 0
  · simp only [hdata, if_true] at h
    obtain ⟨_, _, _, h⟩ := Action.bind_returns_iff.mp h
    exact (Except.ok.inj (Prod.mk.inj h).1).symm
  · simp only [hdata, if_false] at h
    obtain ⟨_, _, _, h⟩ := Action.bind_returns_iff.mp h
    exact (Except.ok.inj (Prod.mk.inj h).1).symm

theorem ZkTrie.writes_success {updates : List (Bytes × Bytes)} {s s' : Session D}
    {results : List TrieUpdate} (h : (ZkTrie.writes updates).Returns s results s') :
    ∀ result ∈ results, result = .success := by
  induction updates generalizing s s' results with
  | nil =>
    obtain rfl : results = [] := (Except.ok.inj (Prod.mk.inj h).1).symm
    simp
  | cons u updates ih =>
    obtain ⟨result, t, hwrite, hrest⟩ := Action.bind_returns_iff.mp h
    obtain ⟨results', t', hwrites, hret⟩ := Action.bind_returns_iff.mp hrest
    obtain rfl : result :: results' = results := Except.ok.inj (Prod.mk.inj hret).1
    obtain rfl := ZkTrie.write_success hwrite
    intro r hr
    rcases List.mem_cons.mp hr with rfl | hr
    · rfl
    · exact ih hwrites r hr

/-- The trie of the state itself reports no update as missing: it panics on what it cannot write. -/
theorem ZkTrie.update_success {updates : List (Bytes × Bytes)} {s : ZkTrie D × D}
    {results : List TrieUpdate} (h : (ZkTrie.update updates s).1 = some results) :
    ∀ result ∈ results, result = .success := by
  unfold ZkTrie.update at h
  rcases hwrites : ZkTrie.writes (ZkTrie.sortUpdates updates) ⟨s.1.raw, s.2⟩ with ⟨r, t⟩
  simp only [hwrites] at h
  cases r with
  | error e => cases h
  | ok results' =>
    obtain rfl : results' = results := Option.some.inj h
    exact ZkTrie.writes_success hwrites

end State

structure PartialTrie where
  root : SH256
  lost : Bytes
  deriving DecidableEq

namespace PartialTrie

instance : Trie PartialTrie Unit where
  rootHash := PartialTrie.root
  get _ _ db := (.ok [], db)
  update updates s := (some (updates.map fun u => if u.1 = s.1.lost then .missing 7 else .success), s)
  newRoot t root := { t with root := root }

variable [TrieHash] [KeccakHash]

def written : TrieCache PartialTrie SH160 ZkStateAccount where
  raw := ⟨0, SH160.bytes 1⟩
  cache a := if a = 1 ∨ a = 2 then some { ZkStateAccount.default with balance := 5 } else none
  dirty := [1, 2]

def writtenElsewhere : TrieCache PartialTrie SH160 ZkStateAccount where
  raw := ⟨0, SH160.bytes 1⟩
  cache a := if a = 2 then some { ZkStateAccount.default with balance := 5 } else none
  dirty := [2]

end PartialTrie

theorem flush_losesNothing_sample :
    letI := residueHash
    letI : KeccakHash := ⟨fun _ => 0⟩
    LosesNothing [.success] PartialTrie.writtenElsewhere () ↔
      ∀ result ∈ [TrieUpdate.success], result = .success := by
  let := residueHash
  let : KeccakHash := ⟨fun _ => 0⟩
  have hupdate : Trie.update PartialTrie.writtenElsewhere.updates (PartialTrie.writtenElsewhere.raw, ()) =
      (some [.success], ⟨0, SH160.bytes 1⟩, ()) := by
    decide +kernel
  exact flush_losesNothing_iff hupdate rfl

/-- The update of an account is gone: the node above it was missing, the account is no longer dirty,
and the state returns the root without it. -/
theorem flush_loses :
    letI := residueHash
    letI : KeccakHash := ⟨fun _ => 0⟩
    Trie.update PartialTrie.written.updates (PartialTrie.written.raw, ()) =
        (some [.missing 7, .success], PartialTrie.written.raw, ()) ∧
      ¬ LosesNothing [.missing 7, .success] PartialTrie.written () := by
  let := residueHash
  let : KeccakHash := ⟨fun _ => 0⟩
  have hupdate : Trie.update PartialTrie.written.updates (PartialTrie.written.raw, ()) =
      (some [.missing 7, .success], PartialTrie.written.raw, ()) := by
    decide +kernel
  refine ⟨hupdate, ?_⟩
  intro h
  obtain ⟨e, s, hstop⟩ := h.reports ⟨7, List.mem_cons_self⟩
  cases (flushAccounts_returns hupdate rfl).symm.trans hstop

end LineaSgxProver.Linea
