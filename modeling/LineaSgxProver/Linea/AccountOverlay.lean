import LineaSgxProver.Linea.ZkTrieState

namespace LineaSgxProver.Linea

open Library Zktrie

inductive AccountOp where
  | addBalance (val : SU256)
  | subBalance (val : SU256)
  | setNonce (val : SU256)
  | getBalance
  | getNonce
  | getAccountBasic

inductive StateOp where
  | access (address : SH160) (op : AccountOp)
  | revert (root : SH256)
  | flush

inductive StateOutput where
  | done
  | balance (balance : SU256)
  | nonce (nonce : UInt64)
  | basic (balance : SU256) (nonce : UInt64)
  | reverted (changed : Bool)
  | root (root : SH256)
  deriving DecidableEq

section Run

variable {D ε : Type} [RawTrie D ε] [Debug ε] [TrieHash] [KeccakHash]

def AccountOp.run (address : SH160) : AccountOp → StateCall D StateOutput
  | addBalance val => (fun _ => .done) <$> ZkTrieState.addBalance address val
  | subBalance val => (fun _ => .done) <$> ZkTrieState.subBalance address val
  | setNonce val => (fun _ => .done) <$> ZkTrieState.setNonce address val
  | getBalance => .balance <$> ZkTrieState.getBalance address
  | getNonce => .nonce <$> ZkTrieState.getNonce address
  | getAccountBasic => (fun (balance, nonce) => .basic balance nonce) <$> ZkTrieState.getAccountBasic address

def StateOp.run : StateOp → StateCall D StateOutput
  | access address op => op.run address
  | revert root => .reverted <$> ZkTrieState.revert root
  | flush => .root <$> ZkTrieState.flush

def StateOp.runAll :
    List StateOp → ZkTrieState D → List (Except (Fault StateError) StateOutput) × ZkTrieState D
  | [], s => ([], s)
  | op :: ops, s =>
    match op.run s with
    | (.error .panic, s) => ([.error .panic], s)
    | (result, s) => (result :: (runAll ops s).1, (runAll ops s).2)

end Run

def Reverts (roots : Set SH256) : List StateOp → List (Except (Fault StateError) StateOutput) → Prop
  | [], _ => True
  | .access _ _ :: ops, results => Reverts roots ops results.tail
  | .revert root :: ops, results => root ∈ roots ∧ Reverts roots ops results.tail
  | .flush :: ops, results => Reverts (roots ∪ {root | results.head? = some (.ok (.root root))}) ops results.tail

namespace AccountOp

/-- What the call answers for an account, and the account it writes, if it writes one; `none` where
its arithmetic is out of range. -/
def effect : AccountOp → ZkStateAccount → Option (StateOutput × Option ZkStateAccount)
  | addBalance val, acc =>
    if acc.balance.toNat + val.toNat < 2 ^ 256 then
      some (.done, some { acc with balance := acc.balance + val })
    else none
  | subBalance val, acc =>
    if val.toNat ≤ acc.balance.toNat then some (.done, some { acc with balance := acc.balance - val })
    else none
  | setNonce val, acc =>
    if val.toNat < 2 ^ 64 then
      some (.done, if acc.nonce.toNat = val.toNat then none
        else some { acc with nonce := UInt64.ofNat val.toNat })
    else none
  | getBalance, acc => some (.balance acc.balance, none)
  | getNonce, acc => some (.nonce acc.nonce, none)
  | getAccountBasic, acc => some (.basic acc.balance acc.nonce, none)

def writes : AccountOp → ℕ
  | addBalance _ => 1
  | subBalance _ => 1
  | setNonce _ => 1
  | _ => 0

end AccountOp

def StateOp.writes : StateOp → ℕ
  | access _ op => op.writes
  | _ => 0

def applied : List (Bytes × Bytes) → (SH160 → Bytes) → SH160 → Bytes
  | [], content => content
  | (item, data) :: updates, content =>
    applied updates fun a => if SH160.bytes a = item then data else content a

theorem applied_not_mem {updates : List (Bytes × Bytes)} {a : SH160}
    (ha : SH160.bytes a ∉ updates.map Prod.fst) (content : SH160 → Bytes) :
    applied updates content a = content a := by
  induction updates generalizing content with
  | nil => rfl
  | cons u updates ih =>
    rw [List.map_cons, List.mem_cons, not_or] at ha
    rw [applied, ih ha.2]
    exact if_neg ha.1

theorem applied_mem {updates : List (Bytes × Bytes)} {a : SH160} {data : Bytes}
    (hnodup : (updates.map Prod.fst).Nodup) (hmem : (SH160.bytes a, data) ∈ updates)
    (content : SH160 → Bytes) : applied updates content a = data := by
  induction updates generalizing content with
  | nil => cases hmem
  | cons u updates ih =>
    rw [List.map_cons, List.nodup_cons] at hnodup
    rcases List.mem_cons.mp hmem with rfl | hmem
    · rw [applied, applied_not_mem hnodup.1]
      exact if_pos rfl
    · exact ih hnodup.2 hmem _

/-- A plain map of accounts over what the trie holds; `none` where the bytes are no account. -/
structure Plain where
  trie : SH160 → Bytes
  accounts : SH160 → Option ZkStateAccount
  /-- Written since the last flush. -/
  written : Set SH160
  known : Set (SH256 × (SH160 → Bytes))

namespace Plain

variable [TrieHash] [KeccakHash]

def ofTrie (trie : SH160 → Bytes) (known : Set (SH256 × (SH160 → Bytes))) : Plain :=
  ⟨trie, fun a => ZkStateAccount.fromBytes (trie a), ∅, known⟩

def write (a : SH160) (acc : ZkStateAccount) (p : Plain) : Plain :=
  { p with accounts := Function.update p.accounts a (some acc), written := insert a p.written }

open Classical in
noncomputable def flushed (p : Plain) (a : SH160) : Bytes :=
  if a ∈ p.written then
    match p.accounts a with
    | some acc => if acc = ZkStateAccount.default then [] else acc.layout
    | none => p.trie a
  else p.trie a

noncomputable def flush (root : SH256) (p : Plain) : Plain :=
  ⟨p.flushed, p.accounts, ∅, insert (root, p.flushed) p.known⟩

inductive Step : Plain → StateOp → Option StateOutput → Plain → Prop
  | malformed {p a op} : p.accounts a = none → Step p (.access a op) none p
  | overflow {p a op acc} : p.accounts a = some acc → op.effect acc = none → Step p (.access a op) none p
  | read {p a op acc out} :
    p.accounts a = some acc → op.effect acc = some (out, none) → Step p (.access a op) (some out) p
  | write {p a op acc out acc'} :
    p.accounts a = some acc → op.effect acc = some (out, some acc') →
      Step p (.access a op) (some out) (p.write a acc')
  | revert {p root content} (changed : Bool) :
    (root, content) ∈ p.known →
      Step p (.revert root) (some (.reverted changed)) (ofTrie content p.known)
  | flush {p} (root : SH256) : Step p .flush (some (.root root)) (p.flush root)

/-- The answers of the plain map; `none` is the panic of a call, after which no other is made. -/
inductive Runs : Plain → List StateOp → List (Option StateOutput) → Plain → Prop
  | nil {p} : Runs p [] [] p
  | panic {p op ops q} : Step p op none q → Runs p (op :: ops) [none] q
  | cons {p op ops out q outs r} :
    Step p op (some out) q → Runs q ops outs r → Runs p (op :: ops) (some out :: outs) r

end Plain

section ActsAsMap

variable {D ε : Type} [RawTrie D ε]

/-- The trie behaves as a map: at every root in `Trees n db` it holds that map, and `db` takes `n` more
writes. A bound is needed, since there are only so many roots. -/
structure ActsAsMap (Trees : ℕ → D → SH256 → (SH160 → Bytes) → Prop) : Prop where
  read : ∀ {n db root content} (a : SH160), Trees n db root content →
    ∃ v, RawTrie.read (SH160.bytes a) (⟨⟨root⟩, db⟩ : Session D) = .ok v ∧ v.getD [] = content a
  put : ∀ {n db root content} (a : SH160) {data : Bytes}, Trees (n + 1) db root content → data ≠ [] →
    ∃ root' db', (RawTrie.put (SH160.bytes a) data).Returns (⟨⟨root⟩, db⟩ : Session D) () ⟨⟨root'⟩, db'⟩ ∧
      Trees n db' root' (Function.update content a data) ∧
      ∀ r c, Trees (n + 1) db r c → Trees n db' r c
  remove : ∀ {n db root content} (a : SH160), Trees (n + 1) db root content →
    ∃ root' db', (RawTrie.remove (SH160.bytes a)).Returns (⟨⟨root⟩, db⟩ : Session D) () ⟨⟨root'⟩, db'⟩ ∧
      Trees n db' root' (Function.update content a []) ∧
      ∀ r c, Trees (n + 1) db r c → Trees n db' r c

namespace ActsAsMap

variable {Trees : ℕ → D → SH256 → (SH160 → Bytes) → Prop} {n : ℕ} {db : D} {root : SH256}
  {content : SH160 → Bytes}

theorem unique (h : ActsAsMap Trees) {content' : SH160 → Bytes} (ht : Trees n db root content)
    (ht' : Trees n db root content') : content = content' := by
  funext a
  obtain ⟨v, hv, hc⟩ := h.read a ht
  obtain ⟨v', hv', hc'⟩ := h.read a ht'
  cases Except.ok.inj (hv.symm.trans hv')
  exact hc.symm.trans hc'

variable [TrieHash] [KeccakHash]

theorem write (h : ActsAsMap Trees) (ht : Trees (n + 1) db root content) (a : SH160)
    (acc : ZkStateAccount) :
    ∃ root' db', (ZkTrie.write (SH160.bytes a) acc.encode).Returns (⟨⟨root⟩, db⟩ : Session D) .success
        ⟨⟨root'⟩, db'⟩ ∧
      Trees n db' root' (Function.update content a acc.encode) ∧
      ∀ r c, Trees (n + 1) db r c → Trees n db' r c := by
  have hlog {s : Session D} : ∃ v, (Action.lift (if acc.encode.length = 192 then
      (orPanic (ZkStateAccount.fromBytes acc.encode)).map some else .ok none) :
        Action (Session D) (Fault ε) _).Returns s v s := by
    split_ifs
    · rw [ZkStateAccount.fromBytes_encode]
      exact ⟨_, rfl⟩
    · exact ⟨_, rfl⟩
  obtain ⟨v, hv⟩ := hlog (s := ⟨⟨root⟩, db⟩)
  by_cases hlen : acc.encode.length = 0
  · obtain ⟨root', db', hret, htrees⟩ := h.remove a ht
    refine ⟨root', db', ?_, ?_⟩
    · unfold ZkTrie.write
      apply hv.bind
      rw [if_pos hlen]
      exact hret.bind (Action.Returns.pure _ _)
    · have hnil : acc.encode = [] := List.length_eq_zero_iff.mp hlen
      rwa [hnil]
  · obtain ⟨root', db', hret, htrees⟩ := h.put a ht (fun hnil => hlen (List.length_eq_zero_iff.mpr hnil))
    refine ⟨root', db', ?_, htrees⟩
    unfold ZkTrie.write
    apply hv.bind
    rw [if_neg hlen]
    exact hret.bind (Action.Returns.pure _ _)

theorem writes (h : ActsAsMap Trees) {updates : List (Bytes × Bytes)}
    (hform : ∀ u ∈ updates, ∃ (a : SH160) (acc : ZkStateAccount), u = (SH160.bytes a, acc.encode))
    (ht : Trees (n + updates.length) db root content) :
    ∃ root' db', (ZkTrie.writes updates).Returns (⟨⟨root⟩, db⟩ : Session D)
        (List.replicate updates.length .success) ⟨⟨root'⟩, db'⟩ ∧
      Trees n db' root' (applied updates content) ∧
      ∀ r c, Trees (n + updates.length) db r c → Trees n db' r c := by
  induction updates generalizing root db content with
  | nil => exact ⟨root, db, rfl, ht, fun _ _ => id⟩
  | cons u updates ih =>
    obtain ⟨a, acc, rfl⟩ := hform u List.mem_cons_self
    obtain ⟨root₁, db₁, hwrite, htrees₁, hkeep₁⟩ := h.write ht a acc
    have happly : Function.update content a acc.encode =
        fun b => if SH160.bytes b = SH160.bytes a then acc.encode else content b := by
      funext b
      rw [Function.update_apply]
      exact if_congr ⟨congrArg _, SH160.bytes_injective⟩ rfl rfl
    rw [happly] at htrees₁
    obtain ⟨root₂, db₂, hwrites, htrees₂, hkeep₂⟩ :=
      ih (fun u hu => hform u (List.mem_cons_of_mem _ hu)) htrees₁
    refine ⟨root₂, db₂, ?_, htrees₂, fun r c hc => hkeep₂ r c (hkeep₁ r c hc)⟩
    exact hwrite.bind (hwrites.bind (Action.Returns.pure _ _))

theorem get [Debug ε] (h : ActsAsMap Trees) (ht : Trees n db root content) (a : SH160) :
    Trie.get (⟨⟨root⟩⟩ : ZkTrie D) (CacheKey.bytes a) db = (.ok (content a), db) := by
  obtain ⟨v, hv, hc⟩ := h.read a ht
  change ZkTrie.get _ _ _ = _
  rw [ZkTrie.get]
  change (((RawTrie.read (SH160.bytes a) (⟨⟨root⟩, db⟩ : Session D)).map _).mapError _, db) = _
  rw [hv, ← hc]
  rfl

end ActsAsMap

end ActsAsMap

/-- The state holds the plain map: what is cached is what the map holds, what is not is in the trie, and
what was written is dirty. -/
structure Overlay {D : Type} [TrieHash] [KeccakHash] (Trees : ℕ → D → SH256 → (SH160 → Bytes) → Prop)
    (n : ℕ) (s : ZkTrieState D) (p : Plain) : Prop where
  trees : ∃ m, n + s.accCache.dirty.length ≤ m ∧ Trees m s.db s.accCache.raw.raw.rootHash p.trie ∧
    ∀ r c, (r, c) ∈ p.known → Trees m s.db r c
  nodup : s.accCache.dirty.Nodup
  dirty : ∀ a, a ∈ s.accCache.dirty ↔ a ∈ p.written
  cached : ∀ a acc, s.accCache.cache a = some acc → p.accounts a = some acc
  lazy : ∀ a, s.accCache.cache a = none → a ∉ p.written
  unwritten : ∀ a, a ∉ p.written → p.accounts a = ZkStateAccount.fromBytes (p.trie a)

theorem load_account [TrieHash] [KeccakHash] (data : Bytes) :
    (TrieCache.load data : Except (Fault String) ZkStateAccount) =
      orPanic (ZkStateAccount.fromBytes data) := by
  unfold TrieCache.load
  split_ifs with hlen
  · rw [List.length_eq_zero_iff.mp hlen]
    rfl
  · change ZkStateAccount.decode data = _
    unfold ZkStateAccount.decode
    cases ZkStateAccount.fromBytes data <;> rfl

namespace Overlay

variable {D ε : Type} [RawTrie D ε] [Debug ε] [TrieHash] [KeccakHash]
  {Trees : ℕ → D → SH256 → (SH160 → Bytes) → Prop} {n : ℕ} {s : ZkTrieState D} {p : Plain}

omit [RawTrie D ε] [Debug ε] in
theorem mono {m : ℕ} (h : Overlay Trees n s p) (hm : m ≤ n) : Overlay Trees m s p := by
  obtain ⟨k, hk, htrees⟩ := h.trees
  exact { h with trees := ⟨k, by omega, htrees⟩ }

theorem withKey {O : Type} (h : Overlay Trees n s p) (hmap : ActsAsMap Trees) (a : SH160)
    (f : ZkStateAccount → Except (Fault String) (O × ZkStateAccount × Bool)) :
    TrieCache.withKey a f (s.accCache, s.db) =
      match p.accounts a with
      | none => (.error .panic, s.accCache, s.db)
      | some acc => TrieCache.visit a f acc
          { s.accCache with cache := Function.update s.accCache.cache a (some acc) } s.db := by
  unfold TrieCache.withKey
  cases hc : s.accCache.cache a with
  | some acc =>
    have hself : Function.update s.accCache.cache a (some acc) = s.accCache.cache := by
      rw [← hc, Function.update_eq_self]
    simp only [hc, h.cached a acc hc, hself]
  | none =>
    obtain ⟨m, _, htrie, _⟩ := h.trees
    have hget : Trie.get s.accCache.raw (CacheKey.bytes a) s.db = (.ok (p.trie a), s.db) := hmap.get htrie a
    simp only [hc, hget, load_account, h.unwritten a (h.lazy a hc)]
    cases ZkStateAccount.fromBytes (p.trie a) <;> rfl

omit [RawTrie D ε] [Debug ε] in
/-- An account that was only read is cached. -/
theorem remember {a : SH160} {acc : ZkStateAccount} (h : Overlay Trees n s p)
    (ha : p.accounts a = some acc) :
    Overlay Trees n
      ⟨s.db, { s.accCache with cache := Function.update s.accCache.cache a (some acc) }⟩ p where
  trees := h.trees
  nodup := h.nodup
  dirty := h.dirty
  cached := by
    intro b acc' hb
    by_cases hab : b = a
    · subst hab
      simp only [Function.update_self, Option.some.injEq] at hb
      rw [ha, hb]
    · simp only [Function.update_of_ne hab] at hb
      exact h.cached b acc' hb
  lazy := by
    intro b hb
    by_cases hab : b = a
    · subst hab
      simp only [Function.update_self, reduceCtorEq] at hb
    · simp only [Function.update_of_ne hab] at hb
      exact h.lazy b hb
  unwritten := h.unwritten

omit [RawTrie D ε] [Debug ε] in
theorem write (a : SH160) (acc : ZkStateAccount) (h : Overlay Trees (n + 1) s p) :
    Overlay Trees n
      ⟨s.db, ⟨s.accCache.raw, Function.update s.accCache.cache a (some acc),
        TrieCache.insertDirty a s.accCache.dirty⟩⟩ (p.write a acc) where
  trees := by
    obtain ⟨m, hm, htrees⟩ := h.trees
    have hlen := TrieCache.length_insertDirty a s.accCache.dirty
    refine ⟨m, ?_, htrees⟩
    simp only
    omega
  nodup := TrieCache.nodup_insertDirty h.nodup
  dirty := by
    intro b
    rw [TrieCache.mem_insertDirty, h.dirty]
    rfl
  cached := by
    intro b acc' hb
    by_cases hab : b = a
    · subst hab
      simp only [Function.update_self, Option.some.injEq] at hb
      simp only [Plain.write, Function.update_self, hb]
    · simp only [Function.update_of_ne hab] at hb
      simp only [Plain.write, Function.update_of_ne hab]
      exact h.cached b acc' hb
  lazy := by
    intro b hb
    by_cases hab : b = a
    · subst hab
      simp only [Function.update_self, reduceCtorEq] at hb
    · simp only [Function.update_of_ne hab] at hb
      rintro (rfl | hw)
      · exact hab rfl
      · exact h.lazy b hb hw
  unwritten := by
    intro b hb
    have hb' : b ≠ a ∧ b ∉ p.written := by
      rwa [Plain.write, Set.mem_insert_iff, not_or] at hb
    simp only [Plain.write, Function.update_of_ne hb'.1]
    exact h.unwritten b hb'.2

theorem withAcc_panics {O : Type} {a : SH160}
    {f : ZkStateAccount → Except (Fault String) (O × ZkStateAccount × Bool)} (h : Overlay Trees n s p)
    (hmap : ActsAsMap Trees) (hf : ∀ acc, p.accounts a = some acc → f acc = .error .panic) :
    (ZkTrieState.withAcc a f s).1 = .error .panic := by
  unfold ZkTrieState.withAcc Action.mapError Action.zoom
  simp only [h.withKey hmap]
  cases ha : p.accounts a with
  | none => rfl
  | some acc =>
    simp only [TrieCache.visit, hf acc ha]
    rfl

theorem withAcc_reads {O : Type} {a : SH160} {acc : ZkStateAccount} {out : O}
    {f : ZkStateAccount → Except (Fault String) (O × ZkStateAccount × Bool)} (h : Overlay Trees n s p)
    (hmap : ActsAsMap Trees) (ha : p.accounts a = some acc) (hf : f acc = .ok (out, acc, false)) :
    ∃ s', (ZkTrieState.withAcc a f).Returns s out s' ∧ Overlay Trees n s' p := by
  refine ⟨_, ?_, h.remember ha⟩
  unfold Action.Returns ZkTrieState.withAcc Action.mapError Action.zoom
  simp only [h.withKey hmap, ha, TrieCache.visit, hf, Function.update_idem]
  rfl

theorem withAcc_writes {O : Type} {a : SH160} {acc acc' : ZkStateAccount} {out : O}
    {f : ZkStateAccount → Except (Fault String) (O × ZkStateAccount × Bool)}
    (h : Overlay Trees (n + 1) s p) (hmap : ActsAsMap Trees) (ha : p.accounts a = some acc)
    (hf : f acc = .ok (out, acc', true)) :
    ∃ s', (ZkTrieState.withAcc a f).Returns s out s' ∧ Overlay Trees n s' (p.write a acc') := by
  refine ⟨_, ?_, h.write a acc'⟩
  unfold Action.Returns ZkTrieState.withAcc Action.mapError Action.zoom
  simp only [h.withKey hmap, ha, TrieCache.visit, hf, Function.update_idem]
  rfl

end Overlay

section Access

variable {D ε : Type} [RawTrie D ε] [Debug ε] [TrieHash] [KeccakHash]

omit [TrieHash] [KeccakHash] in
theorem AccountOp.writes_of_effect {op : AccountOp} {acc acc' : ZkStateAccount} {out : StateOutput}
    (h : op.effect acc = some (out, some acc')) : op.writes = 1 := by
  cases op with
  | addBalance | subBalance | setNonce => rfl
  | getBalance | getNonce | getAccountBasic =>
    obtain ⟨_, ⟨⟩⟩ := Prod.mk.inj (Option.some.inj h)

def AccountOp.Closure {O : Type} (op : AccountOp) (g : O → StateOutput)
    (f : ZkStateAccount → Except (Fault String) (O × ZkStateAccount × Bool)) : Prop :=
  ∀ acc, match op.effect acc with
    | none => f acc = .error .panic
    | some (out, none) => ∃ o, f acc = .ok (o, acc, false) ∧ g o = out
    | some (out, some acc') => ∃ o, f acc = .ok (o, acc', true) ∧ g o = out

theorem AccountOp.exists_closure (a : SH160) (op : AccountOp) :
    ∃ (O : Type) (g : O → StateOutput)
      (f : ZkStateAccount → Except (Fault String) (O × ZkStateAccount × Bool)),
      (op.run a : StateCall D StateOutput) = g <$> ZkTrieState.withAcc a f ∧ op.Closure g f := by
  cases op with
  | addBalance val =>
    refine ⟨Unit, fun _ => .done, _, rfl, ?_⟩
    intro acc
    by_cases h : acc.balance.toNat + val.toNat < 2 ^ 256
    · simp only [effect, SU256.add, if_pos h]
      exact ⟨(), rfl, trivial⟩
    · simp only [effect, SU256.add, if_neg h]
      rfl
  | subBalance val =>
    refine ⟨Unit, fun _ => .done, _, rfl, ?_⟩
    intro acc
    by_cases h : val.toNat ≤ acc.balance.toNat
    · simp only [effect, SU256.sub, if_pos h]
      exact ⟨(), rfl, trivial⟩
    · simp only [effect, SU256.sub, if_neg h]
      rfl
  | setNonce val =>
    refine ⟨Unit, fun _ => .done, _, rfl, ?_⟩
    intro acc
    by_cases h : val.toNat < 2 ^ 64
    · have hnonce : acc.nonce.toNat = val.toNat ↔ acc.nonce = UInt64.ofNat val.toNat := by
        rw [← UInt64.toNat_inj, UInt64.toNat_ofNat', Nat.mod_eq_of_lt h]
      by_cases heq : acc.nonce = UInt64.ofNat val.toNat
      · simp only [effect, SU256.asU64, if_pos h, if_pos (hnonce.mpr heq), orPanic_some,
          ZkStateAccount.setNonce]
        refine ⟨(), ?_, trivial⟩
        exact congrArg (fun w => Except.ok ((), w)) (if_neg (not_not.mpr heq))
      · simp only [effect, SU256.asU64, if_pos h, if_neg (mt hnonce.mp heq), orPanic_some,
          ZkStateAccount.setNonce]
        refine ⟨(), ?_, trivial⟩
        exact congrArg (fun w => Except.ok ((), w)) (if_pos heq)
    · simp only [effect, SU256.asU64, if_neg h]
      rfl
  | getBalance => exact ⟨SU256, .balance, _, rfl, fun acc => ⟨acc.balance, rfl, rfl⟩⟩
  | getNonce => exact ⟨UInt64, .nonce, _, rfl, fun acc => ⟨acc.nonce, rfl, rfl⟩⟩
  | getAccountBasic =>
    exact ⟨SU256 × UInt64, fun (balance, nonce) => .basic balance nonce, _, rfl,
      fun acc => ⟨(acc.balance, acc.nonce), rfl, rfl⟩⟩

variable {Trees : ℕ → D → SH256 → (SH160 → Bytes) → Prop} {n : ℕ} {s : ZkTrieState D} {p : Plain}

theorem Overlay.access {op : AccountOp} (h : Overlay Trees (n + op.writes) s p) (hmap : ActsAsMap Trees)
    (a : SH160) :
    (∃ out p', p.Step (.access a op) (some out) p' ∧
      ∃ s', (op.run a).Returns s out s' ∧ Overlay Trees n s' p') ∨
    (p.Step (.access a op) none p ∧ (op.run a s).1 = .error .panic) := by
  obtain ⟨O, g, f, hrun, hf⟩ := op.exists_closure (D := D) a
  rw [hrun]
  have panics (hpanic : ∀ acc, p.accounts a = some acc → f acc = .error .panic) :
      ((g <$> ZkTrieState.withAcc a f : StateCall D StateOutput) s).1 = .error .panic := by
    rw [Action.map_apply, h.withAcc_panics hmap hpanic]
    rfl
  cases ha : p.accounts a with
  | none =>
    right
    refine ⟨.malformed ha, panics ?_⟩
    rw [ha]
    rintro _ ⟨⟩
  | some acc =>
    have hacc := hf acc
    rcases he : op.effect acc with _ | ⟨out, _ | acc'⟩
    · right
      rw [he] at hacc
      refine ⟨.overflow ha he, panics ?_⟩
      rw [ha]
      rintro _ ⟨⟩
      exact hacc
    · left
      rw [he] at hacc
      obtain ⟨o, hfacc, rfl⟩ := hacc
      obtain ⟨s', hret, hov⟩ := (h.mono (Nat.le_add_right n op.writes)).withAcc_reads hmap ha hfacc
      exact ⟨g o, p, .read ha he, s', hret.map g, hov⟩
    · left
      rw [he] at hacc
      obtain ⟨o, hfacc, rfl⟩ := hacc
      rw [AccountOp.writes_of_effect he] at h
      obtain ⟨s', hret, hov⟩ := h.withAcc_writes hmap ha hfacc
      exact ⟨g o, p.write a acc', .write ha he, s', hret.map g, hov⟩

end Access

namespace Overlay

variable {D ε : Type} [RawTrie D ε] [Debug ε] [TrieHash] [KeccakHash]
  {Trees : ℕ → D → SH256 → (SH160 → Bytes) → Prop} {n : ℕ} {s : ZkTrieState D} {p : Plain}

omit [RawTrie D ε] [Debug ε] in
theorem fresh {m : ℕ} {db : D} {raw : ZkTrie D} {content : SH160 → Bytes}
    {known : Set (SH256 × (SH160 → Bytes))} (hm : n ≤ m) (htrie : Trees m db raw.raw.rootHash content)
    (hknown : ∀ r c, (r, c) ∈ known → Trees m db r c) :
    Overlay Trees n ⟨db, TrieCache.new raw⟩ (Plain.ofTrie content known) where
  trees := ⟨m, hm, htrie, hknown⟩
  nodup := List.nodup_nil
  dirty := fun _ => iff_of_false List.not_mem_nil id
  cached := fun _ _ ha => nomatch ha
  lazy := fun _ _ => id
  unwritten := fun _ _ => rfl

theorem revert {root : SH256} {content : SH160 → Bytes} (h : Overlay Trees n s p)
    (hmap : ActsAsMap Trees) (hroot : (root, content) ∈ p.known) :
    ∃ changed s', (ZkTrieState.revert root).Returns s changed s' ∧
      Overlay Trees n s' (Plain.ofTrie content p.known) := by
  obtain ⟨m, hm, htrie, hknown⟩ := h.trees
  by_cases hsame : s.accCache.rootHash = root ∧ s.accCache.dirty.length = 0
  · have hclean : ∀ a, a ∉ p.written := by
      intro a ha
      rw [← h.dirty, List.length_eq_zero_iff.mp hsame.2] at ha
      cases ha
    have hcontent : content = p.trie := by
      apply hmap.unique (hknown root content hroot)
      rwa [← hsame.1]
    refine ⟨false, s, ?_, ?_⟩
    · unfold Action.Returns ZkTrieState.revert TrieCache.revert
      rw [if_pos hsame]
    · subst hcontent
      exact {
        trees := ⟨m, hm, htrie, hknown⟩
        nodup := h.nodup
        dirty := fun a => by
          rw [h.dirty]
          exact iff_of_false (hclean a) id
        cached := fun a acc ha => by
          rw [← h.cached a acc ha]
          exact (h.unwritten a (hclean a)).symm
        lazy := fun _ _ => id
        unwritten := fun _ _ => rfl }
  · refine ⟨true, ⟨s.db, TrieCache.new (ZkTrie.new root)⟩, ?_,
      fresh (m := m) (by omega) (hknown root content hroot) hknown⟩
    unfold Action.Returns ZkTrieState.revert TrieCache.revert
    rw [if_neg hsame]
    rfl

omit [RawTrie D ε] [Debug ε] in
theorem cache_of_written {a : SH160} (h : Overlay Trees n s p) (ha : a ∈ p.written) :
    ∃ acc, s.accCache.cache a = some acc ∧ p.accounts a = some acc := by
  cases hc : s.accCache.cache a with
  | none => exact absurd ha (h.lazy a hc)
  | some acc => exact ⟨acc, rfl, h.cached a acc hc⟩

omit [RawTrie D ε] [Debug ε] in
theorem mem_updates {u : Bytes × Bytes} (h : Overlay Trees n s p) :
    u ∈ s.accCache.updates ↔
      ∃ a acc, a ∈ p.written ∧ p.accounts a = some acc ∧ u = (SH160.bytes a, acc.encode) := by
  unfold TrieCache.updates
  rw [List.mem_map]
  constructor
  · rintro ⟨a, ha, rfl⟩
    rw [h.dirty] at ha
    obtain ⟨acc, hc, hacc⟩ := h.cache_of_written ha
    refine ⟨a, acc, ha, hacc, ?_⟩
    rw [hc]
    rfl
  · rintro ⟨a, acc, ha, hacc, rfl⟩
    refine ⟨a, (h.dirty a).mpr ha, ?_⟩
    obtain ⟨acc', hc, hacc'⟩ := h.cache_of_written ha
    rw [hc, Option.some.inj (hacc.symm.trans hacc')]
    rfl

omit [RawTrie D ε] [Debug ε] in
theorem applied_updates {updates : List (Bytes × Bytes)} (h : Overlay Trees n s p)
    (hperm : updates.Perm s.accCache.updates) : applied updates p.trie = p.flushed := by
  have hkeys : (updates.map Prod.fst).Nodup := by
    rw [(hperm.map Prod.fst).nodup_iff]
    have hfst : s.accCache.updates.map Prod.fst = s.accCache.dirty.map SH160.bytes := by
      unfold TrieCache.updates
      rw [List.map_map]
      rfl
    rw [hfst]
    exact h.nodup.map fun _ _ => SH160.bytes_injective
  funext a
  unfold Plain.flushed
  by_cases ha : a ∈ p.written
  · obtain ⟨acc, _, hacc⟩ := h.cache_of_written ha
    have hmem : (SH160.bytes a, acc.encode) ∈ updates :=
      hperm.mem_iff.mpr (h.mem_updates.mpr ⟨a, acc, ha, hacc, rfl⟩)
    rw [applied_mem hkeys hmem, if_pos ha, hacc]
    rfl
  · rw [applied_not_mem, if_neg ha]
    intro hmem
    obtain ⟨u, hu, hfst⟩ := List.mem_map.mp hmem
    obtain ⟨b, acc, hb, _, rfl⟩ := h.mem_updates.mp (hperm.mem_iff.mp hu)
    exact ha (SH160.bytes_injective hfst ▸ hb)

theorem update {m : ℕ} (h : Overlay Trees n s p) (hmap : ActsAsMap Trees)
    (htrie : Trees (m + s.accCache.dirty.length) s.db s.accCache.raw.raw.rootHash p.trie) :
    ∃ root db, Trie.update s.accCache.updates (s.accCache.raw, s.db) =
        (some (List.replicate s.accCache.dirty.length .success), (⟨⟨root⟩⟩ : ZkTrie D), db) ∧
      Trees m db root p.flushed ∧
      ∀ r c, Trees (m + s.accCache.dirty.length) s.db r c → Trees m db r c := by
  have hperm : (ZkTrie.sortUpdates s.accCache.updates).Perm s.accCache.updates :=
    List.mergeSort_perm _ _
  have hlen : (ZkTrie.sortUpdates s.accCache.updates).length = s.accCache.dirty.length := by
    rw [hperm.length_eq, TrieCache.updates, List.length_map]
  have hform : ∀ u ∈ ZkTrie.sortUpdates s.accCache.updates,
      ∃ (a : SH160) (acc : ZkStateAccount), u = (SH160.bytes a, acc.encode) := by
    intro u hu
    obtain ⟨a, acc, _, _, hu⟩ := h.mem_updates.mp (hperm.mem_iff.mp hu)
    exact ⟨a, acc, hu⟩
  rw [← hlen] at htrie ⊢
  obtain ⟨root, db, hwrites, htrees, hkeep⟩ := hmap.writes hform htrie
  refine ⟨root, db, ?_, ?_, hkeep⟩
  · change ZkTrie.update _ _ = _
    unfold ZkTrie.update
    unfold Action.Returns at hwrites
    have hraw : (⟨s.accCache.raw.raw, s.db⟩ : Session D) = ⟨⟨s.accCache.raw.raw.rootHash⟩, s.db⟩ := rfl
    simp only [hraw, hwrites]
    rfl
  · rwa [h.applied_updates hperm] at htrees

end Overlay

theorem settle_success {K : Type} [DecidableEq K] (keys : List K) :
    TrieCache.settle ((List.replicate keys.length TrieUpdate.success).zip keys) keys [] = ([], []) := by
  induction keys with
  | nil => rfl
  | cons k keys ih =>
    change TrieCache.settle _ ((k :: keys).erase k) [] = _
    rw [List.erase_cons_head]
    exact ih

namespace Overlay

variable {D ε : Type} [RawTrie D ε] [Debug ε] [TrieHash] [KeccakHash]
  {Trees : ℕ → D → SH256 → (SH160 → Bytes) → Prop} {n : ℕ} {s : ZkTrieState D} {p : Plain}

theorem flush (h : Overlay Trees n s p) (hmap : ActsAsMap Trees) :
    ∃ root s', ZkTrieState.flush.Returns s root s' ∧ s'.accCache.raw.raw.rootHash = root ∧
      Overlay Trees n s' (p.flush root) := by
  obtain ⟨m, hm, htrie, hknown⟩ := h.trees
  obtain ⟨k, rfl⟩ : ∃ k, m = k + s.accCache.dirty.length := ⟨m - s.accCache.dirty.length, by omega⟩
  obtain ⟨root, db, hupdate, htrees, hkeep⟩ := h.update hmap htrie
  refine ⟨root, ⟨db, ⟨⟨⟨root⟩⟩, s.accCache.cache, []⟩⟩, ?_, rfl, ?_⟩
  · unfold Action.Returns ZkTrieState.flush TrieCache.flush
    simp only [hupdate, List.length_replicate, if_true, settle_success]
    rfl
  · exact {
      trees := by
        refine ⟨k, by simpa using by omega, htrees, ?_⟩
        rintro r c (⟨rfl, rfl⟩ | hc)
        · exact htrees
        · exact hkeep r c (hknown r c hc)
      nodup := List.nodup_nil
      dirty := fun _ => iff_of_false List.not_mem_nil id
      cached := h.cached
      lazy := fun _ _ => id
      unwritten := by
        intro a _
        change p.accounts a = ZkStateAccount.fromBytes (p.flushed a)
        unfold Plain.flushed
        by_cases ha : a ∈ p.written
        · obtain ⟨acc, _, hacc⟩ := h.cache_of_written ha
          rw [if_pos ha, hacc]
          exact (ZkStateAccount.fromBytes_encode acc).symm
        · rw [if_neg ha]
          exact h.unwritten a ha }

theorem step {op : StateOp} (h : Overlay Trees (n + op.writes) s p) (hmap : ActsAsMap Trees)
    (hroot : ∀ root, op = .revert root → ∃ content, (root, content) ∈ p.known) :
    (∃ out p', p.Step op (some out) p' ∧ ∃ s', op.run.Returns s out s' ∧ Overlay Trees n s' p') ∨
    (p.Step op none p ∧ (op.run s).1 = .error .panic) := by
  cases op with
  | access a op => exact access h hmap a
  | revert root =>
    left
    obtain ⟨content, hcontent⟩ := hroot root rfl
    obtain ⟨changed, s', hret, hov⟩ := h.revert hmap hcontent
    exact ⟨_, _, .revert changed hcontent, s', hret.map _, hov⟩
  | flush =>
    left
    obtain ⟨root, s', hret, _, hov⟩ := h.flush hmap
    exact ⟨_, _, .flush root, s', hret.map _, hov⟩

omit [RawTrie D ε] [Debug ε] in
theorem known_roots {op : StateOp} {ops : List StateOp} {out : StateOutput}
    {results : List (Except (Fault StateError) StateOutput)} {roots : Set SH256} {p' : Plain}
    (hstep : p.Step op (some out) p') (hroots : ∀ root ∈ roots, ∃ content, (root, content) ∈ p.known)
    (hrev : Reverts roots (op :: ops) (.ok out :: results)) :
    ∃ roots', (∀ root ∈ roots', ∃ content, (root, content) ∈ p'.known) ∧ Reverts roots' ops results := by
  cases hstep with
  | read | write => exact ⟨roots, hroots, hrev⟩
  | revert => exact ⟨roots, hroots, hrev.2⟩
  | flush root =>
    refine ⟨_, ?_, hrev⟩
    rintro r (hr | hr)
    · obtain ⟨content, hcontent⟩ := hroots r hr
      exact ⟨content, Set.mem_insert_of_mem _ hcontent⟩
    · cases hr
      exact ⟨p.flushed, Set.mem_insert _ _⟩

theorem run {ops : List StateOp} {roots : Set SH256} (h : Overlay Trees (ops.map StateOp.writes).sum s p)
    (hmap : ActsAsMap Trees) (hroots : ∀ root ∈ roots, ∃ content, (root, content) ∈ p.known)
    (hrev : Reverts roots ops (StateOp.runAll ops s).1) :
    ∃ outs p', p.Runs ops outs p' ∧ (StateOp.runAll ops s).1 = outs.map orPanic ∧
      (none ∉ outs → Overlay Trees 0 (StateOp.runAll ops s).2 p') := by
  induction ops generalizing s p roots with
  | nil => exact ⟨[], p, .nil, rfl, fun _ => h⟩
  | cons op ops ih =>
    rw [List.map_cons, List.sum_cons, Nat.add_comm] at h
    have hroot : ∀ root, op = .revert root → ∃ content, (root, content) ∈ p.known := by
      rintro root rfl
      exact hroots root hrev.1
    rcases h.step hmap hroot with ⟨out, p', hstep, s', hret, hov⟩ | ⟨hstep, hpanic⟩
    · have hrun : StateOp.runAll (op :: ops) s =
          (.ok out :: (StateOp.runAll ops s').1, (StateOp.runAll ops s').2) := by
        rw [StateOp.runAll, hret]
      rw [hrun] at hrev ⊢
      obtain ⟨roots', hroots', hrev'⟩ := known_roots hstep hroots hrev
      obtain ⟨outs, q, hruns, houts, hfinal⟩ := ih hov hroots' hrev'
      refine ⟨some out :: outs, q, .cons hstep hruns, congrArg _ houts, ?_⟩
      intro hnone
      exact hfinal (fun hmem => hnone (List.mem_cons_of_mem _ hmem))
    · have hrun : (StateOp.runAll (op :: ops) s).1 = [.error .panic] := by
        rw [StateOp.runAll]
        rcases he : op.run s with ⟨r, t⟩
        rw [he] at hpanic
        cases hpanic
        rfl
      refine ⟨[none], p, .panic hstep, hrun, ?_⟩
      intro hnone
      exact absurd (List.mem_singleton_self _) hnone

end Overlay

section Overlays

variable {D ε : Type} [RawTrie D ε] [Debug ε] [TrieHash] [KeccakHash]

/-- Every run over a fresh account cache answers as the plain map does, and leaves in the trie what the
plain map holds there. -/
theorem StateOp.runAll_overlays {Trees : ℕ → D → SH256 → (SH160 → Bytes) → Prop} (hmap : ActsAsMap Trees)
    {n : ℕ} {db : D} {raw : ZkTrie D} {content : SH160 → Bytes} {known : Set (SH256 × (SH160 → Bytes))}
    (htrie : Trees n db raw.raw.rootHash content) (hknown : ∀ r c, (r, c) ∈ known → Trees n db r c)
    (ops : List StateOp) (hwrites : (ops.map StateOp.writes).sum ≤ n)
    (hrev : Reverts {r | ∃ c, (r, c) ∈ known} ops (runAll ops ⟨db, TrieCache.new raw⟩).1) :
    ∃ outs p, (Plain.ofTrie content known).Runs ops outs p ∧
      (runAll ops ⟨db, TrieCache.new raw⟩).1 = outs.map orPanic ∧
      (none ∉ outs → ∀ a,
        let s := (runAll ops ⟨db, TrieCache.new raw⟩).2
        Trie.get s.accCache.raw (CacheKey.bytes a) s.db = (.ok (p.trie a), s.db)) := by
  have hfresh := Overlay.fresh hwrites htrie hknown
  obtain ⟨outs, p, hruns, houts, hfinal⟩ := hfresh.run hmap (fun _ => id) hrev
  refine ⟨outs, p, hruns, houts, ?_⟩
  intro hnone a
  obtain ⟨m, _, htrees, _⟩ := (hfinal hnone).trees
  exact hmap.get htrees a

end Overlays

/-- A trie that keeps every version of the map; a root is the number of its version. -/
structure Versions where
  log : List (Bytes → Bytes)

namespace Versions

def put (key data : Bytes) : Action (Session Versions) (Fault String) Unit := fun s =>
  match s.db.log[s.trie.rootHash.toNat]? with
  | some content =>
    (.ok (), ⟨⟨BitVec.ofNat 256 s.db.log.length⟩, ⟨s.db.log ++ [Function.update content key data]⟩⟩)
  | none => (.error .panic, s)

instance : RawTrie Versions String where
  read key s :=
    match s.db.log[s.trie.rootHash.toNat]? with
    | some content => .ok (if content key = [] then none else some (content key))
    | none => .error .panic
  put := put
  remove key := put key []

instance : Debug String := ⟨id⟩

def Holds (n : ℕ) (db : Versions) (root : SH256) (content : SH160 → Bytes) : Prop :=
  db.log.length + n ≤ 2 ^ 256 ∧
    ∃ version, db.log[root.toNat]? = some version ∧ ∀ a, version (SH160.bytes a) = content a

theorem holds_put {n : ℕ} {db : Versions} {root : SH256} {content : SH160 → Bytes} (a : SH160)
    (data : Bytes) (h : Holds (n + 1) db root content) :
    ∃ root' db', (put (SH160.bytes a) data).Returns (⟨⟨root⟩, db⟩ : Session Versions) () ⟨⟨root'⟩, db'⟩ ∧
      Holds n db' root' (Function.update content a data) ∧
      ∀ r c, Holds (n + 1) db r c → Holds n db' r c := by
  obtain ⟨hroom, version, hversion, hcontent⟩ := h
  have hlen : (db.log ++ [Function.update version (SH160.bytes a) data]).length + n ≤ 2 ^ 256 := by
    rw [List.length_append, List.length_singleton]
    omega
  refine ⟨BitVec.ofNat 256 db.log.length, ⟨db.log ++ [Function.update version (SH160.bytes a) data]⟩,
    ?_, ⟨hlen, Function.update version (SH160.bytes a) data, ?_, ?_⟩, ?_⟩
  · unfold Action.Returns put
    simp only [hversion]
  · rw [BitVec.toNat_ofNat, Nat.mod_eq_of_lt (by omega), List.getElem?_concat_length]
  · intro b
    by_cases hb : b = a
    · subst hb
      rw [Function.update_self, Function.update_self]
    · rw [Function.update_of_ne hb, Function.update_of_ne (fun he => hb (SH160.bytes_injective he)),
        hcontent]
  · rintro r c ⟨_, v, hv, hc⟩
    refine ⟨hlen, v, ?_, hc⟩
    rw [List.getElem?_append_left (List.getElem?_eq_some_iff.mp hv).1, hv]

theorem actsAsMap : ActsAsMap Holds where
  read := by
    rintro n db root content a ⟨_, version, hversion, hcontent⟩
    refine ⟨if version (SH160.bytes a) = [] then none else some (version (SH160.bytes a)), ?_, ?_⟩
    · change (match db.log[root.toNat]? with
        | some content => Except.ok (if content _ = [] then none else some (content _))
        | none => Except.error Fault.panic) = _
      rw [hversion]
    · rw [← hcontent a]
      split_ifs with h
      · exact h.symm
      · rfl
  put a data h _ := holds_put a data h
  remove a h := holds_put a [] h

end Versions

theorem StateOp.runAll_overlays_versions :
    letI := residueHash
    letI : KeccakHash := ⟨fun _ => 0⟩
    let s : ZkTrieState Versions := ⟨⟨[fun _ => []]⟩, TrieCache.new ⟨⟨0⟩⟩⟩
    let ops := [.access 1 (.addBalance 5), .flush, .access 1 (.setNonce 7), .access 1 .getAccountBasic,
      .revert 0, .access 1 .getBalance]
    ∃ outs p, (Plain.ofTrie (fun _ => []) {(0, fun _ => [])}).Runs ops outs p ∧
      (runAll ops s).1 = outs.map orPanic ∧
      (none ∉ outs → ∀ a,
        Trie.get (runAll ops s).2.accCache.raw (CacheKey.bytes a) (runAll ops s).2.db =
          (.ok (p.trie a), (runAll ops s).2.db)) := by
  let := residueHash
  let : KeccakHash := ⟨fun _ => 0⟩
  have hempty : Versions.Holds 2 ⟨[fun _ => []]⟩ 0 (fun _ => []) :=
    ⟨by decide, fun _ => [], rfl, fun _ => rfl⟩
  apply runAll_overlays Versions.actsAsMap (n := 2) hempty
  · rintro r c hrc
    cases hrc
    exact hempty
  · decide
  · exact ⟨Or.inl ⟨_, rfl⟩, trivial⟩

end LineaSgxProver.Linea
