import LineaSgxProver.Linea.AccountOverlay

namespace LineaSgxProver.Linea

open Library Zktrie

namespace ZkTrieState

section Current

variable {D ε : Type} [RawTrie D ε] [Debug ε] [TrieHash] [KeccakHash]

def current (s : ZkTrieState D) (a : SH160) : Except (Fault String) ZkStateAccount :=
  match s.accCache.cache a with
  | some acc => .ok acc
  | none => (Trie.get s.accCache.raw (CacheKey.bytes a) s.db).1 >>= TrieCache.load

/-- A call that only reads answers from the current account, and leaves it in the cache. -/
theorem withAcc_returns {O : Type} {s : ZkTrieState D} {a : SH160} {acc : ZkStateAccount}
    (h : s.current a = .ok acc) (f : ZkStateAccount → O) :
    ∃ s', (withAcc a fun acc => .ok (f acc, acc, false)).Returns s (f acc) s' ∧
      s'.accCache.cache a = some acc := by
  unfold current at h
  unfold Action.Returns withAcc Action.mapError Action.zoom TrieCache.withKey
  cases hc : s.accCache.cache a with
  | some acc' =>
    rw [hc] at h
    obtain rfl := Except.ok.inj h
    simp only [hc, TrieCache.visit]
    exact ⟨_, rfl, Function.update_self ..⟩
  | none =>
    rw [hc] at h
    obtain ⟨data, hget, hload⟩ := bind_eq_ok.mp h
    rcases hdb : Trie.get s.accCache.raw (CacheKey.bytes a) s.db with ⟨r, db⟩
    rw [hdb] at hget
    obtain rfl : r = .ok data := hget
    simp only [hc, hdb, hload, TrieCache.visit]
    exact ⟨_, rfl, Function.update_self ..⟩

theorem exist_returns {s : ZkTrieState D} {a : SH160} {acc : ZkStateAccount} (h : s.current a = .ok acc) :
    ∃ s', (exist a).Returns s acc.isExist s' ∧ s'.accCache.cache a = some acc :=
  withAcc_returns h fun acc => acc.isExist

/-- The answer of `exist` is that the account differs from the default one, which is that a flush
would keep a leaf for it. -/
def ExistAgrees (s : ZkTrieState D) (a : SH160) : Prop :=
  ∃ acc b s', s.current a = .ok acc ∧ (exist a).Returns s b s' ∧
    (b = true ↔ acc ≠ ZkStateAccount.default) ∧ (b = true ↔ acc.encode ≠ [])

end Current

end ZkTrieState

theorem ZkStateAccount.encode_eq_nil [TrieHash] [KeccakHash] {acc : ZkStateAccount} :
    acc.encode = [] ↔ acc = ZkStateAccount.default := by
  unfold encode toBytes
  constructor
  · intro h
    split_ifs at h with hacc
    · exact hacc
    · exact absurd (congrArg List.length h) (by simp)
  · intro h
    rw [if_pos h]

namespace Overlay

variable {D ε : Type} [RawTrie D ε] [Debug ε] [TrieHash] [KeccakHash]
  {Trees : ℕ → D → SH256 → (SH160 → Bytes) → Prop} {n : ℕ} {s : ZkTrieState D} {p : Plain}

theorem current (h : Overlay Trees n s p) (hmap : ActsAsMap Trees) (a : SH160) :
    s.current a = orPanic (p.accounts a) := by
  unfold ZkTrieState.current
  cases hc : s.accCache.cache a with
  | some acc =>
    rw [h.cached a acc hc]
    rfl
  | none =>
    obtain ⟨m, _, htrie, _⟩ := h.trees
    have hget : Trie.get s.accCache.raw (CacheKey.bytes a) s.db = (.ok (p.trie a), s.db) := hmap.get htrie a
    simp only [hget, ok_bind, load_account, h.unwritten a (h.lazy a hc)]

end Overlay

section Never

variable {D ε : Type} [RawTrie D ε] [Debug ε] [TrieHash] [KeccakHash]

/-- After no run and for no account does `exist` agree: it answers that the account is the default
one, whose leaf a flush takes out. -/
theorem StateOp.exist_never_agrees (ops : List StateOp) (s₀ : ZkTrieState D) (a : SH160) :
    ¬ (runAll ops s₀).2.ExistAgrees a ∧
      ∀ acc, (runAll ops s₀).2.current a = .ok acc →
        ∃ b s', (ZkTrieState.exist a).Returns (runAll ops s₀).2 b s' ∧
          (b = true ↔ acc = ZkStateAccount.default) ∧ (b = true ↔ acc.encode = []) := by
  have hinverted : ∀ acc, (runAll ops s₀).2.current a = .ok acc →
      ∃ b s', (ZkTrieState.exist a).Returns (runAll ops s₀).2 b s' ∧
        (b = true ↔ acc = ZkStateAccount.default) ∧ (b = true ↔ acc.encode = []) := by
    intro acc hacc
    obtain ⟨s', hret, _⟩ := ZkTrieState.exist_returns hacc
    refine ⟨acc.isExist, s', hret, ?_, ?_⟩
    · unfold ZkStateAccount.isExist
      rw [decide_eq_true_iff]
    · rw [ZkStateAccount.encode_eq_nil]
      unfold ZkStateAccount.isExist
      rw [decide_eq_true_iff]
  refine ⟨?_, hinverted⟩
  rintro ⟨acc, b, s', hacc, hret, hdiffers, _⟩
  obtain ⟨b', s'', hret', hdefault, _⟩ := hinverted acc hacc
  obtain rfl : b = b' := Except.ok.inj (Prod.mk.inj (hret.symm.trans hret')).1
  by_cases h : acc = ZkStateAccount.default
  · exact hdiffers.mp (hdefault.mpr h) h
  · exact h (hdefault.mp (hdiffers.mpr h))

/-- Over a trie that acts as a map, `exist` tells in the end whether the plain map's account is the
default one. -/
theorem StateOp.runAll_exist {Trees : ℕ → D → SH256 → (SH160 → Bytes) → Prop} (hmap : ActsAsMap Trees)
    {n : ℕ} {db : D} {raw : ZkTrie D} {content : SH160 → Bytes} {known : Set (SH256 × (SH160 → Bytes))}
    (htrie : Trees n db raw.raw.rootHash content) (hknown : ∀ r c, (r, c) ∈ known → Trees n db r c)
    (ops : List StateOp) (hwrites : (ops.map StateOp.writes).sum ≤ n)
    (hrev : Reverts {r | ∃ c, (r, c) ∈ known} ops (runAll ops ⟨db, TrieCache.new raw⟩).1) :
    ∃ outs p, (Plain.ofTrie content known).Runs ops outs p ∧
      (none ∉ outs → ∀ a acc, p.accounts a = some acc → ∃ s',
        (ZkTrieState.exist a).Returns (runAll ops ⟨db, TrieCache.new raw⟩).2 acc.isExist s') := by
  have hfresh := Overlay.fresh hwrites htrie hknown
  obtain ⟨outs, p, hruns, _, hfinal⟩ := hfresh.run hmap (fun _ => id) hrev
  refine ⟨outs, p, hruns, ?_⟩
  intro hnone a acc hacc
  have hcurrent := (hfinal hnone).current hmap a
  rw [hacc] at hcurrent
  obtain ⟨s', hret, _⟩ := ZkTrieState.exist_returns hcurrent
  exact ⟨s', hret⟩

end Never

/-- An account with a balance does not exist, and one that was never written does. -/
theorem StateOp.exist_inverted :
    letI := residueHash
    letI : KeccakHash := ⟨fun _ => 0⟩
    let s : ZkTrieState Versions := ⟨⟨[fun _ => []]⟩, TrieCache.new ⟨⟨0⟩⟩⟩
    let ops := [.access 1 (.addBalance 5), .flush]
    ((runAll ops s).1.all Except.isOk = true) ∧
      ((ZkTrieState.exist 1 (runAll ops s).2).1.toOption = some false) ∧
      ((ZkTrieState.exist 2 (runAll ops s).2).1.toOption = some true) ∧
      ¬ (runAll ops s).2.ExistAgrees 1 := by
  let := residueHash
  let : KeccakHash := ⟨fun _ => 0⟩
  refine ⟨by decide +kernel, by decide +kernel, by decide +kernel, ?_⟩
  rintro ⟨acc, b, s', hacc, hret, hdiffers, _⟩
  have hcurrent : ((runAll [.access 1 (.addBalance 5), .flush]
      (⟨⟨[fun _ => []]⟩, TrieCache.new ⟨⟨0⟩⟩⟩ : ZkTrieState Versions)).2.current 1).toOption ≠
      some ZkStateAccount.default := by
    decide +kernel
  have hfalse : b = false := by
    have hb := congrArg (fun r => Except.toOption r.1) hret
    have hanswer : ((ZkTrieState.exist 1 (runAll [.access 1 (.addBalance 5), .flush]
        (⟨⟨[fun _ => []]⟩, TrieCache.new ⟨⟨0⟩⟩⟩ : ZkTrieState Versions)).2).1.toOption) = some false := by
      decide +kernel
    exact Option.some.inj (hb.symm.trans hanswer)
  have hdefault : acc = ZkStateAccount.default := by
    by_contra hne
    rw [hfalse] at hdiffers
    cases hdiffers.mpr hne
  apply hcurrent
  rw [hacc, hdefault]
  rfl

end LineaSgxProver.Linea
