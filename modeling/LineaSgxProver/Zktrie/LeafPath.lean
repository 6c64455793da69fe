import LineaSgxProver.Zktrie.Utils
import Mathlib.Data.List.Basic
import Mathlib.Data.UInt

namespace LineaSgxProver.Zktrie

theorem bits_getElem? {d k : ℕ} (hk : k < d) (n : ℕ) :
    (bits d n)[d - 1 - k]? = some (n.testBit k) := by
  induction d generalizing n k with
  | zero => omega
  | succ d ih =>
    cases k with
    | zero =>
      have hlast : d + 1 - 1 - 0 = (bits d (n / 2)).length := by simp
      rw [bits, hlast, List.getElem?_concat_length, Nat.testBit_zero]
      rfl
    | succ k =>
      have hpos : d + 1 - 1 - (k + 1) = d - 1 - k := by omega
      rw [bits, hpos, List.getElem?_append_left (by rw [bits_length]; omega), ih (by omega),
        Nat.testBit_succ]

theorem bits_eq_iff (d m n : ℕ) : bits d m = bits d n ↔ m % 2 ^ d = n % 2 ^ d := by
  constructor
  · intro h
    apply Nat.eq_of_testBit_eq
    intro k
    rw [Nat.testBit_mod_two_pow, Nat.testBit_mod_two_pow]
    by_cases hk : k < d
    · have hbit := bits_getElem? hk m
      rw [h, bits_getElem? hk n] at hbit
      rw [Option.some.inj hbit]
    · simp [hk]
  · intro h
    apply List.ext_getElem?
    intro j
    by_cases hj : j < d
    · have hpos : j = d - 1 - (d - 1 - j) := by omega
      have hk : d - 1 - j < d := by omega
      have hbit := congrArg (fun x => x.testBit (d - 1 - j)) h
      simp only [Nat.testBit_mod_two_pow, hk, decide_true, Bool.true_and] at hbit
      rw [hpos, bits_getElem? hk, bits_getElem? hk, hbit]
    · rw [List.getElem?_eq_none (by simpa using hj), List.getElem?_eq_none (by simpa using hj)]

theorem bitByte_injective : Function.Injective bitByte := by
  intro a b h
  cases a <;> cases b <;> simp [bitByte] at h ⊢

theorem leafPath_injective : Function.Injective leafPath := by
  intro p q h
  have hmap := List.append_cancel_right (List.cons.inj h).2
  exact bitByte_injective.list_map hmap

/-- A path that spells the whole index, its lowest bit at position 40. -/
structure Spells (path : Bytes) (idx : UInt64) : Prop where
  length : path.length = zkTrieDepth + 2
  root : path[0]? = some 1
  leaf : path[zkTrieDepth + 1]? = some LeafType.value
  bit : ∀ k < zkTrieDepth, path[zkTrieDepth - k]? = some (bitByte (idx.toNat.testBit k))
  whole : ∀ k, zkTrieDepth ≤ k → idx.toNat.testBit k = false

theorem spells_leafPath {idx : UInt64} (h : idx.toNat < 2 ^ zkTrieDepth) :
    Spells (leafPath (bits zkTrieDepth idx.toNat)) idx where
  length := by simp [leafPath]
  root := rfl
  leaf := by
    have hlen : zkTrieDepth + 1 = (1 :: (bits zkTrieDepth idx.toNat).map bitByte).length := by simp
    rw [leafPath, hlen, List.getElem?_concat_length]
  bit := by
    intro k hk
    have hpos : zkTrieDepth - k = zkTrieDepth - 1 - k + 1 := by omega
    rw [leafPath, hpos, List.cons_append, List.getElem?_cons_succ,
      List.getElem?_append_left (by rw [List.length_map, bits_length]; omega), List.getElem?_map,
      bits_getElem? hk, Option.map_some]
  whole := by
    intro k hk
    exact Nat.testBit_lt_two_pow (h.trans_le (Nat.pow_le_pow_right (by decide) hk))

/-- The cursor stays in the array, which a checked build shows, and the path is the index's own. -/
structure SafePath [Profile] (idx : UInt64) : Prop where
  checked : (@getLeafPath debugProfile idx).isSome = true
  spells : ∃ path, getLeafPath idx = some path ∧ Spells path idx

section Profile

variable [Profile]

theorem safePath_iff (idx : UInt64) : SafePath idx ↔ idx.toNat < 2 ^ zkTrieDepth := by
  constructor
  · intro h
    exact (@getLeafPath_isSome debugProfile idx).mp h.checked
  · intro h
    exact ⟨(@getLeafPath_isSome debugProfile idx).mpr h, _, getLeafPath_of_lt h, spells_leafPath h⟩

/-- Two indices with a path have the same one exactly when they agree on their forty low bits. -/
theorem getLeafPath_eq_iff {i j : UInt64} (hi : i.toNat < pathBound) (hj : j.toNat < pathBound) :
    getLeafPath i = getLeafPath j ↔ i.toNat % 2 ^ zkTrieDepth = j.toNat % 2 ^ zkTrieDepth := by
  obtain ⟨p, hp⟩ := Option.isSome_iff_exists.mp ((getLeafPath_isSome i).mpr hi)
  obtain ⟨q, hq⟩ := Option.isSome_iff_exists.mp ((getLeafPath_isSome j).mpr hj)
  rw [hp, hq, getLeafPath_some hp, getLeafPath_some hq, Option.some_inj, leafPath_injective.eq_iff,
    bits_eq_iff]

def Collide (i j : UInt64) : Prop := ∃ path, getLeafPath i = some path ∧ getLeafPath j = some path

theorem collide_iff (i j : UInt64) :
    Collide i j ↔ i.toNat < pathBound ∧ j.toNat < pathBound ∧
      i.toNat % 2 ^ zkTrieDepth = j.toNat % 2 ^ zkTrieDepth := by
  constructor
  · rintro ⟨path, hi, hj⟩
    have hib := (getLeafPath_isSome i).mp (Option.isSome_of_eq_some hi)
    have hjb := (getLeafPath_isSome j).mp (Option.isSome_of_eq_some hj)
    exact ⟨hib, hjb, (getLeafPath_eq_iff hib hjb).mp (hi.trans hj.symm)⟩
  · rintro ⟨hi, hj, hmod⟩
    obtain ⟨path, hpath⟩ := Option.isSome_iff_exists.mp ((getLeafPath_isSome i).mpr hi)
    exact ⟨path, hpath, (getLeafPath_eq_iff hi hj).mpr hmod ▸ hpath⟩

/-- A leaf path is safe below `2 ^ 40` only; two indices are given one path when the build lets the
cursor wrap, both have a path, and they agree on their forty low bits. -/
theorem leafPath_safe_iff :
    (∀ i, SafePath i ↔ i.toNat < 2 ^ zkTrieDepth) ∧
      ∀ i j : UInt64, (i ≠ j → ¬ Collide i j) ↔
        i = j ∨ Profile.overflowChecks = true ∨ 2 ^ (zkTrieDepth + 1) ≤ i.toNat ∨
          2 ^ (zkTrieDepth + 1) ≤ j.toNat ∨
          i.toNat % 2 ^ zkTrieDepth ≠ j.toNat % 2 ^ zkTrieDepth := by
  refine ⟨safePath_iff, ?_⟩
  intro i j
  rw [collide_iff]
  unfold pathBound
  by_cases hij : i = j
  · simp [hij]
  · cases hprofile : Profile.overflowChecks with
    | true =>
      simp only [hij, if_true, ne_eq, not_false_eq_true, forall_const, true_or, or_true, iff_true]
      rintro ⟨hi, hj, hmod⟩
      rw [Nat.mod_eq_of_lt hi, Nat.mod_eq_of_lt hj] at hmod
      exact hij (UInt64.toNat_inj.mp hmod)
    | false =>
      simp only [hij, Bool.false_eq_true, if_false, ne_eq, not_false_eq_true, forall_const, false_or,
        not_and_or, not_lt]

end Profile

/-- A checked build stops at index `2 ^ 40`; without the checks its path is that of the head. -/
theorem leafPath_collides :
    (¬ @SafePath debugProfile (2 ^ 40)) ∧ (@getLeafPath debugProfile (2 ^ 40)) = none ∧
      (@getLeafPath ⟨false⟩ (2 ^ 40)).isSome = true ∧
      @getLeafPath ⟨false⟩ (2 ^ 40) = @getLeafPath ⟨false⟩ 0 := by
  refine ⟨?_, by decide, by decide, by decide⟩
  rw [@safePath_iff debugProfile]
  decide

end LineaSgxProver.Zktrie
