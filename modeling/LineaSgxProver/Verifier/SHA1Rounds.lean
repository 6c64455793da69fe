import LineaSgxProver.Verifier.SHA1Schedule

namespace LineaSgxProver.Verifier.SHA1

open Library
open Sha1 (State Word)

section Pack

def push (n : ℕ) (w : Word) : ℕ := n * 2 ^ 40 + w.toNat

theorem testBit_push_low (n : ℕ) (w : Word) {j : ℕ} (hj : j < 40) : (push n w).testBit j = w.getLsbD j := by
  have hw : w.toNat < 2 ^ 40 := w.isLt.trans (by decide)
  rw [push, Nat.mul_comm, Nat.testBit_two_pow_mul_add _ hw, if_pos hj]
  rfl

theorem testBit_push_high (n : ℕ) (w : Word) (i : ℕ) : (push n w).testBit (i + 40) = n.testBit i := by
  have hw : w.toNat < 2 ^ 40 := w.isLt.trans (by decide)
  rw [push, Nat.mul_comm, Nat.testBit_two_pow_mul_add _ hw, if_neg (by omega), Nat.add_sub_cancel]

def piece (s : State) : ℕ → Word
  | 0 => s.e
  | 1 => s.d
  | 2 => s.c
  | 3 => s.b
  | 4 => s.a
  | _ => 0

def packed (s : State) : ℕ := push (push (push (push s.a.toNat s.b) s.c) s.d) s.e

/-- The five words with eight zero bits between them. -/
def pack (s : State) : SU256 := BitVec.ofNat 256 (packed s)

theorem packed_eq (s : State) : packed s = s.a.toNat * 2 ^ 160 + s.b.toNat * 2 ^ 120 + s.c.toNat * 2 ^ 80 +
    s.d.toNat * 2 ^ 40 + s.e.toNat := by
  unfold packed push
  ring

theorem packed_lt (s : State) : packed s < 2 ^ 192 := by
  have ha := s.a.isLt
  have hb := s.b.isLt
  have hc := s.c.isLt
  have hd := s.d.isLt
  have he := s.e.isLt
  rw [packed_eq]
  omega

theorem pack_toNat (s : State) : (pack s).toNat = packed s := by
  rw [pack, BitVec.toNat_ofNat, Nat.mod_eq_of_lt]
  exact (packed_lt s).trans (by decide)

theorem getLsbD_pack (s : State) (k : ℕ) {j : ℕ} (hj : j < 40) :
    (pack s).getLsbD (40 * k + j) = (piece s k).getLsbD j := by
  change (pack s).toNat.testBit _ = _
  rw [pack_toNat]
  match k with
  | 0 =>
    rw [Nat.mul_zero, Nat.zero_add]
    exact testBit_push_low _ _ hj
  | 1 =>
    rw [Nat.mul_one, Nat.add_comm]
    exact (testBit_push_high _ _ _).trans (testBit_push_low _ _ hj)
  | 2 =>
    have h : 40 * 2 + j = j + 40 + 40 := by omega
    rw [h, packed, testBit_push_high, testBit_push_high]
    exact testBit_push_low _ _ hj
  | 3 =>
    have h : 40 * 3 + j = j + 40 + 40 + 40 := by omega
    rw [h, packed, testBit_push_high, testBit_push_high, testBit_push_high]
    exact testBit_push_low _ _ hj
  | 4 =>
    have h : 40 * 4 + j = j + 40 + 40 + 40 + 40 := by omega
    rw [h, packed, testBit_push_high, testBit_push_high, testBit_push_high, testBit_push_high]
    rfl
  | k + 5 =>
    have hlt : packed s < 2 ^ (40 * (k + 5) + j) :=
      (packed_lt s).trans_le (Nat.pow_le_pow_right (by decide) (by omega))
    rw [Nat.testBit_lt_two_pow hlt]
    simp [piece]

theorem eq_pack {x : SU256} {s : State}
    (h : ∀ k j, j < 40 → 40 * k + j < 256 → x.getLsbD (40 * k + j) = (piece s k).getLsbD j) : x = pack s := by
  apply BitVec.eq_of_getLsbD_eq
  intro i hi
  have hsplit : 40 * (i / 40) + i % 40 = i := Nat.div_add_mod i 40
  have hbit := h (i / 40) (i % 40) (Nat.mod_lt i (by decide)) (by rw [hsplit]; exact hi)
  rw [← getLsbD_pack s _ (Nat.mod_lt i (by decide)), hsplit] at hbit
  exact hbit

def field (x : SU256) (k : ℕ) : Word := (x >>> (40 * k)).setWidth 32

theorem getLsbD_field (x : SU256) (k : ℕ) {j : ℕ} (hj : j < 32) :
    (field x k).getLsbD j = x.getLsbD (40 * k + j) := by
  simp [field, hj]

theorem field_pack (s : State) (k : ℕ) : field (pack s) k = piece s k := by
  apply BitVec.eq_of_getLsbD_eq
  intro j hj
  rw [getLsbD_field _ _ hj, getLsbD_pack _ _ (by omega)]

theorem field_eq (x : SU256) (k : ℕ) : field x k = BitVec.ofNat 32 (x.toNat / 2 ^ (40 * k)) := by
  apply BitVec.eq_of_toNat_eq
  rw [field, BitVec.toNat_setWidth, BitVec.toNat_ushiftRight, Nat.shiftRight_eq_div_pow, BitVec.toNat_ofNat]

/-- The mask that keeps the five words. -/
theorem and_mask_eq_pack (x : SU256) : x &&& 0xFFFFFFFF00FFFFFFFF00FFFFFFFF00FFFFFFFF00FFFFFFFF =
    pack ⟨field x 4, field x 3, field x 2, field x 1, field x 0⟩ := by
  have hmask : ∀ i : Fin 256, (0xFFFFFFFF00FFFFFFFF00FFFFFFFF00FFFFFFFF00FFFFFFFF : SU256).getLsbD i =
      decide (i.val % 40 < 32 ∧ i.val / 40 < 5) := by decide +kernel
  apply eq_pack
  intro k j hj hi
  have hmod : (40 * k + j) % 40 = j := by omega
  have hdiv : (40 * k + j) / 40 = k := by omega
  have hbit := hmask ⟨_, hi⟩
  simp only [hmod, hdiv] at hbit
  rw [BitVec.getLsbD_and, hbit]
  by_cases hlow : j < 32
  · by_cases hk : k < 5
    · have hpiece : piece ⟨field x 4, field x 3, field x 2, field x 1, field x 0⟩ k = field x k := by
        obtain rfl | rfl | rfl | rfl | rfl : k = 0 ∨ k = 1 ∨ k = 2 ∨ k = 3 ∨ k = 4 := by omega
        all_goals rfl
      rw [hpiece, getLsbD_field x k hlow]
      simp [hlow, hk]
    · obtain ⟨k, rfl⟩ : ∃ i, k = i + 5 := ⟨k - 5, by omega⟩
      simp [piece]
  · have hpiece : (piece ⟨field x 4, field x 3, field x 2, field x 1, field x 0⟩ k).getLsbD j = false :=
      BitVec.getLsbD_of_ge _ _ (by omega)
    simp [hpiece, hlow]

/-- The carries of a sum go to the bits between the words. -/
theorem pack_add (s t : State) :
    (pack s + pack t) &&& 0xFFFFFFFF00FFFFFFFF00FFFFFFFF00FFFFFFFF00FFFFFFFF = pack (s.add t) := by
  have hs := packed_lt s
  have ht := packed_lt t
  have hsum : (pack s + pack t).toNat = packed s + packed t := by
    rw [BitVec.toNat_add, pack_toNat, pack_toNat, Nat.mod_eq_of_lt]
    omega
  have hfield (k : ℕ) : field (pack s + pack t) k = BitVec.ofNat 32 ((packed s + packed t) / 2 ^ (40 * k)) := by
    rw [field_eq, hsum]
  have has := s.a.isLt
  have hbs := s.b.isLt
  have hcs := s.c.isLt
  have hds := s.d.isLt
  have hes := s.e.isLt
  have hat := t.a.isLt
  have hbt := t.b.isLt
  have hct := t.c.isLt
  have hdt := t.d.isLt
  have het := t.e.isLt
  rw [and_mask_eq_pack, State.add]
  congr 2
  all_goals
    rw [hfield, packed_eq, packed_eq]
    apply BitVec.eq_of_toNat_eq
    rw [BitVec.toNat_ofNat, BitVec.toNat_add]
    omega

end Pack

section Round

def low (v : SU256) : Word := v.setWidth 32

theorem low_add (v w : SU256) : low (v + w) = low v + low w := BitVec.setWidth_add _ _ (by decide)

theorem low_and (v w : SU256) : low (v &&& w) = low v &&& low w := BitVec.setWidth_and

theorem low_or (v w : SU256) : low (v ||| w) = low v ||| low w := BitVec.setWidth_or

theorem low_xor (v w : SU256) : low (v ^^^ w) = low v ^^^ low w := BitVec.setWidth_xor

theorem getLsbD_low (v : SU256) {j : ℕ} (hj : j < 32) : (low v).getLsbD j = v.getLsbD j := by
  simp [low, hj]

theorem low_and_mask (v : SU256) : low (v &&& 0xFFFFFFFF) = low v := by
  have hmask : low 0xFFFFFFFF = BitVec.allOnes 32 := by decide
  rw [low_and, hmask, BitVec.and_allOnes]

theorem choose_eq (b c d : Word) : d ^^^ (b &&& (c ^^^ d)) = (b &&& c) ||| (~~~b &&& d) := by
  apply BitVec.eq_of_getLsbD_eq
  intro i hi
  simp only [BitVec.getLsbD_xor, BitVec.getLsbD_and, BitVec.getLsbD_or, BitVec.getLsbD_not, hi, decide_true,
    Bool.true_and]
  cases b.getLsbD i <;> cases c.getLsbD i <;> cases d.getLsbD i <;> rfl

theorem parity_eq (b c d : Word) : d ^^^ (b ^^^ c) = b ^^^ c ^^^ d := BitVec.xor_comm _ _

theorem majority_eq (b c d : Word) :
    (b &&& c) ||| (d &&& (b ||| c)) = (b &&& c) ||| (b &&& d) ||| (c &&& d) := by
  apply BitVec.eq_of_getLsbD_eq
  intro i _
  simp only [BitVec.getLsbD_and, BitVec.getLsbD_or]
  cases b.getLsbD i <;> cases c.getLsbD i <;> cases d.getLsbD i <;> rfl

theorem low_div (x : SU256) (k : ℕ) (hk : 40 * k < 256) : low (x / BitVec.ofNat 256 (2 ^ (40 * k))) = field x k := by
  rw [div_two_pow x hk]
  rfl

theorem switch_low (x : SU256) {j : ℕ} (hj : j < 80) :
    low (switch x j).1 = Sha1.mix j (field x 3) (field x 2) (field x 1) ∧
      low (switch x j).2 = Sha1.constant j := by
  have hb : low (x / (0x1000000000000000000000000000000 : SU256)) = field x 3 := low_div x 3 (by decide)
  have hc : low (x / (0x100000000000000000000 : SU256)) = field x 2 := low_div x 2 (by decide)
  have hd : low (x / (0x10000000000 : SU256)) = field x 1 := low_div x 1 (by decide)
  unfold Sha1.mix Sha1.constant
  obtain h | h | h | h : j < 20 ∨ 20 ≤ j ∧ j < 40 ∨ 40 ≤ j ∧ j < 60 ∨ 60 ≤ j := by omega
  · have hdiv : j / 20 = 0 := by omega
    rw [switch, hdiv, if_pos h, if_pos h]
    simp only [low_xor, low_and, hb, hc, hd]
    exact ⟨choose_eq _ _ _, by decide⟩
  · have hdiv : j / 20 = 1 := by omega
    have h20 : ¬ j < 20 := by omega
    rw [switch, hdiv]
    simp only [h20, h.2, if_false, if_true, low_xor, hb, hc, hd]
    exact ⟨parity_eq _ _ _, by decide⟩
  · have hdiv : j / 20 = 2 := by omega
    have h20 : ¬ j < 20 := by omega
    have h40 : ¬ j < 40 := by omega
    rw [switch, hdiv]
    simp only [h20, h40, h.2, if_false, if_true, low_and, low_or, hb, hc, hd]
    exact ⟨majority_eq _ _ _, by decide⟩
  · have hdiv : j / 20 = 3 := by omega
    have h20 : ¬ j < 20 := by omega
    have h40 : ¬ j < 40 := by omega
    have h60 : ¬ j < 60 := by omega
    rw [switch, hdiv]
    simp only [h20, h40, h60, if_false, low_xor, hb, hc, hd]
    exact ⟨parity_eq _ _ _, by decide⟩

theorem low_rotate (s : State) : low ((pack s / 0x800000000000000000000000000000000000000 &&& 0xFFFFFFE0) |||
    (pack s / 0x80000000000000000000000000000000000000000000000 &&& 0x1F)) = s.a.rotateLeft 5 := by
  have h155 : pack s / (0x800000000000000000000000000000000000000 : SU256) = pack s >>> 155 :=
    div_two_pow _ (n := 155) (by decide)
  have h187 : pack s / (0x80000000000000000000000000000000000000000000000 : SU256) = pack s >>> 187 :=
    div_two_pow _ (n := 187) (by decide)
  have hhigh : ∀ i : Fin 32, (0xFFFFFFE0 : SU256).getLsbD i = decide (5 ≤ i.val) := by decide +kernel
  have hlow : ∀ i : Fin 32, (0x1F : SU256).getLsbD i = decide (i.val < 5) := by decide +kernel
  rw [h155, h187]
  apply BitVec.eq_of_getLsbD_eq
  intro j hj
  rw [getLsbD_low _ hj, BitVec.getLsbD_or, BitVec.getLsbD_and, BitVec.getLsbD_and, hhigh ⟨j, hj⟩, hlow ⟨j, hj⟩,
    BitVec.getLsbD_ushiftRight, BitVec.getLsbD_ushiftRight, BitVec.getLsbD_rotateLeft]
  by_cases h : j < 5
  · have hindex : 187 + j = 40 * 4 + (27 + j) := by omega
    have hle : ¬ 5 ≤ j := by omega
    rw [hindex, getLsbD_pack s 4 (by omega)]
    simp [h, hle, piece]
  · have hindex : 155 + j = 40 * 4 + (j - 5) := by omega
    have hle : 5 ≤ j := by omega
    rw [hindex, getLsbD_pack s 4 (by omega)]
    simp [h, hle, hj, piece]

/-- The third word is made of the one that has come to its place, in two pieces. -/
theorem getLsbD_rotate30 {x : SU256} {b : Word} (hx : ∀ j < 32, x.getLsbD (80 + j) = b.getLsbD j) {i : ℕ}
    (hi : i < 256) : ((x >>> 50 &&& (0xC0000000 : SU256)) ||| (x >>> 82 &&& (0x3FFFFFFF : SU256))).getLsbD i =
      if i < 32 then (b.rotateLeft 30).getLsbD i else false := by
  have hhigh : ∀ i : Fin 256, (0xC0000000 : SU256).getLsbD i = decide (30 ≤ i.val ∧ i.val < 32) := by
    decide +kernel
  have hrest : ∀ i : Fin 256, (0x3FFFFFFF : SU256).getLsbD i = decide (i.val < 30) := by decide +kernel
  rw [BitVec.getLsbD_or, BitVec.getLsbD_and, BitVec.getLsbD_and, hhigh ⟨i, hi⟩, hrest ⟨i, hi⟩,
    BitVec.getLsbD_ushiftRight, BitVec.getLsbD_ushiftRight, BitVec.getLsbD_rotateLeft]
  by_cases h32 : i < 32
  · by_cases h30 : i < 30
    · have hindex : 82 + i = 80 + (2 + i) := by omega
      have hle : ¬ 30 ≤ i := by omega
      rw [hindex, hx (2 + i) (by omega)]
      simp [h32, h30, hle]
    · have hindex : 50 + i = 80 + (i - 30) := by omega
      have hle : 30 ≤ i := by omega
      rw [hindex, hx (i - 30) (by omega)]
      simp [h32, h30, hle]
  · have h30 : ¬ i < 30 := by omega
    simp [h32, h30]

section Shifted

variable (s : State) (temp : SU256)

theorem getLsbD_shifted {k j : ℕ} (hk : k < 4) (hj : j < 40) :
    (pack s >>> 40 ||| temp <<< 160).getLsbD (40 * k + j) = (piece s (k + 1)).getLsbD j := by
  have hindex : 40 + (40 * k + j) = 40 * (k + 1) + j := by omega
  have hbelow : 40 * k + j < 160 := by omega
  rw [BitVec.getLsbD_or, BitVec.getLsbD_ushiftRight, BitVec.getLsbD_shiftLeft, hindex, getLsbD_pack s _ hj]
  simp [hbelow]

theorem getLsbD_shifted_first {j : ℕ} (hj : j < 32) :
    (pack s >>> 40 ||| temp <<< 160).getLsbD (40 * 4 + j) = (low temp).getLsbD j := by
  have hindex : 40 + (40 * 4 + j) = 40 * 5 + j := by omega
  have habove : ¬ 40 * 4 + j < 160 := by omega
  have hin : 40 * 4 + j < 256 := by omega
  have hback : 40 * 4 + j - 160 = j := by omega
  rw [BitVec.getLsbD_or, BitVec.getLsbD_ushiftRight, BitVec.getLsbD_shiftLeft, hindex,
    getLsbD_pack s 5 (by omega), hback, getLsbD_low _ hj]
  simp [piece, habove, hin]

/-- What is above the low 32 bits of the sum is shifted out or masked off. -/
theorem shift_words (x : SU256) (hx : x = (pack s >>> 40 ||| temp <<< 160)) :
    (x &&& (0xFFFFFFFF00FFFFFFFF000000000000FFFFFFFF00FFFFFFFF : SU256)) |||
      ((x >>> 50 &&& (0xC0000000 : SU256)) ||| (x >>> 82 &&& (0x3FFFFFFF : SU256))) <<< 80 =
    pack ⟨low temp, s.a, s.b.rotateLeft 30, s.c, s.d⟩ := by
  have hmask : ∀ i : Fin 256, (0xFFFFFFFF00FFFFFFFF000000000000FFFFFFFF00FFFFFFFF : SU256).getLsbD i =
      decide (i.val % 40 < 32 ∧ i.val / 40 < 5 ∧ i.val / 40 ≠ 2) := by decide +kernel
  have hthird (i : ℕ) (hi : i < 256) := getLsbD_rotate30 (x := x) (b := s.b) (by
    intro j hj
    rw [hx]
    exact getLsbD_shifted s temp (k := 2) (by decide) (by omega)) hi
  have hbelow (k j : ℕ) (hk : k < 4) (hj : j < 40) := getLsbD_shifted s temp hk hj
  have hfirst (j : ℕ) (hj : j < 32) := getLsbD_shifted_first s temp hj
  rw [← hx] at hbelow hfirst
  generalize ((x >>> 50 &&& (0xC0000000 : SU256)) ||| (x >>> 82 &&& (0x3FFFFFFF : SU256))) = r at hthird
  apply eq_pack
  intro k i hi hin
  have hmod : (40 * k + i) % 40 = i := by omega
  have hdiv : (40 * k + i) / 40 = k := by omega
  have hbit := hmask ⟨_, hin⟩
  simp only [hmod, hdiv] at hbit
  rw [BitVec.getLsbD_or, BitVec.getLsbD_and, hbit, BitVec.getLsbD_shiftLeft, hthird _ (by omega)]
  have hlast (w : Word) (h : ¬ i < 32) : w.getLsbD i = false := BitVec.getLsbD_of_ge w i (by omega)
  obtain rfl | rfl | rfl | rfl | rfl | ⟨k, rfl⟩ : k = 0 ∨ k = 1 ∨ k = 2 ∨ k = 3 ∨ k = 4 ∨ ∃ n, k = n + 5 := by
    by_cases hk : k < 5
    · omega
    · exact Or.inr (Or.inr (Or.inr (Or.inr (Or.inr ⟨k - 5, by omega⟩))))
  · have hin' : i < 80 := by omega
    rw [hbelow 0 i (by decide) hi]
    by_cases h32 : i < 32 <;> simp [hin', h32, piece, hlast]
  · have hin' : 40 * 1 + i < 80 := by omega
    rw [hbelow 1 i (by decide) hi]
    by_cases h32 : i < 32 <;> simp [hin', h32, piece, hlast]
  · have hin' : ¬ 40 * 2 + i < 80 := by omega
    have hback : 40 * 2 + i - 80 = i := by omega
    rw [hback]
    by_cases h32 : i < 32 <;> simp [hin, hin', h32, piece, hlast]
  · have hfar : ¬ 40 * 3 + i - 80 < 32 := by omega
    rw [hbelow 3 i (by decide) hi]
    by_cases h32 : i < 32 <;> simp [hfar, h32, piece, hlast]
  · have hfar : ¬ 40 * 4 + i - 80 < 32 := by omega
    by_cases h32 : i < 32
    · rw [hfirst i h32]
      simp [hfar, h32, piece]
    · simp [hfar, h32, piece, hlast]
  · have hfar : ¬ 40 * (k + 5) + i - 80 < 32 := by omega
    simp [hfar, piece]

end Shifted

theorem round_pack (word : SU256) {j : ℕ} (hj : j < 80) (s : State) :
    round word j (pack s) = pack (Sha1.round (lane word 0) j s) := by
  have h40 (x : SU256) : x / (0x10000000000 : SU256) = x >>> 40 := div_two_pow x (n := 40) (by decide)
  have h50 (x : SU256) : x / (0x4000000000000 : SU256) = x >>> 50 := div_two_pow x (n := 50) (by decide)
  have h82 (x : SU256) : x / (0x400000000000000000000 : SU256) = x >>> 82 := div_two_pow x (n := 82) (by decide)
  have h160 (x : SU256) : x * (0x10000000000000000000000000000000000000000 : SU256) = x <<< 160 :=
    mul_two_pow x 160
  have h80 (x : SU256) : x * (0x100000000000000000000 : SU256) = x <<< 80 := mul_two_pow x 80
  have hword : low (word / (0x100000000000000000000000000000000000000000000000000000000 : SU256)) =
      lane word 0 := by
    have h224 : word / (0x100000000000000000000000000000000000000000000000000000000 : SU256) = word >>> 224 :=
      div_two_pow word (n := 224) (by decide)
    rw [h224]
    rfl
  obtain ⟨hf, hk⟩ := switch_low (pack s) hj
  have he : low (pack s) = s.e := by
    rw [← show field (pack s) 0 = s.e from field_pack s 0]
    simp [field, low]
  unfold round
  simp only [h40, h50, h82, h160, h80]
  rw [shift_words s _ _ rfl, low_add, low_add, low_add, low_add, low_rotate, low_and_mask, he, hf, hk, hword,
    field_pack, field_pack, field_pack, Sha1.round]
  simp only [piece]
  congr 2
  ac_rfl

end Round

end LineaSgxProver.Verifier.SHA1
