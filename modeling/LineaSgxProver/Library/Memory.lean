import LineaSgxProver.Library.BigEndian

namespace LineaSgxProver.Library

/-- A memory of bytes that is read and written in big-endian words of 32 bytes. -/
structure Memory where
  byte : ℕ → UInt8

/-- A byte of a word, counted from the most significant one. -/
def byteAt (v : BitVec 256) (i : ℕ) : UInt8 := UInt8.ofBitVec (v.extractLsb' (8 * (31 - i)) 8)

theorem byteAt_eq_ofNat (v : BitVec 256) (i : ℕ) : byteAt v i = UInt8.ofNat (v.toNat / 256 ^ (31 - i)) := by
  have hpow : 2 ^ (8 * (31 - i)) = 256 ^ (31 - i) := by
    rw [pow_mul]
    rfl
  apply UInt8.toBitVec_inj.mp
  apply BitVec.eq_of_toNat_eq
  rw [byteAt, UInt8.toBitVec_ofBitVec, BitVec.extractLsb'_toNat, Nat.shiftRight_eq_div_pow, hpow]
  rfl

theorem encode_eq_map_byteAt (v : BitVec 256) : BigEndian.encode 32 v.toNat = (List.range 32).map (byteAt v) := by
  rw [BigEndian.encode]
  apply List.map_congr_left
  intro i hi
  exact (byteAt_eq_ofNat v i).symm

theorem eq_of_byteAt {v w : BitVec 256} (h : ∀ i < 32, byteAt v i = byteAt w i) : v = w := by
  apply BitVec.eq_of_toNat_eq
  apply BigEndian.encode_injective 32 v.isLt w.isLt
  rw [encode_eq_map_byteAt, encode_eq_map_byteAt]
  apply List.map_congr_left
  intro i hi
  exact h i (List.mem_range.mp hi)

theorem getLsbD_eq_byteAt (v : BitVec 256) {n : ℕ} (hn : n < 256) :
    v.getLsbD n = (byteAt v (31 - n / 8)).toBitVec.getLsbD (n % 8) := by
  have hindex : 8 * (31 - (31 - n / 8)) + n % 8 = n := by omega
  have hbit : n % 8 < 8 := Nat.mod_lt n (by decide)
  rw [byteAt, UInt8.toBitVec_ofBitVec, BitVec.getLsbD_extractLsb', hindex]
  simp [hbit]

theorem getLsbD_byteAt (v : BitVec 256) (p : ℕ) {j : ℕ} (hj : j < 8) :
    (byteAt v p).toBitVec.getLsbD j = v.getLsbD (8 * (31 - p) + j) := by
  rw [byteAt, UInt8.toBitVec_ofBitVec, BitVec.getLsbD_extractLsb']
  simp [hj]

theorem byte_ext {a b : UInt8} (h : ∀ j < 8, a.toBitVec.getLsbD j = b.toBitVec.getLsbD j) : a = b :=
  UInt8.toBitVec_inj.mp (BitVec.eq_of_getLsbD_eq h)

theorem byteAt_or (v w : BitVec 256) (p : ℕ) : byteAt (v ||| w) p = byteAt v p ||| byteAt w p := by
  apply byte_ext
  intro j hj
  rw [getLsbD_byteAt _ _ hj, BitVec.getLsbD_or, UInt8.toBitVec_or, BitVec.getLsbD_or, getLsbD_byteAt _ _ hj,
    getLsbD_byteAt _ _ hj]

theorem getLsbD_ones {n : ℕ} (hn : n < 32) (i : ℕ) :
    (BitVec.ofNat 256 (256 ^ n) - 1).getLsbD i = decide (i < 8 * n) := by
  have hpow : 256 ^ n = 2 ^ (8 * n) := by
    rw [pow_mul]
    rfl
  have hlt : 2 ^ (8 * n) < 2 ^ 256 := Nat.pow_lt_pow_right (by decide) (by omega)
  have hpos : 0 < 2 ^ (8 * n) := Nat.two_pow_pos _
  have hone : (1 : BitVec 256).toNat = 1 := rfl
  have hones : (BitVec.ofNat 256 (256 ^ n) - 1).toNat = 2 ^ (8 * n) - 1 := by
    rw [BitVec.toNat_sub_of_le, BitVec.toNat_ofNat, hpow, Nat.mod_eq_of_lt hlt, hone]
    rw [BitVec.le_def, BitVec.toNat_ofNat, hpow, Nat.mod_eq_of_lt hlt, hone]
    omega
  change (BitVec.ofNat 256 (256 ^ n) - 1).toNat.testBit i = _
  rw [hones, Nat.testBit_two_pow_sub_one]

/-- The mask of a word that is cut after `32 - n` bytes. -/
theorem getLsbD_mask {n i : ℕ} (hn : n < 32) (hi : i < 256) :
    (~~~(BitVec.ofNat 256 (256 ^ n) - 1)).getLsbD i = decide (8 * n ≤ i) := by
  rw [BitVec.getLsbD_not, getLsbD_ones hn]
  by_cases h : i < 8 * n
  · have hle : ¬ 8 * n ≤ i := by omega
    simp [h, hle]
  · have hle : 8 * n ≤ i := by omega
    simp [h, hle, hi]

theorem byteAt_and_mask (v : BitVec 256) {n p : ℕ} (hn : n < 32) (hp : p < 32) :
    byteAt (v &&& ~~~(BitVec.ofNat 256 (256 ^ n) - 1)) p = if p < 32 - n then byteAt v p else 0 := by
  apply byte_ext
  intro j hj
  rw [getLsbD_byteAt _ _ hj, BitVec.getLsbD_and, getLsbD_mask hn (by omega)]
  split_ifs with h
  · have hle : 8 * n ≤ 8 * (31 - p) + j := by omega
    rw [getLsbD_byteAt _ _ hj]
    simp [hle]
  · have hle : ¬ 8 * n ≤ 8 * (31 - p) + j := by omega
    simp [hle]

theorem byteAt_and_low (v : BitVec 256) {n p : ℕ} (hn : n < 32) (hp : p < 32) :
    byteAt (v &&& (BitVec.ofNat 256 (256 ^ n) - 1)) p = if p < 32 - n then 0 else byteAt v p := by
  apply byte_ext
  intro j hj
  rw [getLsbD_byteAt _ _ hj, BitVec.getLsbD_and, getLsbD_ones hn]
  split_ifs with h
  · have hlt : ¬ 8 * (31 - p) + j < 8 * n := by omega
    simp [hlt]
  · have hlt : 8 * (31 - p) + j < 8 * n := by omega
    rw [getLsbD_byteAt _ _ hj]
    simp [hlt]

namespace Memory

def read (m : Memory) (p n : ℕ) : List UInt8 := (List.range n).map fun i => m.byte (p + i)

def mload (m : Memory) (p : ℕ) : BitVec 256 := BitVec.ofNat 256 (BigEndian.decode (m.read p 32))

def mstore (m : Memory) (p : ℕ) (v : BitVec 256) : Memory where
  byte a := if p ≤ a ∧ a < p + 32 then byteAt v (a - p) else m.byte a

def mstore8 (m : Memory) (p : ℕ) (v : UInt8) : Memory where
  byte a := if a = p then v else m.byte a

@[simp] theorem read_length (m : Memory) (p n : ℕ) : (m.read p n).length = n := by
  simp [read]

theorem byteAt_mload (m : Memory) (p : ℕ) {i : ℕ} (hi : i < 32) : byteAt (m.mload p) i = m.byte (p + i) := by
  have hlt : BigEndian.decode (m.read p 32) < 2 ^ 256 := by
    have h := BigEndian.decode_lt (m.read p 32)
    rwa [read_length] at h
  have hbytes := encode_eq_map_byteAt (m.mload p)
  have hlen := BigEndian.encode_decode (m.read p 32)
  rw [read_length] at hlen
  rw [mload, BitVec.toNat_ofNat, Nat.mod_eq_of_lt hlt, hlen, ← mload, read] at hbytes
  exact (List.map_inj_left.mp hbytes i (List.mem_range.mpr hi)).symm

theorem mstore_at (m : Memory) (p : ℕ) (v : BitVec 256) {i : ℕ} (hi : i < 32) :
    (m.mstore p v).byte (p + i) = byteAt v i := by
  have h : p ≤ p + i ∧ p + i < p + 32 := ⟨by omega, by omega⟩
  simp only [mstore, h, and_self, if_true, Nat.add_sub_cancel_left]

theorem mstore_outside (m : Memory) (p : ℕ) (v : BitVec 256) {a : ℕ} (ha : a < p ∨ p + 32 ≤ a) :
    (m.mstore p v).byte a = m.byte a := if_neg (by omega)

theorem mstore8_other (m : Memory) {p a : ℕ} (v : UInt8) (ha : a ≠ p) : (m.mstore8 p v).byte a = m.byte a := if_neg ha

theorem mload_mstore (m : Memory) (p : ℕ) (v : BitVec 256) : (m.mstore p v).mload p = v := by
  apply eq_of_byteAt
  intro i hi
  rw [byteAt_mload _ _ hi, mstore_at _ _ _ hi]

theorem mload_congr {m m' : Memory} {p : ℕ} (h : ∀ i < 32, m.byte (p + i) = m'.byte (p + i)) :
    m.mload p = m'.mload p := by
  apply eq_of_byteAt
  intro i hi
  rw [byteAt_mload _ _ hi, byteAt_mload _ _ hi, h i hi]

theorem mload_mstore_outside (m : Memory) {p q : ℕ} (v : BitVec 256) (h : q + 32 ≤ p ∨ p + 32 ≤ q) :
    (m.mstore p v).mload q = m.mload q := by
  apply mload_congr
  intro i hi
  exact mstore_outside m p v (by omega)

theorem mload_toNat (m : Memory) (p : ℕ) : (m.mload p).toNat = BigEndian.decode (m.read p 32) := by
  have hlt := BigEndian.decode_lt (m.read p 32)
  rw [read_length] at hlt
  rw [mload, BitVec.toNat_ofNat]
  exact Nat.mod_eq_of_lt hlt

theorem read_add (m : Memory) (p k l : ℕ) : m.read p (k + l) = m.read p k ++ m.read (p + k) l := by
  simp only [read, List.range_add, List.map_append, List.map_map]
  apply congrArg
  apply List.map_congr_left
  intro i _
  simp [Nat.add_assoc]

/-- A word is split after its first bytes. -/
theorem mload_split (m : Memory) (p : ℕ) {k l : ℕ} (h : k + l = 32) :
    (m.mload p).toNat = BigEndian.decode (m.read p k) * 256 ^ l + BigEndian.decode (m.read (p + k) l) ∧
      BigEndian.decode (m.read (p + k) l) < 256 ^ l := by
  have hlt := BigEndian.decode_lt (m.read (p + k) l)
  rw [read_length] at hlt
  refine ⟨?_, hlt⟩
  rw [mload_toNat, ← h, read_add, BigEndian.decode_append, read_length]

/-- The 32 bits at an address. -/
def word (m : Memory) (p : ℕ) : BitVec 32 :=
  (m.byte p).toBitVec ++ (m.byte (p + 1)).toBitVec ++ (m.byte (p + 2)).toBitVec ++
    (m.byte (p + 3)).toBitVec

theorem getLsbD_word (m : Memory) (p : ℕ) {n : ℕ} (hn : n < 32) :
    (m.word p).getLsbD n = (m.byte (p + (3 - n / 8))).toBitVec.getLsbD (n % 8) := by
  obtain ⟨q, r, hr, rfl⟩ : ∃ q r, r < 8 ∧ n = 8 * q + r := ⟨n / 8, n % 8, Nat.mod_lt n (by decide), by omega⟩
  have hq : (8 * q + r) / 8 = q := by omega
  have hmod : (8 * q + r) % 8 = r := by omega
  rw [hq, hmod, word]
  simp only [BitVec.getLsbD_append]
  obtain rfl | rfl | rfl | rfl : q = 0 ∨ q = 1 ∨ q = 2 ∨ q = 3 := by omega
  · simp [hr]
  · have h₁ : ¬ 8 * 1 + r < 8 := by omega
    have h₂ : 8 * 1 + r - 8 = r := by omega
    simp [h₁, h₂, hr]
  · have h₁ : ¬ 8 * 2 + r < 8 := by omega
    have h₂ : ¬ 8 * 2 + r - 8 < 8 := by omega
    have h₃ : 8 * 2 + r - 8 - 8 = r := by omega
    simp [h₁, h₂, h₃, hr]
  · have h₁ : ¬ 8 * 3 + r < 8 := by omega
    have h₂ : ¬ 8 * 3 + r - 8 < 8 := by omega
    have h₃ : ¬ 8 * 3 + r - 8 - 8 < 8 := by omega
    have h₄ : 8 * 3 + r - 8 - 8 - 8 = r := by omega
    simp [h₁, h₂, h₃, h₄]

theorem word_congr {m m' : Memory} {p q : ℕ} (h : ∀ i < 4, m.byte (p + i) = m'.byte (q + i)) : m.word p = m'.word q := by
  have h0 : m.byte p = m'.byte q := h 0 (by decide)
  rw [word, word, h0, h 1 (by decide), h 2 (by decide), h 3 (by decide)]

end Memory

/-- One of the eight 32-bit lanes of a word, the most significant first. -/
def lane (v : BitVec 256) (k : ℕ) : BitVec 32 := v.extractLsb' (32 * (7 - k)) 32

theorem getLsbD_lane (v : BitVec 256) (k : ℕ) {n : ℕ} (hn : n < 32) :
    (lane v k).getLsbD n = v.getLsbD (32 * (7 - k) + n) := by
  rw [lane, BitVec.getLsbD_extractLsb']
  simp [hn]

theorem lane_xor (v w : BitVec 256) (k : ℕ) : lane (v ^^^ w) k = lane v k ^^^ lane w k := by
  apply BitVec.eq_of_getLsbD_eq
  intro n hn
  simp only [BitVec.getLsbD_xor, getLsbD_lane _ _ hn]

theorem getLsbD_lane_eq_byteAt (v : BitVec 256) {k n : ℕ} (hk : k < 8) (hn : n < 32) :
    (lane v k).getLsbD n = (byteAt v (4 * k + (3 - n / 8))).toBitVec.getLsbD (n % 8) := by
  have hbyte : 31 - (32 * (7 - k) + n) / 8 = 4 * k + (3 - n / 8) := by omega
  have hbit : (32 * (7 - k) + n) % 8 = n % 8 := by omega
  rw [getLsbD_lane _ _ hn, getLsbD_eq_byteAt _ (by omega), hbyte, hbit]

namespace Memory

theorem lane_mload (m : Memory) (p : ℕ) {k : ℕ} (hk : k < 8) : lane (m.mload p) k = m.word (p + 4 * k) := by
  apply BitVec.eq_of_getLsbD_eq
  intro n hn
  rw [getLsbD_lane_eq_byteAt _ hk hn, getLsbD_word _ _ hn, byteAt_mload _ _ (by omega), Nat.add_assoc]

theorem word_mstore (m : Memory) (p : ℕ) (v : BitVec 256) {k : ℕ} (hk : k < 8) :
    (m.mstore p v).word (p + 4 * k) = lane v k := by
  rw [← lane_mload _ _ hk, mload_mstore]

theorem word_mstore_outside (m : Memory) (p : ℕ) (v : BitVec 256) {q : ℕ} (hq : q + 4 ≤ p ∨ p + 32 ≤ q) :
    (m.mstore p v).word q = m.word q := by
  apply word_congr
  intro i hi
  exact mstore_outside m p v (by omega)

end Memory

end LineaSgxProver.Library
