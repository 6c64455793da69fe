import LineaSgxProver.Verifier.SHA1

namespace LineaSgxProver.Verifier.SHA1

open Library

section Lanes

theorem mul_two_pow (v : SU256) (n : ℕ) : v * BitVec.ofNat 256 (2 ^ n) = v <<< n := by
  apply BitVec.eq_of_toNat_eq
  simp [BitVec.toNat_mul, BitVec.toNat_shiftLeft, Nat.shiftLeft_eq]

theorem div_two_pow (v : SU256) {n : ℕ} (hn : n < 256) : v / BitVec.ofNat 256 (2 ^ n) = v >>> n := by
  have hlt : 2 ^ n < 2 ^ 256 := Nat.pow_lt_pow_right (by decide) hn
  apply BitVec.eq_of_toNat_eq
  rw [BitVec.toNat_udiv, BitVec.toNat_ofNat, Nat.mod_eq_of_lt hlt, BitVec.toNat_ushiftRight,
    Nat.shiftRight_eq_div_pow]

/-- A rotation of all lanes at once: two shifts, each masked to what stays in its lane. -/
theorem lane_rotate {high low : SU256} {r : ℕ} (hr : r < 32)
    (hhigh : ∀ i : Fin 256, high.getLsbD i = decide (r ≤ i.val % 32))
    (hlow : ∀ i : Fin 256, low.getLsbD i = decide (i.val % 32 < r)) (v : SU256) {k : ℕ} (hk : k < 8) :
    lane ((v <<< r &&& high) ||| (v >>> (32 - r) &&& low)) k = (lane v k).rotateLeft r := by
  apply BitVec.eq_of_getLsbD_eq
  intro n hn
  have hi : 32 * (7 - k) + n < 256 := by omega
  have hmod : (32 * (7 - k) + n) % 32 = n := by omega
  have hhigh := hhigh ⟨_, hi⟩
  have hlow := hlow ⟨_, hi⟩
  simp only [hmod] at hhigh hlow
  rw [getLsbD_lane _ _ hn, BitVec.getLsbD_or, BitVec.getLsbD_and, BitVec.getLsbD_and, hhigh, hlow,
    BitVec.getLsbD_shiftLeft, BitVec.getLsbD_ushiftRight, BitVec.getLsbD_rotateLeft, Nat.mod_eq_of_lt hr]
  by_cases h : n < r
  · have hindex : 32 - r + (32 * (7 - k) + n) = 32 * (7 - k) + (32 - r + n) := by omega
    have hle : ¬ r ≤ n := by omega
    rw [getLsbD_lane v k (n := 32 - r + n) (by omega), hindex]
    simp [h, hle]
  · have hindex : 32 * (7 - k) + n - r = 32 * (7 - k) + (n - r) := by omega
    have hle : r ≤ n := by omega
    have hin : ¬ 32 * (7 - k) + n < r := by omega
    rw [getLsbD_lane v k (n := n - r) (by omega), hindex]
    simp [h, hle, hin, hi, hn]

theorem lane_rotateLanes1 (v : SU256) {k : ℕ} (hk : k < 8) : lane (rotateLanes1 v) k = (lane v k).rotateLeft 1 := by
  have hmul : v * (2 : SU256) = v <<< 1 := mul_two_pow v 1
  have hdiv : v / (0x80000000 : SU256) = v >>> (32 - 1) := div_two_pow v (n := 31) (by decide)
  rw [rotateLanes1, hmul, hdiv]
  exact lane_rotate (by decide) (by decide +kernel) (by decide +kernel) v hk

theorem lane_rotateLanes2 (v : SU256) {k : ℕ} (hk : k < 8) : lane (rotateLanes2 v) k = (lane v k).rotateLeft 2 := by
  have hmul : v * (4 : SU256) = v <<< 2 := mul_two_pow v 2
  have hdiv : v / (0x40000000 : SU256) = v >>> (32 - 2) := div_two_pow v (n := 30) (by decide)
  rw [rotateLanes2, hmul, hdiv]
  exact lane_rotate (by decide) (by decide +kernel) (by decide +kernel) v hk

end Lanes

section Expand

variable {scratch : ℕ} {block : ℕ → Sha1.Word}

/-- The scratch memory has the first words of the schedule, and the rest of the memory is as it was. -/
structure Scheduled (scratch : ℕ) (block : ℕ → Sha1.Word) (m₀ : Memory) (n : ℕ) (m : Memory) : Prop where
  words : ∀ t < n, m.word (scratch + 4 * t) = Sha1.schedule block t
  below : ∀ a < scratch, m.byte a = m₀.byte a

theorem Scheduled.store {m₀ m : Memory} {n : ℕ} (h : Scheduled scratch block m₀ n m) (v : SU256) (s : ℕ)
    (hs : s ≤ 8) (hv : ∀ k < s, lane v k = Sha1.schedule block (n + k)) :
    Scheduled scratch block m₀ (n + s) (m.mstore (scratch + 4 * n) v) where
  words := by
    intro t ht
    by_cases hold : t < n
    · rw [Memory.word_mstore_outside _ _ _ (by omega), h.words t hold]
    · obtain ⟨k, rfl⟩ : ∃ k, t = n + k := ⟨t - n, by omega⟩
      have haddress : scratch + 4 * (n + k) = scratch + 4 * n + 4 * k := by omega
      rw [haddress, Memory.word_mstore _ _ _ (by omega), hv k (by omega)]
  below := by
    intro a ha
    rw [Memory.mstore_outside _ _ _ (by omega), h.below a ha]

theorem Scheduled.lane_mload {m₀ m : Memory} {n : ℕ} (h : Scheduled scratch block m₀ n m) {t k : ℕ}
    (hk : k < 8) (ht : t + k < n) : lane (m.mload (scratch + 4 * t)) k = Sha1.schedule block (t + k) := by
  have haddress : scratch + 4 * t + 4 * k = scratch + 4 * (t + k) := by omega
  rw [Memory.lane_mload _ _ hk, haddress, h.words _ ht]

theorem Scheduled.expandBy3 {m₀ m : Memory} {n : ℕ} (hn : 16 ≤ n) (h : Scheduled scratch block m₀ n m) :
    Scheduled scratch block m₀ (n + 3) (SHA1.expandBy3 scratch m (4 * n)) := by
  have h12 : 4 * n - 12 = 4 * (n - 3) := by omega
  have h32 : 4 * n - 32 = 4 * (n - 8) := by omega
  have h56 : 4 * n - 56 = 4 * (n - 14) := by omega
  have h64 : 4 * n - 64 = 4 * (n - 16) := by omega
  rw [SHA1.expandBy3, h12, h32, h56, h64]
  apply h.store _ 3 (by decide)
  intro k hk
  rw [lane_rotateLanes1 _ (by omega), lane_xor, lane_xor, lane_xor, h.lane_mload (by omega) (by omega),
    h.lane_mload (by omega) (by omega), h.lane_mload (by omega) (by omega),
    h.lane_mload (by omega) (by omega), Sha1.schedule_of_le block (by omega : 16 ≤ n + k), ← BitVec.xor_assoc,
    Nat.sub_add_comm (by omega), Nat.sub_add_comm (by omega), Nat.sub_add_comm (by omega),
    Nat.sub_add_comm (by omega)]

theorem Scheduled.expandBy6 {m₀ m : Memory} {n : ℕ} (hn : 32 ≤ n) (h : Scheduled scratch block m₀ n m) :
    Scheduled scratch block m₀ (n + 6) (SHA1.expandBy6 scratch m (4 * n)) := by
  have h24 : 4 * n - 24 = 4 * (n - 6) := by omega
  have h64 : 4 * n - 64 = 4 * (n - 16) := by omega
  have h112 : 4 * n - 112 = 4 * (n - 28) := by omega
  have h128 : 4 * n - 128 = 4 * (n - 32) := by omega
  rw [SHA1.expandBy6, h24, h64, h112, h128]
  apply h.store _ 6 (by decide)
  intro k hk
  rw [lane_rotateLanes2 _ (by omega), lane_xor, lane_xor, lane_xor, h.lane_mload (by omega) (by omega),
    h.lane_mload (by omega) (by omega), h.lane_mload (by omega) (by omega),
    h.lane_mload (by omega) (by omega), Sha1.schedule_twice block (by omega : 32 ≤ n + k), ← BitVec.xor_assoc,
    Nat.sub_add_comm (by omega), Nat.sub_add_comm (by omega), Nat.sub_add_comm (by omega),
    Nat.sub_add_comm (by omega)]

theorem Scheduled.foldl {m₀ m : Memory} {f : Memory → ℕ → Memory} (low s : ℕ)
    (hf : ∀ n m, low ≤ n → Scheduled scratch block m₀ n m → Scheduled scratch block m₀ (n + s) (f m (4 * n)))
    (passes : ℕ) {n : ℕ} (hn : low ≤ n) (h : Scheduled scratch block m₀ n m) :
    Scheduled scratch block m₀ (n + passes * s) ((List.range' (4 * n) passes (4 * s)).foldl f m) := by
  induction passes generalizing n m with
  | zero => simpa using h
  | succ passes ih =>
    have hnext : 4 * n + 4 * s = 4 * (n + s) := by omega
    have htotal : n + (passes + 1) * s = n + s + passes * s := by
      rw [Nat.succ_mul]
      omega
    rw [List.range'_succ, List.foldl_cons, hnext, htotal]
    exact ih (by omega) (hf n m hn h)

/-- Of the words beyond a store nothing is asked, so that what a load brings with it does no harm. -/
theorem expand_scheduled {m₀ m : Memory} (h : Scheduled scratch block m₀ 16 m) :
    Scheduled scratch block m₀ 80 (expand scratch m) := by
  have h34 : Scheduled scratch block m₀ 34 ((List.range' 64 6 12).foldl (SHA1.expandBy3 scratch) m) :=
    Scheduled.foldl 16 3 (fun n m hn h => h.expandBy3 hn) 6 (by decide) h
  have h32 : Scheduled scratch block m₀ 32 ((List.range' 64 6 12).foldl (SHA1.expandBy3 scratch) m) :=
    ⟨fun t ht => h34.words t (by omega), h34.below⟩
  exact Scheduled.foldl 32 6 (fun n m hn h => h.expandBy6 hn) 8 (by decide) h32

end Expand

end LineaSgxProver.Verifier.SHA1
