import LineaSgxProver.Verifier.SHA1Rounds
import Mathlib.Data.List.GetD

namespace LineaSgxProver.Verifier.SHA1

open Library
open Sha1 (State Word)

section Bytes

theorem byteAt_readword (m : Memory) (ptr : ℕ) (off count : SU256) {p : ℕ} (hp : p < 32) :
    byteAt (readword m ptr off count) p =
      if off.toNat + p < count.toNat then m.byte (ptr + off.toNat + p) else 0 := by
  unfold readword
  by_cases hoff : off < count
  · have hlt : off.toNat < count.toNat := hoff
    have hrest : (count - off).toNat = count.toNat - off.toNat := BitVec.toNat_sub_of_le (BitVec.le_of_lt hoff)
    have h32 : (32 : SU256).toNat = 32 := rfl
    rw [if_pos hoff]
    by_cases hcut : count - off < 32
    · have hcut' : (count - off).toNat < 32 := hcut
      have hleft : (32 - (count - off)).toNat = 32 - (count.toNat - off.toNat) := by
        rw [BitVec.toNat_sub_of_le (BitVec.le_of_lt hcut), h32, hrest]
      simp only [hcut, if_true, hleft]
      rw [byteAt_and_mask _ (by omega) hp, Memory.byteAt_mload _ _ hp]
      exact if_congr (by omega) rfl rfl
    · have hcut' : ¬ (count - off).toNat < 32 := hcut
      simp only [hcut, if_false]
      rw [Memory.byteAt_mload _ _ hp, if_pos (by omega)]
  · have hle : ¬ off.toNat < count.toNat := hoff
    rw [if_neg hoff, if_neg (by omega)]
    simp [byteAt]

end Bytes

section Padding

variable (msg : Bytes)

theorem pad_length : (Sha1.pad msg).length = msg.length + 9 + (119 - msg.length % 64) % 64 := by
  simp [Sha1.pad]
  omega

theorem pad_getD (q : ℕ) : (Sha1.pad msg).getD q 0 =
    if q < msg.length then msg.getD q 0
    else if q = msg.length then 0x80
    else if q + 8 < (Sha1.pad msg).length then 0
    else (BigEndian.encode 8 (8 * msg.length)).getD (q + 8 - (Sha1.pad msg).length) 0 := by
  have hlen := pad_length msg
  by_cases hmsg : q < msg.length
  · rw [if_pos hmsg, Sha1.pad, List.getD_append _ _ _ _ hmsg]
  · rw [if_neg hmsg, Sha1.pad, List.getD_append_right _ _ _ _ (by omega)]
    by_cases hend : q = msg.length
    · rw [if_pos hend, hend, Nat.sub_self]
      rfl
    · obtain ⟨r, hr⟩ : ∃ r, q - msg.length = r + 1 := ⟨q - msg.length - 1, by omega⟩
      rw [if_neg hend, hr, List.getD_cons_succ, ← Sha1.pad]
      by_cases hzero : q + 8 < (Sha1.pad msg).length
      · have hin : r < (119 - msg.length % 64) % 64 := by omega
        rw [if_pos hzero, List.getD_append _ _ _ _ (by simpa using hin), List.getD_replicate _ hin]
      · have hindex : q + 8 - (Sha1.pad msg).length = r - (119 - msg.length % 64) % 64 := by omega
        rw [if_neg hzero, List.getD_append_right _ _ _ _ (by simp; omega), List.length_replicate, hindex]

theorem and_blocks (x : SU256) (hx : x.toNat < 2 ^ 64) :
    (x &&& (0xFFFFFFFFFFFFFFC0 : SU256)).toNat = x.toNat / 64 * 64 := by
  have hmask : ∀ i : Fin 256, (0xFFFFFFFFFFFFFFC0 : SU256).getLsbD i = decide (6 ≤ i.val ∧ i.val < 64) := by
    decide +kernel
  have hshift : x &&& (0xFFFFFFFFFFFFFFC0 : SU256) = (x >>> 6) <<< 6 := by
    apply BitVec.eq_of_getLsbD_eq
    intro i hi
    rw [BitVec.getLsbD_and, hmask ⟨i, hi⟩, BitVec.getLsbD_shiftLeft, BitVec.getLsbD_ushiftRight]
    by_cases h6 : 6 ≤ i
    · have hlow : ¬ i < 6 := by omega
      have hback : 6 + (i - 6) = i := by omega
      by_cases h64 : i < 64
      · simp [h6, h64, hlow, hback, hi]
      · have hzero : x.getLsbD i = false :=
          Nat.testBit_lt_two_pow (hx.trans_le (Nat.pow_le_pow_right (by decide) (by omega)))
        simp [h64, hlow, hback, hzero]
    · have hlow : i < 6 := by omega
      simp [h6, hlow]
  have hlt : x.toNat / 64 * 64 < 2 ^ 256 := by omega
  rw [hshift, BitVec.toNat_shiftLeft, BitVec.toNat_ushiftRight, Nat.shiftRight_eq_div_pow, Nat.shiftLeft_eq]
  exact Nat.mod_eq_of_lt hlt

theorem totallen_toNat (len : SU256) (hlen : len.toNat = msg.length) (hsize : msg.length < 2 ^ 61) :
    (totallen len).toNat = (Sha1.pad msg).length := by
  have h1 : (1 : SU256).toNat = 1 := rfl
  have h64 : (64 : SU256).toNat = 64 := rfl
  have hsucc : (len + 1).toNat = msg.length + 1 := by
    rw [BitVec.toNat_add, hlen, h1]
    omega
  have hblocks := and_blocks (len + 1) (by omega)
  have hfirst : (((len + 1) &&& 0xFFFFFFFFFFFFFFC0) + 64).toNat = (msg.length + 1) / 64 * 64 + 64 := by
    rw [BitVec.toNat_add, hblocks, hsucc, h64]
    omega
  have hroom : (((len + 1) &&& 0xFFFFFFFFFFFFFFC0) + 64 - len).toNat =
      (msg.length + 1) / 64 * 64 + 64 - msg.length := by
    rw [BitVec.toNat_sub, hfirst, hlen]
    omega
  have hpad := pad_length msg
  unfold totallen
  simp only
  split_ifs with h
  · rw [BitVec.lt_def, hroom] at h
    have h9 : (9 : SU256).toNat = 9 := rfl
    rw [BitVec.toNat_add, hfirst, h64]
    omega
  · rw [BitVec.lt_def, hroom] at h
    have h9 : (9 : SU256).toNat = 9 := rfl
    rw [hfirst]
    omega

end Padding

section Block

variable {m : Memory} {scratch data : ℕ} {len : SU256} {msg : Bytes}

/-- The data in memory, below the scratch memory. -/
structure Holds (m : Memory) (scratch data : ℕ) (len : SU256) (msg : Bytes) : Prop where
  length : len.toNat = msg.length
  bytes : ∀ i < msg.length, m.byte (data + i) = msg.getD i 0
  below : data + msg.length ≤ scratch
  size : msg.length < 2 ^ 61

theorem Holds.congr {m' : Memory} (h : Holds m scratch data len msg) (hm : ∀ a < scratch, m'.byte a = m.byte a) :
    Holds m' scratch data len msg where
  length := h.length
  bytes := by
    intro i hi
    have hbelow := h.below
    rw [hm _ (by omega), h.bytes i hi]
  below := h.below
  size := h.size

theorem Holds.byteAt_readword (h : Holds m scratch data len msg) {off : SU256} {p : ℕ} (hp : p < 32) :
    byteAt (readword m data off len) p = if off.toNat + p < msg.length then msg.getD (off.toNat + p) 0 else 0 := by
  rw [SHA1.byteAt_readword _ _ _ _ hp, h.length]
  split_ifs with hin
  · rw [Nat.add_assoc, h.bytes _ hin]
  · rfl

theorem Holds.dataBytes (h : Holds m scratch data len msg) {i : SU256} (hi : i.toNat < 2 ^ 62) {p : ℕ}
    (hp : p < 64) :
    (((m.mstore scratch (readword m data i len)).mstore (scratch + 32)
      (readword (m.mstore scratch (readword m data i len)) data (i + 32) len)).byte (scratch + p)) =
      if i.toNat + p < msg.length then msg.getD (i.toNat + p) 0 else 0 := by
  have hfirst : Holds (m.mstore scratch (readword m data i len)) scratch data len msg :=
    h.congr fun a ha => Memory.mstore_outside _ _ _ (Or.inl ha)
  by_cases hlow : p < 32
  · rw [Memory.mstore_outside _ _ _ (by omega), Memory.mstore_at _ _ _ hlow, h.byteAt_readword hlow]
  · have h32 : (32 : SU256).toNat = 32 := rfl
    have hnext : (i + 32).toNat = i.toNat + 32 := by
      rw [BitVec.toNat_add, h32]
      omega
    have haddress : scratch + p = scratch + 32 + (p - 32) := by omega
    have hindex : i.toNat + 32 + (p - 32) = i.toNat + p := by omega
    rw [haddress, Memory.mstore_at _ _ _ (by omega), hfirst.byteAt_readword (by omega), hnext, hindex]

/-- The block before its length is added. -/
def terminated (scratch data : ℕ) (len i : SU256) (m : Memory) : Memory :=
  let m := m.mstore scratch (readword m data i len)
  let m := m.mstore (scratch + 32) (readword m data (i + 32) len)
  if len - i < 64 then m.mstore8 (scratch + (len - i).toNat) 0x80 else m

theorem loadBlock_eq (scratch data : ℕ) (len i : SU256) (m : Memory) : loadBlock scratch data len i m =
    if i = totallen len - 64 then
      (terminated scratch data len i m).mstore (scratch + 32)
        ((terminated scratch data len i m).mload (scratch + 32) ||| len * 8)
    else terminated scratch data len i m := rfl

theorem Holds.terminated (h : Holds m scratch data len msg) {b p : ℕ} (hb : b < 2 ^ 56) (hp : p < 64) :
    (terminated scratch data len (BitVec.ofNat 256 (64 * b)) m).byte (scratch + p) =
      if 64 * b + p < msg.length then msg.getD (64 * b + p) 0 else if 64 * b + p = msg.length then 0x80 else 0 := by
  have hi : (BitVec.ofNat 256 (64 * b)).toNat = 64 * b := by
    rw [BitVec.toNat_ofNat]
    omega
  have hsize := h.size
  have h64 : (64 : SU256).toNat = 64 := rfl
  have hdiff : (len - BitVec.ofNat 256 (64 * b)).toNat = (2 ^ 256 - 64 * b + msg.length) % 2 ^ 256 := by
    rw [BitVec.toNat_sub, hi, h.length]
  have hbytes := h.dataBytes (i := BitVec.ofNat 256 (64 * b)) (by omega) hp
  rw [hi] at hbytes
  rw [SHA1.terminated]
  simp only [BitVec.lt_def, h64, hdiff]
  by_cases hend : 64 * b ≤ msg.length ∧ msg.length < 64 * b + 64
  · have hrest : (2 ^ 256 - 64 * b + msg.length) % 2 ^ 256 = msg.length - 64 * b := by omega
    rw [hrest, if_pos (by omega), Memory.mstore8]
    by_cases hq : 64 * b + p = msg.length
    · have hlt : ¬ 64 * b + p < msg.length := by omega
      rw [if_neg hlt, if_pos hq]
      exact if_pos (by omega)
    · rw [if_neg hq, ← hbytes]
      exact if_neg (by omega)
  · have hq : ¬ 64 * b + p = msg.length := by omega
    rw [if_neg (by omega), if_neg hq, hbytes]

theorem byteAt_lengthWord (hlen : len.toNat = msg.length) (hsize : msg.length < 2 ^ 61) {p : ℕ} (hp : p < 32) :
    byteAt (len * 8) p = if p < 24 then 0 else (BigEndian.encode 8 (8 * msg.length)).getD (p - 24) 0 := by
  have h8 : (8 : SU256).toNat = 8 := rfl
  have hbits : (len * 8).toNat = 8 * msg.length := by
    rw [BitVec.toNat_mul, hlen, h8]
    omega
  rw [byteAt_eq_ofNat, hbits]
  split_ifs with h
  · have hpow : 256 ^ 8 ≤ 256 ^ (31 - p) := Nat.pow_le_pow_right (by decide) (by omega)
    rw [Nat.div_eq_of_lt (by omega)]
    rfl
  · have hexp : 31 - p = 8 - 1 - (p - 24) := by omega
    rw [BigEndian.encode, List.getD_eq_getElem _ _ (by simp; omega), List.getElem_map, List.getElem_range, hexp]

theorem Holds.loadBlock (h : Holds m scratch data len msg) {b p : ℕ} (hb : 64 * b < (Sha1.pad msg).length)
    (hp : p < 64) : (loadBlock scratch data len (BitVec.ofNat 256 (64 * b)) m).byte (scratch + p) =
      (Sha1.pad msg).getD (64 * b + p) 0 := by
  have hsize := h.size
  have hpad := pad_length msg
  have hbound : b < 2 ^ 56 := by omega
  have hold := h.terminated hbound hp
  have hlast : BitVec.ofNat 256 (64 * b) = totallen len - 64 ↔ 64 * b + 64 = (Sha1.pad msg).length := by
    have htotal := totallen_toNat msg len h.length hsize
    have h64 : (64 : SU256).toNat = 64 := rfl
    rw [← BitVec.toNat_inj, BitVec.toNat_sub, htotal, h64, BitVec.toNat_ofNat]
    omega
  rw [pad_getD, loadBlock_eq]
  simp only [hlast]
  by_cases hb : 64 * b + 64 = (Sha1.pad msg).length
  · rw [if_pos hb]
    by_cases hhalf : p < 32
    · have hzero : 64 * b + p + 8 < (Sha1.pad msg).length := by omega
      rw [Memory.mstore_outside _ _ _ (by omega), hold, if_pos hzero]
    · obtain ⟨r, rfl⟩ : ∃ r, p = 32 + r := ⟨p - 32, by omega⟩
      rw [← Nat.add_assoc scratch, Memory.mstore_at _ _ _ (by omega), byteAt_or, Memory.byteAt_mload _ _ (by omega),
        Nat.add_assoc scratch, hold, byteAt_lengthWord h.length hsize (by omega)]
      by_cases hzero : r < 24
      · have hzero' : 64 * b + (32 + r) + 8 < (Sha1.pad msg).length := by omega
        rw [if_pos hzero, if_pos hzero', UInt8.or_zero]
      · have hzero' : ¬ 64 * b + (32 + r) + 8 < (Sha1.pad msg).length := by omega
        have hmsg : ¬ 64 * b + (32 + r) < msg.length := by omega
        have hend : ¬ 64 * b + (32 + r) = msg.length := by omega
        have hindex : 64 * b + (32 + r) + 8 - (Sha1.pad msg).length = r - 24 := by omega
        rw [if_neg hmsg, if_neg hend, if_neg hmsg, if_neg hend, if_neg hzero, if_neg hzero', hindex,
          UInt8.zero_or]
  · have hzero : 64 * b + p + 8 < (Sha1.pad msg).length := by omega
    rw [if_neg hb, hold, if_pos hzero]

theorem loadBlock_below (m : Memory) (scratch data : ℕ) (len i : SU256) {a : ℕ} (ha : a < scratch) :
    (loadBlock scratch data len i m).byte a = m.byte a := by
  have hterminated : (terminated scratch data len i m).byte a = m.byte a := by
    rw [terminated]
    split_ifs
    · rw [Memory.mstore8_other _ _ (by omega), Memory.mstore_outside _ _ _ (by omega),
        Memory.mstore_outside _ _ _ (by omega)]
    · rw [Memory.mstore_outside _ _ _ (by omega), Memory.mstore_outside _ _ _ (by omega)]
  rw [loadBlock_eq]
  split_ifs
  · rw [Memory.mstore_outside _ _ _ (by omega), hterminated]
  · exact hterminated

theorem Holds.scheduled (h : Holds m scratch data len msg) {b : ℕ} (hb : 64 * b < (Sha1.pad msg).length) :
    Scheduled scratch (fun t => Sha1.wordOf (Sha1.pad msg) (64 * b + 4 * t)) m 16
      (SHA1.loadBlock scratch data len (BitVec.ofNat 256 (64 * b)) m) where
  words := by
    intro t ht
    have hbyte (i : ℕ) (hi : i < 4) : (SHA1.loadBlock scratch data len (BitVec.ofNat 256 (64 * b)) m).byte
        (scratch + 4 * t + i) = (Sha1.pad msg).getD (64 * b + 4 * t + i) 0 := by
      rw [Nat.add_assoc, h.loadBlock hb (by omega), ← Nat.add_assoc]
    have hfirst := hbyte 0 (by decide)
    rw [Nat.add_zero, Nat.add_zero] at hfirst
    rw [Sha1.schedule_of_lt _ ht, Memory.word, Sha1.wordOf, hfirst, hbyte 1 (by decide), hbyte 2 (by decide),
      hbyte 3 (by decide)]
  below := fun _ ha => loadBlock_below m scratch data len _ ha

theorem rounds_pack {block : ℕ → Word} {m₀ : Memory} (h : Scheduled scratch block m₀ 80 m) (s : State) {n : ℕ}
    (hn : n ≤ 80) : (List.range n).foldl (fun x j => round (m.mload (scratch + 4 * j)) j x) (pack s) =
      pack (Sha1.rounds (Sha1.schedule block) n s) := by
  induction n with
  | zero => rfl
  | succ n ih =>
    have hlane : lane (m.mload (scratch + 4 * n)) 0 = Sha1.schedule block n :=
      h.lane_mload (k := 0) (by decide) (by omega)
    rw [List.range_succ, List.foldl_append, ih (by omega), List.foldl_cons, List.foldl_nil,
      round_pack _ (by omega), hlane, Sha1.rounds, Sha1.rounds, List.range_succ, List.foldl_append]
    rfl

/-- One block; the data is still there for the next one. -/
theorem Holds.compress (h : Holds m scratch data len msg) {b : ℕ} (hb : 64 * b < (Sha1.pad msg).length)
    (s : State) : ∃ m', Holds m' scratch data len msg ∧ SHA1.compress scratch data len (m, pack s) (64 * b) =
      (m', pack (Sha1.compress (fun t => Sha1.wordOf (Sha1.pad msg) (64 * b + 4 * t)) s)) := by
  have hexpanded := expand_scheduled (h.scheduled hb)
  refine ⟨_, h.congr hexpanded.below, ?_⟩
  rw [SHA1.compress]
  simp only
  rw [rounds_pack hexpanded s le_rfl, pack_add, Sha1.compress]

theorem Holds.absorb (h : Holds m scratch data len msg) {n : ℕ} (hn : 64 * n ≤ (Sha1.pad msg).length) :
    ∃ m', Holds m' scratch data len msg ∧
      (List.range' 0 n 64).foldl (SHA1.compress scratch data len) (m, pack Sha1.initial) =
        (m', pack (Sha1.absorb (Sha1.pad msg) n)) := by
  induction n with
  | zero => exact ⟨m, h, rfl⟩
  | succ n ih =>
    obtain ⟨m', h', habsorbed⟩ := ih (by omega)
    obtain ⟨m'', h'', hblock⟩ := h'.compress (b := n) (by omega) (Sha1.absorb (Sha1.pad msg) n)
    refine ⟨m'', h'', ?_⟩
    have hstep : 0 + 64 * n = 64 * n := Nat.zero_add _
    rw [List.range'_concat, List.foldl_append, habsorbed, List.foldl_cons, List.foldl_nil, hstep, hblock,
      Sha1.absorb, Sha1.absorb, List.range_succ, List.foldl_append]
    rfl

end Block

section Unpack

theorem getLsbD_unpack (s : State) {k j : ℕ} (hk : k < 5) (hj : j < 32) :
    (unpack (pack s)).getLsbD (96 + (32 * k + j)) = (piece s k).getLsbD j := by
  have h32 (x : SU256) : x / (0x100000000 : SU256) = x >>> 32 := div_two_pow x (n := 32) (by decide)
  have h24 (x : SU256) : x / (0x1000000 : SU256) = x >>> 24 := div_two_pow x (n := 24) (by decide)
  have h16 (x : SU256) : x / (0x10000 : SU256) = x >>> 16 := div_two_pow x (n := 16) (by decide)
  have h8 (x : SU256) : x / (0x100 : SU256) = x >>> 8 := div_two_pow x (n := 8) (by decide)
  have h96 (x : SU256) : x * (0x1000000000000000000000000 : SU256) = x <<< 96 := mul_two_pow x 96
  have hmask₄ : ∀ i : Fin 256, (0xFFFFFFFF00000000000000000000000000000000 : SU256).getLsbD i =
      decide (i.val / 32 = 4) := by decide +kernel
  have hmask₃ : ∀ i : Fin 256, (0xFFFFFFFF000000000000000000000000 : SU256).getLsbD i =
      decide (i.val / 32 = 3) := by decide +kernel
  have hmask₂ : ∀ i : Fin 256, (0xFFFFFFFF0000000000000000 : SU256).getLsbD i =
      decide (i.val / 32 = 2) := by decide +kernel
  have hmask₁ : ∀ i : Fin 256, (0xFFFFFFFF00000000 : SU256).getLsbD i = decide (i.val / 32 = 1) := by
    decide +kernel
  have hmask₀ : ∀ i : Fin 256, (0xFFFFFFFF : SU256).getLsbD i = decide (i.val / 32 = 0) := by decide +kernel
  have hin : 32 * k + j < 256 := by omega
  have hback : 96 + (32 * k + j) - 96 = 32 * k + j := by omega
  have hword : (32 * k + j) / 32 = k := by omega
  have habove : ¬ 96 + (32 * k + j) < 96 := by omega
  have hinside : 96 + (32 * k + j) < 256 := by omega
  have hpack := getLsbD_pack s k (j := j) (by omega)
  rw [unpack, h32, h24, h16, h8, h96, BitVec.getLsbD_shiftLeft, hback]
  simp only [BitVec.getLsbD_or, BitVec.getLsbD_and, BitVec.getLsbD_ushiftRight, hmask₄ ⟨_, hin⟩, hmask₃ ⟨_, hin⟩,
    hmask₂ ⟨_, hin⟩, hmask₁ ⟨_, hin⟩, hmask₀ ⟨_, hin⟩, hword, habove, hinside]
  rw [← hpack]
  -- the word is moved down by the bits that are between it and the last one
  obtain rfl | rfl | rfl | rfl | rfl : k = 0 ∨ k = 1 ∨ k = 2 ∨ k = 3 ∨ k = 4 := by omega
  · simp
  · have hshift : 8 + (32 * 1 + j) = 40 * 1 + j := by omega
    simp [hshift]
  · have hshift : 16 + (32 * 2 + j) = 40 * 2 + j := by omega
    simp [hshift]
  · have hshift : 24 + (32 * 3 + j) = 40 * 3 + j := by omega
    simp [hshift]
  · have hshift : 32 + (32 * 4 + j) = 40 * 4 + j := by omega
    simp [hshift]

theorem getLsbD_join (s : State) {k j : ℕ} (hk : k < 5) (hj : j < 32) :
    s.join.getLsbD (32 * k + j) = (piece s k).getLsbD j := by
  rw [State.join]
  simp only [BitVec.getLsbD_append]
  obtain rfl | rfl | rfl | rfl | rfl : k = 0 ∨ k = 1 ∨ k = 2 ∨ k = 3 ∨ k = 4 := by omega
  · simp [hj, piece]
  · have h₁ : ¬ 32 * 1 + j < 32 := by omega
    have h₂ : 32 * 1 + j - 32 = j := by omega
    simp [h₁, h₂, hj, piece]
  · have h₁ : ¬ 32 * 2 + j < 32 := by omega
    have h₂ : ¬ 32 * 2 + j - 32 < 32 := by omega
    have h₃ : 32 * 2 + j - 32 - 32 = j := by omega
    simp [h₁, h₂, h₃, hj, piece]
  · have h₁ : ¬ 32 * 3 + j < 32 := by omega
    have h₂ : ¬ 32 * 3 + j - 32 < 32 := by omega
    have h₃ : ¬ 32 * 3 + j - 32 - 32 < 32 := by omega
    have h₄ : 32 * 3 + j - 32 - 32 - 32 = j := by omega
    simp [h₁, h₂, h₃, h₄, hj, piece]
  · have h₁ : ¬ 32 * 4 + j < 32 := by omega
    have h₂ : ¬ 32 * 4 + j - 32 < 32 := by omega
    have h₃ : ¬ 32 * 4 + j - 32 - 32 < 32 := by omega
    have h₄ : ¬ 32 * 4 + j - 32 - 32 - 32 < 32 := by omega
    have h₅ : 32 * 4 + j - 32 - 32 - 32 - 32 = j := by omega
    simp [h₁, h₂, h₃, h₄, h₅, piece]

theorem unpack_pack (s : State) : (unpack (pack s)).extractLsb' 96 160 = s.join := by
  apply BitVec.eq_of_getLsbD_eq
  intro i hi
  obtain ⟨k, j, hk, hj, rfl⟩ : ∃ k j, k < 5 ∧ j < 32 ∧ i = 32 * k + j :=
    ⟨i / 32, i % 32, by omega, Nat.mod_lt i (by decide), by omega⟩
  rw [BitVec.getLsbD_extractLsb', getLsbD_unpack s hk hj, getLsbD_join s hk hj]
  simp [hi]

end Unpack

theorem Holds.sha1 {m : Memory} {data : ℕ} {msg : Bytes}
    (h : Holds m (m.mload 0x40).toNat (data + 32) (m.mload data) msg) : SHA1.sha1 m data = Sha1.hash msg := by
  have hblocks : (totallen (m.mload data)).toNat / 64 = (Sha1.pad msg).length / 64 := by
    rw [totallen_toNat msg _ h.length h.size]
  obtain ⟨m', -, habsorbed⟩ := h.absorb (n := (Sha1.pad msg).length / 64) (Nat.mul_div_le _ _)
  have hinitial : pack Sha1.initial = 0x6745230100EFCDAB890098BADCFE001032547600C3D2E1F0 := by decide +kernel
  rw [hinitial] at habsorbed
  rw [SHA1.sha1, hblocks]
  simp only
  rw [habsorbed, unpack_pack, Sha1.hash]

/-- The library agrees with the standard as long as the data ends before the free memory. -/
theorem sha1_eq_hash (m : Memory) (data : ℕ) (msg : Bytes) (hlen : (m.mload data).toNat = msg.length)
    (hbytes : ∀ i < msg.length, m.byte (data + 32 + i) = msg.getD i 0)
    (hfree : data + 32 + msg.length ≤ (m.mload 0x40).toNat) (hsize : msg.length < 2 ^ 61) :
    sha1 m data = Sha1.hash msg := by
  have h : Holds m (m.mload 0x40).toNat (data + 32) (m.mload data) msg := ⟨hlen, hbytes, hfree, hsize⟩
  exact h.sha1

/-- The three bytes at 128, and free memory from 192 on. -/
def sample : Memory :=
  let m : Memory := ⟨fun _ => 0⟩
  ((m.mstore 0x40 0xC0).mstore 0x80 3).mstore 0xA0
    0x6162630000000000000000000000000000000000000000000000000000000000

theorem sha1_eq_hash_sample : sha1 sample 0x80 = Sha1.hash [0x61, 0x62, 0x63] :=
  sha1_eq_hash sample 0x80 [0x61, 0x62, 0x63] (by decide +kernel) (by decide +kernel) (by decide +kernel)
    (by decide)

end LineaSgxProver.Verifier.SHA1
