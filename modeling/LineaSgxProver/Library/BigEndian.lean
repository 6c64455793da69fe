import Mathlib.Data.List.Induction
import Mathlib.Tactic.Ring

namespace LineaSgxProver.Library.BigEndian

def encode (k n : ℕ) : List UInt8 := (List.range k).map fun i => UInt8.ofNat (n / 256 ^ (k - 1 - i))

def decode (bs : List UInt8) : ℕ := bs.foldl (fun n b => n * 256 + b.toNat) 0

@[simp] theorem encode_length (k n : ℕ) : (encode k n).length = k := by
  simp [encode]

theorem encode_succ (k n : ℕ) : encode (k + 1) n = encode k (n / 256) ++ [UInt8.ofNat n] := by
  have hdigit : ∀ i ∈ List.range k, UInt8.ofNat (n / 256 ^ (k - i)) =
      UInt8.ofNat (n / 256 / 256 ^ (k - 1 - i)) := by
    intro i hi
    have hlt := List.mem_range.mp hi
    have hpow : 256 * 256 ^ (k - 1 - i) = 256 ^ (k - i) := by
      rw [← pow_succ']
      congr 1
      omega
    rw [Nat.div_div_eq_div_mul, hpow]
  simp only [encode, List.range_succ, List.map_append, List.map_singleton, Nat.add_sub_cancel,
    Nat.sub_self, pow_zero, Nat.div_one]
  rw [List.map_congr_left hdigit]

theorem decode_concat (bs : List UInt8) (b : UInt8) :
    decode (bs ++ [b]) = decode bs * 256 + b.toNat := by
  simp [decode, List.foldl_append]

theorem decode_append (as bs : List UInt8) :
    decode (as ++ bs) = decode as * 256 ^ bs.length + decode bs := by
  induction bs using List.reverseRecOn with
  | nil => simp [decode]
  | append_singleton bs b ih =>
    rw [← List.append_assoc, decode_concat, ih, decode_concat, List.length_append,
      List.length_singleton, pow_succ]
    ring

theorem decode_cons (b : UInt8) (bs : List UInt8) :
    decode (b :: bs) = b.toNat * 256 ^ bs.length + decode bs := by
  rw [← List.singleton_append, decode_append]
  simp [decode]

theorem decode_zeros (k : ℕ) (bs : List UInt8) : decode (List.replicate k 0 ++ bs) = decode bs := by
  induction k with
  | zero => rfl
  | succ k ih =>
    rw [List.replicate_succ, List.cons_append, decode_cons, ih]
    simp

theorem decode_dropWhile (bs : List UInt8) : decode (bs.dropWhile (· = 0)) = decode bs := by
  induction bs with
  | nil => rfl
  | cons b bs ih =>
    rw [List.dropWhile_cons]
    split_ifs with hb
    · have hzero : b = 0 := by simpa using hb
      rw [ih, decode_cons, hzero]
      simp
    · rfl

theorem drop_encode (k j n : ℕ) : (encode (k + j) n).drop k = encode j n := by
  induction j generalizing n with
  | zero => exact List.drop_eq_nil_of_le (by simp)
  | succ j ih =>
    rw [← Nat.add_assoc, encode_succ, List.drop_append_of_le_length (by simp), ih, encode_succ]

theorem decode_lt (bs : List UInt8) : decode bs < 256 ^ bs.length := by
  induction bs using List.reverseRecOn with
  | nil => simp [decode]
  | append_singleton bs b ih =>
    have hb : b.toNat < 256 := b.toNat_lt
    rw [decode_concat, List.length_append, List.length_singleton, pow_succ]
    omega

theorem decode_encode (k n : ℕ) (h : n < 256 ^ k) : decode (encode k n) = n := by
  induction k generalizing n with
  | zero => simp only [pow_zero, Nat.lt_one_iff] at h; simp [encode, decode, h]
  | succ k ih =>
    have hq : n / 256 < 256 ^ k := by
      rw [pow_succ] at h
      exact Nat.div_lt_of_lt_mul (by omega)
    rw [encode_succ, decode_concat, ih _ hq]
    simp only [UInt8.toNat_ofNat', Nat.reducePow]
    omega

theorem encode_decode (bs : List UInt8) : encode bs.length (decode bs) = bs := by
  induction bs using List.reverseRecOn with
  | nil => rfl
  | append_singleton bs b ih =>
    have hb : b.toNat < 256 := b.toNat_lt
    have hd : (decode bs * 256 + b.toNat) / 256 = decode bs := by omega
    have hm : UInt8.ofNat (decode bs * 256 + b.toNat) = b := by
      apply UInt8.toNat_inj.mp
      simp only [UInt8.toNat_ofNat', Nat.reducePow]
      omega
    rw [decode_concat, List.length_append, List.length_singleton, encode_succ, hd, hm, ih]

theorem encode_injective (k : ℕ) {m n : ℕ} (hm : m < 256 ^ k) (hn : n < 256 ^ k)
    (h : encode k m = encode k n) : m = n := by
  rw [← decode_encode k m hm, ← decode_encode k n hn, h]

theorem decode_injective {bs cs : List UInt8} (hl : bs.length = cs.length)
    (h : decode bs = decode cs) : bs = cs := by
  rw [← encode_decode bs, ← encode_decode cs, hl, h]

end LineaSgxProver.Library.BigEndian
