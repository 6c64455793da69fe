import LineaSgxProver.Library.BigEndian

namespace LineaSgxProver

open Library

abbrev Bytes := List UInt8

theorem exists_word {buf : Bytes} {n : ℕ} (h : buf.length = 32 + n) :
    ∃ w rest, buf = w ++ rest ∧ w.length = 32 ∧ rest.length = n :=
  ⟨buf.take 32, buf.drop 32, (List.take_append_drop 32 buf).symm, by simp [h], by simp [h]⟩

abbrev SH256 := BitVec 256

abbrev SU256 := BitVec 256

/-- `SU256::as_u64`, which panics on a number that does not fit. -/
def SU256.asU64 (n : SU256) : Option UInt64 :=
  if n.toNat < 2 ^ 64 then some (UInt64.ofNat n.toNat) else none

theorem SU256.asU64_eq_some {n : SU256} {m : UInt64} : SU256.asU64 n = some m ↔ n.toNat = m.toNat := by
  have hm : m.toNat < 2 ^ 64 := m.toNat_lt
  unfold SU256.asU64
  constructor
  · intro h
    split_ifs at h with hn
    rw [← Option.some.inj h, UInt64.toNat_ofNat', Nat.mod_eq_of_lt hn]
  · intro h
    rw [if_pos (h ▸ hm), h, UInt64.ofNat_toNat]

/-- `U256` arithmetic, which panics where the result does not fit. -/
def SU256.add (a b : SU256) : Option SU256 := if a.toNat + b.toNat < 2 ^ 256 then some (a + b) else none

def SU256.sub (a b : SU256) : Option SU256 := if b.toNat ≤ a.toNat then some (a - b) else none

namespace SH256

@[irreducible] def bytes (h : SH256) : Bytes := BigEndian.encode 32 h.toNat

def ofBytes (b : Bytes) : SH256 := BitVec.ofNat 256 (BigEndian.decode b)

def fromSlice (b : Bytes) : Option SH256 := if b.length = 32 then some (ofBytes b) else none

@[simp] theorem bytes_length (h : SH256) : (bytes h).length = 32 := by
  rw [bytes, BigEndian.encode_length]

@[simp] theorem ofBytes_bytes (h : SH256) : ofBytes (bytes h) = h := by
  have hlt : h.toNat < 256 ^ 32 := h.isLt
  rw [ofBytes, bytes, BigEndian.decode_encode 32 _ hlt, BitVec.ofNat_toNat, BitVec.setWidth_eq]

theorem ofBytes_toNat (b : Bytes) (hb : b.length ≤ 32) : (ofBytes b).toNat = BigEndian.decode b := by
  have hlt : BigEndian.decode b < 2 ^ 256 := by
    calc BigEndian.decode b < 256 ^ b.length := BigEndian.decode_lt b
      _ ≤ 256 ^ 32 := Nat.pow_le_pow_right (by decide) hb
      _ = 2 ^ 256 := by norm_num
  rw [ofBytes, BitVec.toNat_ofNat, Nat.mod_eq_of_lt hlt]

theorem bytes_ofBytes (b : Bytes) (hb : b.length = 32) : bytes (ofBytes b) = b := by
  rw [bytes, ofBytes_toNat b hb.le, ← hb, BigEndian.encode_decode]

theorem bytes_injective {h k : SH256} (e : bytes h = bytes k) : h = k := by
  rw [← ofBytes_bytes h, e, ofBytes_bytes]

end SH256

/-- How the program was built: with or without checks of integer overflow. -/
class Profile where
  overflowChecks : Bool

abbrev debugProfile : Profile := ⟨true⟩

section Arithmetic

variable [Profile]

def addU64 (a b : UInt64) : Option UInt64 :=
  if a.toNat + b.toNat < 2 ^ 64 ∨ Profile.overflowChecks = false then some (a + b) else none

def subU64 (a b : UInt64) : Option UInt64 :=
  if b.toNat ≤ a.toNat ∨ Profile.overflowChecks = false then some (a - b) else none

theorem addU64_of_lt {a b : UInt64} (h : a.toNat + b.toNat < 2 ^ 64) : addU64 a b = some (a + b) :=
  if_pos (Or.inl h)

theorem addU64_eq_some {a b c : UInt64} (h : addU64 a b = some c) : a + b = c := by
  unfold addU64 at h
  split_ifs at h
  exact Option.some.inj h

theorem subU64_of_le {a b : UInt64} (h : b.toNat ≤ a.toNat) : subU64 a b = some (a - b) :=
  if_pos (Or.inl h)

end Arithmetic

theorem add_toNat_le (a b : UInt64) : (a + b).toNat ≤ a.toNat + b.toNat := by
  rw [UInt64.toNat_add]
  exact Nat.mod_le _ _

end LineaSgxProver
