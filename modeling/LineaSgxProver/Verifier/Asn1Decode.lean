import LineaSgxProver.Verifier.V3Parser
import LineaSgxProver.Library.Der
import Mathlib.Data.Nat.Bitwise

namespace LineaSgxProver.Verifier

open Library

def checkedSub (a b : ℕ) : Checked ℕ := if b ≤ a then .ok (a - b) else .error .overflow

theorem checkedSub_eq_ok {a b c : ℕ} : checkedSub a b = .ok c ↔ b ≤ a ∧ a - b = c := by
  unfold checkedSub
  split_ifs with h <;> simp [h]

namespace BytesUtils

def readUint8 (self : Bytes) (idx : ℕ) : Checked ℕ := UInt8.toNat <$> index self idx

def readUint16 (self : Bytes) (idx : ℕ) : Checked ℕ := do
  require (idx + 2 ≤ self.length) ""
  .ok (BigEndian.decode ((self.drop idx).take 2))

/-- The bytes at the high end of a word, over zeros. -/
def readBytesN (self : Bytes) (idx len : ℕ) : Checked ℕ := do
  require (len ≤ 32) ""
  require (idx + len ≤ self.length) ""
  .ok (BigEndian.decode ((self.drop idx).take len) * 256 ^ (32 - len))

def compareBytes (a b : Bytes) : Bool := a == b

end BytesUtils

/-! Pointers: three numbers of 80 bits in a word. -/

namespace NodePtr

def ixs (self : ℕ) : ℕ := self % 2 ^ 80

def ixf (self : ℕ) : ℕ := (self >>> 80) % 2 ^ 80

def ixl (self : ℕ) : ℕ := (self >>> 160) % 2 ^ 80

def getPtr (ixs ixf ixl : ℕ) : ℕ := ixs ||| ixf <<< 80 ||| ixl <<< 160

variable {a b c : ℕ}

theorem getPtr_eq (ha : a < 2 ^ 80) (hb : b < 2 ^ 80) : getPtr a b c = c * 2 ^ 160 + (b * 2 ^ 80 + a) := by
  have hab : a ||| b <<< 80 = b * 2 ^ 80 + a := by
    rw [Nat.lor_comm, ← Nat.shiftLeft_add_eq_or_of_lt ha, Nat.shiftLeft_eq]
  rw [getPtr, hab, Nat.lor_comm, ← Nat.shiftLeft_add_eq_or_of_lt (by omega), Nat.shiftLeft_eq]

theorem ixs_getPtr (ha : a < 2 ^ 80) (hb : b < 2 ^ 80) : ixs (getPtr a b c) = a := by
  rw [ixs, getPtr_eq ha hb]
  omega

theorem ixf_getPtr (ha : a < 2 ^ 80) (hb : b < 2 ^ 80) : ixf (getPtr a b c) = b := by
  rw [ixf, getPtr_eq ha hb, Nat.shiftRight_eq_div_pow]
  omega

theorem ixl_getPtr (ha : a < 2 ^ 80) (hb : b < 2 ^ 80) (hc : c < 2 ^ 80) : ixl (getPtr a b c) = c := by
  rw [ixl, getPtr_eq ha hb, Nat.shiftRight_eq_div_pow]
  omega

end NodePtr

namespace Asn1Decode

open NodePtr BytesUtils

/-- `uint80(ixFirstContentByte + length - 1)` -/
def lastContentByte (ixFirstContentByte length : ℕ) : Checked ℕ :=
  if ixFirstContentByte + length < 2 ^ 256 ∧ 1 ≤ ixFirstContentByte + length then
    .ok ((ixFirstContentByte + length - 1) % 2 ^ 80)
  else .error .overflow

/-- `(32 - lengthbytesLength) * 8`, in 8 bits. -/
def lengthShift (lengthbytesLength : ℕ) : Checked ℕ :=
  if lengthbytesLength ≤ 32 ∧ (32 - lengthbytesLength) * 8 < 2 ^ 8 then .ok ((32 - lengthbytesLength) * 8)
  else .error .overflow

def longLength (der : Bytes) (ix lengthbytesLength : ℕ) : Checked ℕ :=
  if lengthbytesLength = 1 then readUint8 der (ix + 2)
  else if lengthbytesLength = 2 then readUint16 der (ix + 2)
  else do
    let word ← readBytesN der (ix + 2) lengthbytesLength
    let shift ← lengthShift lengthbytesLength
    .ok (word >>> shift)

def readNodeLength (der : Bytes) (ix : ℕ) : Checked ℕ := do
  let lengthByte ← index der (ix + 1)
  if lengthByte &&& 0x80 = 0 then do
    let length := lengthByte.toNat
    let ixFirstContentByte := (ix + 2) % 2 ^ 80
    let ixLastContentByte ← lastContentByte ixFirstContentByte length
    .ok (getPtr ix ixFirstContentByte ixLastContentByte)
  else do
    let lengthbytesLength := (lengthByte &&& 0x7F).toNat
    let length ← longLength der ix lengthbytesLength
    let ixFirstContentByte := (ix + 2 + lengthbytesLength) % 2 ^ 80
    let ixLastContentByte ← lastContentByte ixFirstContentByte length
    .ok (getPtr ix ixFirstContentByte ixLastContentByte)

def root (der : Bytes) : Checked ℕ := readNodeLength der 0

def tagAt (der : Bytes) (ptr : ℕ) : Checked UInt8 := index der (ixs ptr)

def rootOfOctetStringAt (der : Bytes) (ptr : ℕ) : Checked ℕ := do
  let tag ← tagAt der ptr
  require (tag = 0x04) "Not type OCTET STRING"
  readNodeLength der (ixf ptr)

def nextSiblingOf (der : Bytes) (ptr : ℕ) : Checked ℕ := readNodeLength der (ixl ptr + 1)

def firstChildOf (der : Bytes) (ptr : ℕ) : Checked ℕ := do
  let tag ← tagAt der ptr
  require (tag &&& 0x20 = 0x20) "Not a constructed type"
  readNodeLength der (ixf ptr)

def bytesAt (der : Bytes) (ptr : ℕ) : Checked Bytes := do
  let len ← checkedSub (ixl ptr + 1) (ixf ptr)
  substring der (ixf ptr) len

def allBytesAt (der : Bytes) (ptr : ℕ) : Checked Bytes := do
  let len ← checkedSub (ixl ptr + 1) (ixs ptr)
  substring der (ixs ptr) len

theorem and_0x80 (b : UInt8) : b &&& 0x80 = 0 ↔ b.toNat < 128 := by
  have h : ∀ x : BitVec 8, x &&& 0x80#8 = 0#8 ↔ x.toNat < 128 := by decide
  rw [← UInt8.toBitVec_inj]
  exact h b.toBitVec

theorem and_0x7f (b : UInt8) : (b &&& 0x7F).toNat = b.toNat % 128 :=
  Nat.and_two_pow_sub_one_eq_mod b.toNat 7

/-! Elements that are encoded as DER has it. -/

open Der

def tlvPtr (ix : ℕ) (t : Tlv) : ℕ := getPtr ix (ix + t.headerLength) (ix + t.bytes.length - 1)

section Reads

variable {der : Bytes} {ix n : ℕ}

theorem readUint8_holds {b : UInt8} {rest : Bytes} (h : Holds der ix (b :: rest)) :
    readUint8 der ix = .ok b.toNat := by
  rw [readUint8, index_eq_ok.mpr h.getElem?]
  rfl

theorem longLength_holds {k : ℕ} (hk : 1 ≤ k ∧ k ≤ 8) (hn : n < 256 ^ k)
    (h : Holds der (ix + 2) (BigEndian.encode k n)) : longLength der ix k = .ok n := by
  have hsection := h.section_eq
  have hle := h.add_le (List.ne_nil_of_length_pos (by rw [BigEndian.encode_length]; exact hk.1))
  rw [BigEndian.encode_length] at hsection hle
  have hdecode := BigEndian.decode_encode k n hn
  unfold longLength
  by_cases h1 : k = 1
  · subst h1
    have hsingle : BigEndian.encode 1 n = [UInt8.ofNat n] := by simp [BigEndian.encode]
    rw [hsingle] at h
    rw [if_pos rfl, readUint8_holds h, UInt8.toNat_ofNat', Nat.mod_eq_of_lt (by simpa using hn)]
  · rw [if_neg h1]
    by_cases h2 : k = 2
    · subst h2
      rw [if_pos rfl]
      simp [readUint16, require, hle, hsection, hdecode]
    · have hshift : lengthShift k = .ok ((32 - k) * 8) := if_pos ⟨by omega, by omega⟩
      have hpow : 256 ^ (32 - k) = 2 ^ ((32 - k) * 8) := by
        rw [mul_comm, pow_mul]
        rfl
      have h32 : k ≤ 32 := by omega
      rw [if_neg h2, hshift]
      simp [readBytesN, require, hle, h32, hsection, hdecode, Nat.shiftRight_eq_div_pow, hpow]

theorem octetCount_le_eight (hn : n < 2 ^ 64) : octetCount n ≤ 8 := (octetCount_le_iff n 8).mpr hn

theorem readNodeLength_tlv {t : Tlv} (hder : der.length < 2 ^ 64) (h : Holds der ix t.bytes) :
    readNodeLength der ix = .ok (tlvPtr ix t) := by
  have hend := h.add_le (by simp [Tlv.bytes])
  have htwo := t.two_le_headerLength
  have hlen := t.bytes_length
  have hfirst : (ix + t.headerLength) % 2 ^ 80 = ix + t.headerLength := Nat.mod_eq_of_lt (by omega)
  have hlast : lastContentByte (ix + t.headerLength) t.content.length = .ok (ix + t.bytes.length - 1) := by
    rw [lastContentByte, if_pos ⟨by omega, by omega⟩, Nat.mod_eq_of_lt (by omega)]
    congr 1
    omega
  have hheader : t.headerLength = 1 + (lengthOctets t.content.length).length := rfl
  have hbytes : t.bytes = [t.tag] ++ (lengthOctets t.content.length ++ t.content) := rfl
  rw [hbytes, Holds.append_iff, Holds.append_iff] at h
  obtain ⟨-, hoctets, -⟩ := h
  unfold lengthOctets at hoctets hheader
  unfold readNodeLength
  by_cases hshort : t.content.length < 128
  · rw [if_pos hshort] at hoctets hheader
    have hnat : (UInt8.ofNat t.content.length).toNat = t.content.length := by
      rw [UInt8.toNat_ofNat', Nat.mod_eq_of_lt (by omega)]
    have htwo : ix + 2 = ix + t.headerLength := by rw [hheader]; rfl
    have hbyte : index der (ix + 1) = .ok (UInt8.ofNat t.content.length) := index_eq_ok.mpr hoctets.getElem?
    rw [hbyte, ok_bind, if_pos ((and_0x80 _).mpr (by omega)), hnat, htwo, hfirst]
    simp only [hlast, ok_bind, tlvPtr]
  · rw [if_neg hshort] at hoctets hheader
    have hwidth : octetCount t.content.length ≤ 8 := octetCount_le_eight (by omega)
    have hpos : 1 ≤ octetCount t.content.length := by
      by_contra hzero
      have hlt := (octetCount_le_iff t.content.length 0).mp (by omega)
      omega
    have hnat : (UInt8.ofNat (128 + octetCount t.content.length)).toNat = 128 + octetCount t.content.length := by
      rw [UInt8.toNat_ofNat', Nat.mod_eq_of_lt (by omega)]
    have hbyte : index der (ix + 1) = .ok (UInt8.ofNat (128 + octetCount t.content.length)) :=
      index_eq_ok.mpr hoctets.getElem?
    have hcount : (UInt8.ofNat (128 + octetCount t.content.length) &&& 0x7F).toNat = octetCount t.content.length := by
      rw [and_0x7f, hnat]
      omega
    have hlength := longLength_holds ⟨hpos, hwidth⟩ (lt_octetCount _) (show Holds der (ix + 2) _ from hoctets.tail)
    have hadd : ix + 2 + octetCount t.content.length = ix + t.headerLength := by
      rw [hheader, List.length_cons, BigEndian.encode_length]
      omega
    rw [hbyte, ok_bind, if_neg (by rw [and_0x80]; omega), hcount]
    simp only [hlength, ok_bind, hadd, hfirst, hlast, tlvPtr]

theorem ixs_tlvPtr {t : Tlv} (hder : der.length < 2 ^ 64) (h : Holds der ix t.bytes) : ixs (tlvPtr ix t) = ix := by
  have hend := h.add_le (by simp [Tlv.bytes])
  have hlen := t.bytes_length
  exact ixs_getPtr (by omega) (by omega)

theorem ixf_tlvPtr {t : Tlv} (hder : der.length < 2 ^ 64) (h : Holds der ix t.bytes) :
    ixf (tlvPtr ix t) = ix + t.headerLength := by
  have hend := h.add_le (by simp [Tlv.bytes])
  have hlen := t.bytes_length
  exact ixf_getPtr (by omega) (by omega)

theorem ixl_tlvPtr {t : Tlv} (hder : der.length < 2 ^ 64) (h : Holds der ix t.bytes) :
    ixl (tlvPtr ix t) + 1 = ix + t.bytes.length := by
  have hend := h.add_le (by simp [Tlv.bytes])
  have hlen := t.bytes_length
  have htwo := t.two_le_headerLength
  rw [tlvPtr, ixl_getPtr (by omega) (by omega) (by omega)]
  omega

end Reads

/-- A pointer to an element that others follow, up to a place. -/
def Points (der : Bytes) (ptr : ℕ) (t : Tlv) (rest : List Tlv) (stop : ℕ) : Prop :=
  ∃ ix, Holds der ix (encodeAll (t :: rest)) ∧ ptr = tlvPtr ix t ∧ stop = ix + (encodeAll (t :: rest)).length

theorem root_points {der : Bytes} {t : Tlv} (hder : der.length < 2 ^ 64) (h : der = t.bytes) :
    ∃ ptr, root der = .ok ptr ∧ Points der ptr t [] der.length := by
  have hall : Holds der 0 (encodeAll [t]) := by
    rw [encodeAll_cons, encodeAll_nil, List.append_nil, ← h]
    exact Holds.self der
  refine ⟨tlvPtr 0 t, ?_, 0, hall, rfl, ?_⟩
  · exact readNodeLength_tlv hder (by rw [← h]; exact Holds.self der)
  · simp [h]

namespace Points

variable {der : Bytes} {ptr stop : ℕ} {t u : Tlv} {rest us : List Tlv}

theorem tagAt_eq (hder : der.length < 2 ^ 64) (h : Points der ptr t rest stop) : tagAt der ptr = .ok t.tag := by
  obtain ⟨ix, hholds, rfl, -⟩ := h
  have ht := (Holds.append_iff.mp hholds).1
  rw [tagAt, ixs_tlvPtr hder ht]
  exact index_eq_ok.mpr ht.getElem?

theorem bytesAt_eq (hder : der.length < 2 ^ 64) (h : Points der ptr t rest stop) :
    bytesAt der ptr = .ok t.content := by
  obtain ⟨ix, hholds, rfl, -⟩ := h
  have ht := (Holds.append_iff.mp hholds).1
  have hend := ht.add_le (by simp [Tlv.bytes])
  have hlen := t.bytes_length
  have hsplit : t.bytes = (t.tag :: lengthOctets t.content.length) ++ t.content := rfl
  have hheader : (t.tag :: lengthOctets t.content.length).length = t.headerLength := by
    rw [List.length_cons, Tlv.headerLength, Nat.add_comm]
  have hcontent : Holds der (ix + t.headerLength) t.content := by
    rw [hsplit, Holds.append_iff, hheader] at ht
    exact ht.2
  have hsub : checkedSub (ixl (tlvPtr ix t) + 1) (ixf (tlvPtr ix t)) = .ok t.content.length := by
    rw [checkedSub_eq_ok, ixl_tlvPtr hder ht, ixf_tlvPtr hder ht]
    omega
  rw [bytesAt, hsub, ok_bind, ixf_tlvPtr hder ht, substring_of_le (by omega), hcontent.section_eq]

theorem allBytesAt_eq (hder : der.length < 2 ^ 64) (h : Points der ptr t rest stop) :
    allBytesAt der ptr = .ok t.bytes := by
  obtain ⟨ix, hholds, rfl, -⟩ := h
  have ht := (Holds.append_iff.mp hholds).1
  have hend := ht.add_le (by simp [Tlv.bytes])
  have hsub : checkedSub (ixl (tlvPtr ix t) + 1) (ixs (tlvPtr ix t)) = .ok t.bytes.length := by
    rw [checkedSub_eq_ok, ixl_tlvPtr hder ht, ixs_tlvPtr hder ht]
    omega
  rw [allBytesAt, hsub, ok_bind, ixs_tlvPtr hder ht, substring_of_le hend, ht.section_eq]

theorem ixl_last (hder : der.length < 2 ^ 64) (h : Points der ptr t [] stop) : ixl ptr + 1 = stop := by
  obtain ⟨ix, hholds, rfl, rfl⟩ := h
  rw [ixl_tlvPtr hder (Holds.append_iff.mp hholds).1]
  simp

theorem ixl_lt (hder : der.length < 2 ^ 64) (h : Points der ptr t (u :: rest) stop) : ixl ptr + 1 < stop := by
  obtain ⟨ix, hholds, rfl, rfl⟩ := h
  rw [ixl_tlvPtr hder (Holds.append_iff.mp hholds).1]
  simp [Tlv.bytes]

theorem ixs_lt (hder : der.length < 2 ^ 64) (h : Points der ptr t rest stop) : ixs ptr < ixl ptr := by
  obtain ⟨ix, hholds, rfl, -⟩ := h
  have ht := (Holds.append_iff.mp hholds).1
  have hlast := ixl_tlvPtr hder ht
  have hlen := t.bytes_length
  have htwo := t.two_le_headerLength
  rw [ixs_tlvPtr hder ht]
  omega

theorem ne_zero (hder : der.length < 2 ^ 64) (h : Points der ptr t rest stop) : ptr ≠ 0 := by
  have hlt := h.ixs_lt hder
  rintro rfl
  have hzero : ixl 0 = 0 := rfl
  omega

theorem ixf_empty (hder : der.length < 2 ^ 64) (h : Points der ptr t rest stop) (hcontent : t.content = []) :
    ixf ptr = ixl ptr + 1 := by
  obtain ⟨ix, hholds, rfl, -⟩ := h
  have ht := (Holds.append_iff.mp hholds).1
  rw [ixl_tlvPtr hder ht, ixf_tlvPtr hder ht, t.bytes_length, hcontent]
  rfl

theorem next (hder : der.length < 2 ^ 64) (h : Points der ptr t (u :: rest) stop) :
    ∃ ptr', nextSiblingOf der ptr = .ok ptr' ∧ Points der ptr' u rest stop := by
  obtain ⟨ix, hholds, rfl, rfl⟩ := h
  obtain ⟨ht, hrest⟩ := Holds.append_iff.mp hholds
  refine ⟨tlvPtr (ix + t.bytes.length) u, ?_, ix + t.bytes.length, hrest, rfl, ?_⟩
  · rw [nextSiblingOf, ixl_tlvPtr hder ht]
    exact readNodeLength_tlv hder (Holds.append_iff.mp hrest).1
  · rw [encodeAll_cons, List.length_append, Nat.add_assoc]

theorem inside (hder : der.length < 2 ^ 64) (h : Points der ptr t rest stop)
    (hcontent : t.content = encodeAll (u :: us)) :
    ∃ ptr', readNodeLength der (ixf ptr) = .ok ptr' ∧ Points der ptr' u us (ixl ptr + 1) := by
  obtain ⟨ix, hholds, rfl, -⟩ := h
  have ht := (Holds.append_iff.mp hholds).1
  have hsplit : t.bytes = (t.tag :: lengthOctets t.content.length) ++ t.content := rfl
  have hheader : (t.tag :: lengthOctets t.content.length).length = t.headerLength := by
    rw [List.length_cons, Tlv.headerLength, Nat.add_comm]
  have hinside : Holds der (ix + t.headerLength) (encodeAll (u :: us)) := by
    have ht' := ht
    rw [hsplit, Holds.append_iff, hheader] at ht'
    rw [← hcontent]
    exact ht'.2
  refine ⟨tlvPtr (ix + t.headerLength) u, ?_, ix + t.headerLength, hinside, rfl, ?_⟩
  · rw [ixf_tlvPtr hder ht]
    exact readNodeLength_tlv hder (Holds.append_iff.mp hinside).1
  · rw [ixl_tlvPtr hder ht, t.bytes_length, ← hcontent, Nat.add_assoc]

theorem child (hder : der.length < 2 ^ 64) (h : Points der ptr t rest stop)
    (htag : t.tag &&& 0x20 = 0x20) (hcontent : t.content = encodeAll (u :: us)) :
    ∃ ptr', firstChildOf der ptr = .ok ptr' ∧ Points der ptr' u us (ixl ptr + 1) := by
  obtain ⟨ptr', hread, hpoints⟩ := h.inside hder hcontent
  refine ⟨ptr', ?_, hpoints⟩
  simp [firstChildOf, h.tagAt_eq hder, require, htag, hread]

theorem firstChildOf_empty (hder : der.length < 2 ^ 64) (h : Points der ptr t rest stop)
    (htag : t.tag &&& 0x20 = 0x20) (hcontent : t.content = []) : firstChildOf der ptr = nextSiblingOf der ptr := by
  rw [firstChildOf, h.tagAt_eq hder, ok_bind, require, if_pos htag, ok_bind, h.ixf_empty hder hcontent, nextSiblingOf]

/-- The last element inside another is followed by what follows the other. -/
theorem leave {parent : ℕ} (hder : der.length < 2 ^ 64) (h : Points der ptr t [] (ixl parent + 1)) :
    nextSiblingOf der ptr = nextSiblingOf der parent := by
  rw [nextSiblingOf, nextSiblingOf, h.ixl_last hder]

theorem octets (hder : der.length < 2 ^ 64) (h : Points der ptr t rest stop) (htag : t.tag = 0x04)
    (hcontent : t.content = encodeAll (u :: us)) :
    ∃ ptr', rootOfOctetStringAt der ptr = .ok ptr' ∧ Points der ptr' u us (ixl ptr + 1) := by
  obtain ⟨ptr', hread, hpoints⟩ := h.inside hder hcontent
  refine ⟨ptr', ?_, hpoints⟩
  simp [rootOfOctetStringAt, h.tagAt_eq hder, require, htag, hread]

end Points

end Asn1Decode

end LineaSgxProver.Verifier
