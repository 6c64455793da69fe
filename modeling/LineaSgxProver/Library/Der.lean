import LineaSgxProver.Library.LittleEndian

namespace LineaSgxProver.Library.Der

def octetCountFrom : ℕ → ℕ → ℕ
  | 0, _ => 0
  | fuel + 1, n => if n = 0 then 0 else octetCountFrom fuel (n / 256) + 1

/-- The least number of bytes that hold `n`. -/
def octetCount (n : ℕ) : ℕ := octetCountFrom n n

theorem octetCountFrom_le_iff {fuel n : ℕ} (h : n ≤ fuel) (k : ℕ) : octetCountFrom fuel n ≤ k ↔ n < 256 ^ k := by
  induction fuel generalizing n k with
  | zero =>
    obtain rfl : n = 0 := by omega
    simp [octetCountFrom]
  | succ fuel ih =>
    rw [octetCountFrom]
    by_cases hn : n = 0
    · rw [if_pos hn, hn]
      simp
    · rw [if_neg hn]
      cases k with
      | zero =>
        simp
        omega
      | succ k =>
        have hq : n / 256 ≤ fuel := by omega
        rw [Nat.add_le_add_iff_right, ih hq, pow_succ]
        exact Nat.div_lt_iff_lt_mul (by decide)

theorem octetCount_le_iff (n k : ℕ) : octetCount n ≤ k ↔ n < 256 ^ k := octetCountFrom_le_iff le_rfl k

theorem lt_octetCount (n : ℕ) : n < 256 ^ octetCount n := (octetCount_le_iff n _).mp le_rfl

/-- The short form below 128, and from there on the least number of bytes after their count. -/
def lengthOctets (n : ℕ) : List UInt8 :=
  if n < 128 then [UInt8.ofNat n]
  else UInt8.ofNat (128 + octetCount n) :: BigEndian.encode (octetCount n) n

structure Tlv where
  tag : UInt8
  content : List UInt8
  deriving DecidableEq

namespace Tlv

def headerLength (t : Tlv) : ℕ := 1 + (lengthOctets t.content.length).length

def bytes (t : Tlv) : List UInt8 := t.tag :: lengthOctets t.content.length ++ t.content

theorem bytes_length (t : Tlv) : t.bytes.length = t.headerLength + t.content.length := by
  simp only [bytes, headerLength, List.cons_append, List.length_cons, List.length_append]
  omega

theorem two_le_headerLength (t : Tlv) : 2 ≤ t.headerLength := by
  unfold headerLength lengthOctets
  split_ifs
  · simp
  · rw [List.length_cons]
    omega

end Tlv

def encodeAll (ts : List Tlv) : List UInt8 := (ts.map Tlv.bytes).flatten

@[simp] theorem encodeAll_nil : encodeAll [] = [] := rfl

@[simp] theorem encodeAll_cons (t : Tlv) (ts : List Tlv) : encodeAll (t :: ts) = t.bytes ++ encodeAll ts := rfl

def node (tag : UInt8) (ts : List Tlv) : Tlv := ⟨tag, encodeAll ts⟩

def sequenceOf (ts : List Tlv) : Tlv := node 0x30 ts

theorem sequenceOf_constructed (ts : List Tlv) : (sequenceOf ts).tag &&& 0x20 = 0x20 := by
  change (0x30 : UInt8) &&& 0x20 = 0x20
  decide

/-- The least number of bytes that hold a number `n` with a sign. -/
def integerWidth (n : ℕ) : ℕ := max 1 (octetCount (2 * n))

def integer (n : ℕ) : Tlv := ⟨0x02, BigEndian.encode (integerWidth n) n⟩

theorem integerWidth_le_iff (n : ℕ) {k : ℕ} (hk : 0 < k) : integerWidth n ≤ k ↔ 2 * n < 256 ^ k := by
  rw [integerWidth, Nat.max_le, octetCount_le_iff]
  exact and_iff_right hk

theorem lt_integerWidth (n : ℕ) : n < 256 ^ integerWidth n := by
  have hpos : 0 < integerWidth n := Nat.lt_of_lt_of_le Nat.zero_lt_one (Nat.le_max_left 1 _)
  have h : 2 * n < 256 ^ integerWidth n := (integerWidth_le_iff n hpos).mp le_rfl
  omega

/-- At a place of a list stand these bytes. -/
def Holds (der : List UInt8) (ix : ℕ) (bytes : List UInt8) : Prop := ∃ rest, der.drop ix = bytes ++ rest

namespace Holds

variable {der a b : List UInt8} {ix : ℕ}

theorem append_iff : Holds der ix (a ++ b) ↔ Holds der ix a ∧ Holds der (ix + a.length) b := by
  constructor
  · rintro ⟨rest, h⟩
    refine ⟨⟨b ++ rest, by rw [h, List.append_assoc]⟩, rest, ?_⟩
    rw [← List.drop_drop, h, List.append_assoc, List.drop_left]
  · rintro ⟨⟨rest, h⟩, rest', h'⟩
    refine ⟨rest', ?_⟩
    rw [← List.drop_drop, h, List.drop_left] at h'
    rw [h, h', List.append_assoc]

theorem tail {x : UInt8} (h : Holds der ix (x :: a)) : Holds der (ix + 1) a := by
  rw [← List.singleton_append, append_iff] at h
  exact h.2

theorem nil (der : List UInt8) (ix : ℕ) : Holds der ix [] := ⟨_, rfl⟩

theorem self (der : List UInt8) : Holds der 0 der := ⟨[], by simp⟩

theorem section_eq (h : Holds der ix a) : (der.drop ix).take a.length = a := by
  obtain ⟨rest, h⟩ := h
  rw [h, List.take_left]

theorem add_le (h : Holds der ix a) (ha : a ≠ []) : ix + a.length ≤ der.length := by
  obtain ⟨rest, h⟩ := h
  have hlen := congrArg List.length h
  have hpos := List.length_pos_iff.mpr ha
  rw [List.length_drop, List.length_append] at hlen
  omega

theorem getElem? {x : UInt8} (h : Holds der ix (x :: a)) : der[ix]? = some x := by
  obtain ⟨rest, h⟩ := h
  have hhead := congrArg List.head? h
  rw [List.head?_drop] at hhead
  exact hhead

end Holds

end LineaSgxProver.Library.Der
