import LineaSgxProver.Library.BigEndian

namespace LineaSgxProver.Library.LittleEndian

def encode (k n : ℕ) : List UInt8 := (BigEndian.encode k n).reverse

def decode (bs : List UInt8) : ℕ := BigEndian.decode bs.reverse

@[simp] theorem encode_length (k n : ℕ) : (encode k n).length = k := by
  simp [encode]

@[simp] theorem decode_nil : decode [] = 0 := rfl

theorem decode_cons (b : UInt8) (bs : List UInt8) : decode (b :: bs) = b.toNat + 256 * decode bs := by
  rw [decode, List.reverse_cons, BigEndian.decode_concat, decode]
  omega

theorem decode_lt (bs : List UInt8) : decode bs < 256 ^ bs.length := by
  rw [← List.length_reverse]
  exact BigEndian.decode_lt bs.reverse

theorem decode_encode (k n : ℕ) (h : n < 256 ^ k) : decode (encode k n) = n := by
  rw [decode, encode, List.reverse_reverse, BigEndian.decode_encode k n h]

theorem encode_decode (bs : List UInt8) : encode bs.length (decode bs) = bs := by
  rw [encode, decode, ← List.length_reverse, BigEndian.encode_decode, List.reverse_reverse]

end LineaSgxProver.Library.LittleEndian

namespace LineaSgxProver.Library

section Sections

variable {α : Type} {l : List α} {i j m n : ℕ}

theorem section_append (h : i + m = j) : (l.drop i).take m ++ (l.drop j).take n = (l.drop i).take (m + n) := by
  rw [List.take_add, List.drop_drop, h]

theorem section_length (h : i + n ≤ l.length) : ((l.drop i).take n).length = n := by
  rw [List.length_take, List.length_drop]
  omega

theorem section_of_append {pre mid post : List α} (hi : pre.length = i) (hn : mid.length = n) :
    ((pre ++ mid ++ post).drop i).take n = mid := by
  subst hi hn
  simp

end Sections

end LineaSgxProver.Library
