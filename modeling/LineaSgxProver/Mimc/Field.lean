import LineaSgxProver.Machine
import Mathlib.Tactic.Linarith

namespace LineaSgxProver.Mimc

open Library

def modulus : ℕ := 8444461749428370424248824938781546531375899335154063827935233455917409239041

def radix : ℕ := 2 ^ 256

def negInverse : ℕ :=
  47752251086953357377073236701509605140872345086634869599321669320666611974143

example : (modulus * negInverse + 1) % radix = 0 := by decide

structure Fr where
  repr : ℕ
  valid : repr < modulus

instance : DecidableEq Fr := fun a b =>
  decidable_of_iff (a.repr = b.repr) ⟨fun h => by cases a; cases b; simp_all, congrArg _⟩

def montReduce (t : ℕ) : ℕ := (t + t % radix * negInverse % radix * modulus) / radix

def reduce (x : ℕ) : ℕ := if x < modulus then x else x - modulus

def montMul (a b : ℕ) : ℕ := reduce (montReduce (a * b))

theorem reduce_lt {x : ℕ} (h : x < 2 * modulus) : reduce x < modulus := by
  unfold reduce
  split_ifs with hx
  · exact hx
  · omega

theorem montReduce_lt {t : ℕ} (h : t < radix * modulus) : montReduce t < 2 * modulus := by
  unfold montReduce
  have hm : t % radix * negInverse % radix < radix := Nat.mod_lt _ (by decide)
  have hle : t % radix * negInverse % radix * modulus ≤ radix * modulus :=
    Nat.mul_le_mul_right _ hm.le
  rw [Nat.div_lt_iff_lt_mul (by decide)]
  calc t + t % radix * negInverse % radix * modulus
      < radix * modulus + radix * modulus := Nat.add_lt_add_of_lt_of_le h hle
    _ = 2 * modulus * radix := by ring

/-- Only one factor has to be a field element: the other may be any 256-bit number. -/
theorem montMul_lt {a b : ℕ} (ha : a < radix) (hb : b < modulus) : montMul a b < modulus := by
  apply reduce_lt
  apply montReduce_lt
  exact Nat.mul_lt_mul_of_lt_of_le ha hb.le (by decide)

theorem modulus_lt_radix : modulus < radix := by decide

namespace Fr

def zero : Fr := ⟨0, by decide⟩

def addAssign (a b : Fr) : Fr :=
  ⟨reduce (a.repr + b.repr), reduce_lt (by have := a.valid; have := b.valid; omega)⟩

def mulAssign (a b : Fr) : Fr :=
  ⟨montMul a.repr b.repr, montMul_lt (a.valid.trans modulus_lt_radix) b.valid⟩

def square (a : Fr) : Fr := a.mulAssign a

def fromRawRepr (r : ℕ) : Except String Fr :=
  if h : r < modulus then .ok ⟨r, h⟩ else .error "NotInField"

def rSquare : Fr :=
  ⟨2726216793283724667 + 14712177743343147295 * 2 ^ 64 + 12091039717619697043 * 2 ^ 128 +
    81024008013859129 * 2 ^ 192, by decide⟩

def fromBe (data : Bytes) : Except String Fr :=
  fromRawRepr (montMul (BigEndian.decode data) rSquare.repr)

def intoRepr (a : Fr) : ℕ := reduce (montReduce a.repr)

def bytes (a : Fr) : SH256 := BitVec.ofNat 256 a.intoRepr

theorem fromBe_isOk {data : Bytes} (h : data.length = 32) : (fromBe data).isOk = true := by
  have hd : BigEndian.decode data < radix := by
    have hlt := BigEndian.decode_lt data
    rwa [h, show (256 : ℕ) ^ 32 = radix by decide] at hlt
  have hv := montMul_lt hd rSquare.valid
  rw [fromBe, fromRawRepr, dif_pos hv]
  rfl

end Fr

end LineaSgxProver.Mimc
