import LineaSgxProver.Library.Powers

namespace LineaSgxProver.Library

/-- A polynomial of degree two by its coefficients, constant first. -/
abbrev Quadratic := ℕ × ℕ × ℕ

namespace Quadratic

def X : Quadratic := (0, 1, 0)

def one : Quadratic := (1, 0, 0)

def subX (p : ℕ) (u : Quadratic) : Quadratic := (u.1, u.2.1 + (p - 1), u.2.2)

/-- The product modulo `p` and `X ^ 3 = c * X + d`. -/
def mulMod (p c d : ℕ) (u v : Quadratic) : Quadratic :=
  let e₃ := u.2.1 * v.2.2 + u.2.2 * v.2.1
  let e₄ := u.2.2 * v.2.2
  ((u.1 * v.1 + d * e₃) % p, (u.1 * v.2.1 + u.2.1 * v.1 + c * e₃ + d * e₄) % p,
    (u.1 * v.2.2 + u.2.1 * v.2.1 + u.2.2 * v.1 + c * e₄) % p)

def eval {p : ℕ} (r : ZMod p) (u : Quadratic) : ZMod p := u.1 + u.2.1 * r + u.2.2 * r ^ 2

variable {p : ℕ} {c d : ℕ} {r : ZMod p}

theorem eval_one : eval r one = 1 := by simp [eval, one]

theorem eval_X : eval r X = r := by simp [eval, X]

theorem eval_mulMod (hr : r ^ 3 = c * r + d) (u v : Quadratic) :
    eval r (mulMod p c d u v) = eval r u * eval r v := by
  simp only [eval, mulMod, ZMod.natCast_mod]
  push_cast
  linear_combination (-(u.2.1 * v.2.2 + u.2.2 * v.2.1) - u.2.2 * v.2.2 * r : ZMod p) * hr

theorem eval_subX (hp : 0 < p) (u : Quadratic) : eval r (subX p u) = eval r u - r := by
  have hcast : ((p - 1 : ℕ) : ZMod p) = -1 := by
    rw [Nat.cast_sub hp, ZMod.natCast_self, Nat.cast_one, zero_sub]
  simp only [eval, subX, Nat.cast_add, hcast]
  ring

/-- Where `X ^ p - X` has an inverse modulo the cubic, the cubic has no root. -/
theorem no_root [Fact p.Prime] {k : ℕ} (hk : p < 2 ^ k) {v : Quadratic}
    (hv : mulMod p c d v (subX p (powBy (mulMod p c d) k X p one)) = one) :
    r ^ 3 ≠ c * r + d := by
  intro hr
  have hpow : eval r (powBy (mulMod p c d) k X p one) = r := by
    rw [powBy_eq (eval r) (eval_mulMod hr) k X hk, eval_one, one_mul, eval_X, ZMod.pow_card]
  have hone : eval r v * (r - r) = 1 := by
    rw [← eval_one (r := r), ← hv, eval_mulMod hr, eval_subX (Fact.out : p.Prime).pos, hpow]
  rw [sub_self, mul_zero] at hone
  exact zero_ne_one hone

end Quadratic

end LineaSgxProver.Library
