import LineaSgxProver.Library.ShortWeierstrass
import LineaSgxProver.Verifier.EllipticCurveLib
import Mathlib.Algebra.Field.ZMod

namespace LineaSgxProver.Verifier

open Library ShortWeierstrass

@[simp] theorem addmod_cast (x y k : ℕ) : (addmod x y k : ZMod k) = x + y := by
  rw [addmod, ZMod.natCast_mod, Nat.cast_add]

@[simp] theorem mulmod_cast (x y k : ℕ) : (mulmod x y k : ZMod k) = x * y := by
  rw [mulmod, ZMod.natCast_mod, Nat.cast_mul]

theorem addmod_lt (x y : ℕ) {k : ℕ} (hk : 0 < k) : addmod x y k < k := Nat.mod_lt _ hk

theorem mulmod_lt (x y : ℕ) {k : ℕ} (hk : 0 < k) : mulmod x y k < k := Nat.mod_lt _ hk

theorem sub_cast {x k : ℕ} (h : x < k) : ((k - x : ℕ) : ZMod k) = -x := by
  rw [Nat.cast_sub h.le, ZMod.natCast_self, zero_sub]

theorem eq_of_cast_eq {k x y : ℕ} (hx : x < k) (hy : y < k) (h : (x : ZMod k) = y) : x = y := by
  rwa [ZMod.natCast_eq_natCast_iff', Nat.mod_eq_of_lt hx, Nat.mod_eq_of_lt hy] at h

theorem eq_iff_cast_eq {k x y : ℕ} (hx : x < k) (hy : y < k) : x = y ↔ (x : ZMod k) = y :=
  ⟨congrArg _, eq_of_cast_eq hx hy⟩

theorem cast_eq_zero_iff {k x : ℕ} (hx : x < k) : (x : ZMod k) = 0 ↔ x = 0 := by
  constructor
  · intro h
    exact eq_of_cast_eq hx (Nat.zero_lt_of_lt hx) (by rw [h, Nat.cast_zero])
  · rintro rfl
    exact Nat.cast_zero

/-- No point of the curve has order two, and none is written `(0, 0)`. -/
structure OddCurve (pp aa bb : ℕ) : Prop where
  two_ne_zero : (2 : ZMod pp) ≠ 0
  cubic_ne_zero : ∀ x : ZMod pp, x ^ 3 + aa * x + bb ≠ 0

section Point

variable {pp aa bb : ℕ} [Fact pp.Prime]

theorem OddCurve.y_ne_zero (hc : OddCurve pp aa bb)
    {P : (shortWeierstrass (aa : ZMod pp) (bb : ZMod pp)).Point} {x y : ZMod pp} (h : Coords P x y) :
    y ≠ 0 := by
  rintro rfl
  apply hc.cubic_ne_zero x
  rw [← h.equation, zero_pow (by decide)]

/-- A triple of residues that are Jacobian coordinates of the point. -/
structure IsPoint (P : (shortWeierstrass (aa : ZMod pp) (bb : ZMod pp)).Point) (t : ℕ × ℕ × ℕ) :
    Prop where
  x_lt : t.1 < pp
  y_lt : t.2.1 < pp
  z_lt : t.2.2 < pp
  jacobian : Jacobian P (t.1 : ZMod pp) (t.2.1 : ZMod pp) (t.2.2 : ZMod pp)

namespace IsPoint

variable {P Q : (shortWeierstrass (aa : ZMod pp) (bb : ZMod pp)).Point} {t u : ℕ × ℕ × ℕ}

theorem z_ne_zero (h : IsPoint P t) : t.2.2 ≠ 0 := by
  intro hz
  apply h.jacobian.z_ne_zero
  rw [hz, Nat.cast_zero]

theorem cast_y_ne_zero (hc : OddCurve pp aa bb) (h : IsPoint P t) : (t.2.1 : ZMod pp) ≠ 0 := by
  have hy := hc.y_ne_zero h.jacobian.coords
  exact (div_ne_zero_iff.mp hy).1

theorem y_ne_zero (hc : OddCurve pp aa bb) (h : IsPoint P t) : t.2.1 ≠ 0 := by
  intro hy
  apply h.cast_y_ne_zero hc
  rw [hy, Nat.cast_zero]

theorem of_coords {x y : ℕ} (hx : x < pp) (hy : y < pp) (h : Coords P (x : ZMod pp) (y : ZMod pp)) :
    IsPoint P (x, y, 1) where
  x_lt := hx
  y_lt := hy
  z_lt := (Fact.out : pp.Prime).one_lt
  jacobian := by
    rw [Nat.cast_one]
    exact Jacobian.of_coords h

end IsPoint

namespace EllipticCurve

variable {P Q : (shortWeierstrass (aa : ZMod pp) (bb : ZMod pp)).Point} {t u : ℕ × ℕ × ℕ}

theorem jacDouble_isPoint (hc : OddCurve pp aa bb) (h : IsPoint P t) :
    IsPoint (P + P) (jacDouble pp t.1 t.2.1 t.2.2 aa) := by
  have hpos : 0 < pp := (Fact.out : pp.Prime).pos
  have hdouble := h.jacobian.double hc.two_ne_zero (h.cast_y_ne_zero hc) rfl rfl rfl
  unfold jacDouble
  rw [if_neg h.z_ne_zero]
  refine ⟨addmod_lt _ _ hpos, addmod_lt _ _ hpos, mulmod_lt _ _ hpos, ?_⟩
  convert hdouble using 1
  · simp only [addmod_cast, mulmod_cast, sub_cast (addmod_lt _ _ hpos)]
    push_cast
    ring
  · simp only [addmod_cast, mulmod_cast, sub_cast (addmod_lt _ _ hpos), sub_cast (mulmod_lt _ _ hpos)]
    push_cast
    ring
  · simp only [mulmod_cast]
    push_cast
    ring

/-- Whether the first coordinates of two points differ, as `jacAdd` compares them. -/
def apart (pp : ℕ) (t u : ℕ × ℕ × ℕ) : Bool :=
  mulmod t.1 (mulmod u.2.2 u.2.2 pp) pp ≠ mulmod u.1 (mulmod t.2.2 t.2.2 pp) pp

theorem apart_of_ne (h : IsPoint P t) (h' : IsPoint Q u) (hne : P ≠ Q) (hneg : P ≠ -Q) :
    apart pp t u = true := by
  simp only [apart, ne_eq, decide_not, Bool.not_eq_true', decide_eq_false_iff_not]
  intro hx
  have hcast := congrArg (Nat.cast (R := ZMod pp)) hx
  simp only [mulmod_cast] at hcast
  rcases h.jacobian.eq_or_eq_neg h'.jacobian (by linear_combination hcast) with heq | heq
  · exact hne heq
  · exact hneg heq

theorem jacAdd_isPoint (hc : OddCurve pp aa bb) (h : IsPoint P t) (h' : IsPoint Q u)
    (hapart : apart pp t u = true) :
    ∃ v, jacAdd pp t.1 t.2.1 t.2.2 u.1 u.2.1 u.2.2 = .ok v ∧ IsPoint (P + Q) v := by
  have hpos : 0 < pp := (Fact.out : pp.Prime).pos
  simp only [apart, ne_eq, decide_not, Bool.not_eq_true', decide_eq_false_iff_not] at hapart
  have hH : (u.1 : ZMod pp) * t.2.2 ^ 2 - t.1 * u.2.2 ^ 2 ≠ 0 := by
    rw [sub_ne_zero]
    intro heq
    apply hapart
    apply eq_of_cast_eq (mulmod_lt _ _ hpos) (mulmod_lt _ _ hpos)
    simp only [mulmod_cast]
    linear_combination -heq
  have hsum := h.jacobian.add h'.jacobian rfl rfl rfl rfl rfl rfl rfl hH
  unfold jacAdd
  rw [if_neg (fun hxy => h.y_ne_zero hc hxy.2), if_neg (fun hxy => h'.y_ne_zero hc hxy.2)]
  simp only [require, if_pos (Or.inl hapart), ok_bind]
  refine ⟨_, rfl, addmod_lt _ _ hpos, addmod_lt _ _ hpos, mulmod_lt _ _ hpos, ?_⟩
  convert hsum using 1
  · simp only [addmod_cast, mulmod_cast, sub_cast (mulmod_lt _ _ hpos)]
    push_cast
    ring
  · simp only [addmod_cast, mulmod_cast, sub_cast (addmod_lt _ _ hpos), sub_cast (mulmod_lt _ _ hpos)]
    push_cast
    ring
  · simp only [addmod_cast, mulmod_cast, sub_cast (mulmod_lt _ _ hpos)]
    ring

end EllipticCurve

end Point

end LineaSgxProver.Verifier
