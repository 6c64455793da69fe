import LineaSgxProver.Verifier.P256
import LineaSgxProver.Verifier.ScalarMultiplication

namespace LineaSgxProver.Verifier

open Library ShortWeierstrass WeierstrassCurve.Affine EllipticCurve

theorem OddCurve.exists_coords {pp aa bb : ℕ} [Fact pp.Prime] (hc : OddCurve pp aa bb) {x y : ZMod pp}
    (h : y ^ 2 = x ^ 3 + aa * x + bb) :
    ∃ P : (shortWeierstrass (aa : ZMod pp) (bb : ZMod pp)).Point, Coords P x y := by
  have hy : y ≠ 0 := by
    rintro rfl
    apply hc.cubic_ne_zero x
    rw [← h, zero_pow (by decide)]
  have hns : (shortWeierstrass (aa : ZMod pp) (bb : ZMod pp)).Nonsingular x y := by
    rw [nonsingular_iff]
    refine ⟨(ShortWeierstrass.equation_iff x y).mpr h, Or.inr ?_⟩
    intro heq
    apply mul_ne_zero hc.two_ne_zero hy
    simp only [a₁_eq, a₃_eq, zero_mul, sub_zero] at heq
    linear_combination heq
  exact ⟨.some x y hns, hns, rfl⟩

namespace P256

abbrev Point := (shortWeierstrass (a : ZMod p) (b : ZMod p)).Point

theorem oddCurve : OddCurve p a b where
  two_ne_zero := by
    have h : ((2 : ℕ) : ZMod p) ≠ 0 := by
      rw [ne_eq, ZMod.natCast_eq_zero_iff]
      decide
    exact_mod_cast h
  cubic_ne_zero := cubic_ne_zero

theorem generator_equation : (gy : ZMod p) ^ 2 = (gx : ZMod p) ^ 3 + a * gx + b := by
  have h : gy ^ 2 ≡ gx ^ 3 + a * gx + b [MOD p] := by decide
  have hcast := (ZMod.natCast_eq_natCast_iff _ _ p).mpr h
  push_cast at hcast
  exact hcast

noncomputable def generator : Point := (oddCurve.exists_coords generator_equation).choose

theorem generator_coords : Coords generator (gx : ZMod p) (gy : ZMod p) :=
  (oddCurve.exists_coords generator_equation).choose_spec

theorem generator_isPoint : IsPoint generator (gx, gy, 1) :=
  IsPoint.of_coords (by decide) (by decide) generator_coords

/-- What the loop finds for `n - 1` times the generator: its opposite. -/
def isOppositeOfGenerator (v : ℕ × ℕ × ℕ) : Bool :=
  decide (v.2.1 ≠ 0) && decide (v.1 = mulmod gx (v.2.2 ^ 2) p) &&
    decide (addmod v.2.1 (gy * v.2.2 ^ 3) p = 0)

theorem pred_nsmul_generator : (n - 1) • generator = -generator := by
  have hrun : (safeMulLoop p a (n - 1) (gx, gy, 1) (0, 0, 1)).any isOppositeOfGenerator = true := by
    decide +kernel
  obtain ⟨v, hv, hopposite⟩ := (Option.any_eq_true _ _).mp hrun
  simp only [isOppositeOfGenerator, Bool.and_eq_true, decide_eq_true_eq] at hopposite
  obtain ⟨⟨hy, hx⟩, hsum⟩ := hopposite
  obtain ⟨_, hmul⟩ := jacMulLoop_of_safe oddCurve (Or.inl ⟨rfl, rfl⟩) generator_isPoint hv
  rw [zero_add] at hmul
  rcases hmul with ⟨_, rfl⟩ | hmul
  · exact absurd rfl hy
  · have hneg : Jacobian (-generator) (gx : ZMod p) (-gy : ZMod p) 1 :=
      Jacobian.of_coords generator_coords.neg
    rw [hmul.jacobian.eq_iff hneg]
    have hxcast := congrArg (Nat.cast (R := ZMod p)) hx
    have hycast := congrArg (Nat.cast (R := ZMod p)) hsum
    simp only [mulmod_cast, addmod_cast, Nat.cast_mul, Nat.cast_pow, Nat.cast_zero] at hxcast hycast
    refine ⟨?_, ?_⟩
    · linear_combination hxcast
    · linear_combination hycast

theorem n_nsmul_generator : n • generator = 0 := by
  have hn : n = n - 1 + 1 := by decide
  rw [hn, succ_nsmul, pred_nsmul_generator, neg_add_cancel]

theorem eq_zero_of_two_nsmul {P : Point} (h : 2 • P = 0) : P = 0 := by
  cases P with
  | zero => rfl
  | some x y hns =>
    have hcoords : Coords (a := (a : ZMod p)) (b := (b : ZMod p)) (.some x y hns) x y := ⟨hns, rfl⟩
    rw [two_nsmul, add_eq_zero_iff_eq_neg, hcoords.eq_neg_iff hcoords] at h
    have htwo : 2 * y = 0 := by linear_combination h.2
    exact absurd htwo (mul_ne_zero oddCurve.two_ne_zero (oddCurve.y_ne_zero hcoords))

theorem card_lt : Nat.card Point < 3 * n := by
  have hcard := card_point_le (a := (a : ZMod p)) (b := (b : ZMod p))
  rw [ZMod.card] at hcard
  exact hcard.trans_lt (by decide)

/-- The curve has prime order `n`. -/
theorem n_nsmul (P : Point) : n • P = 0 :=
  nsmul_eq_zero_of_card_lt n_prime generator_coords.ne_zero n_nsmul_generator card_lt
    (fun _ => eq_zero_of_two_nsmul) P

theorem addOrderOf_eq {P : Point} (h : P ≠ 0) : addOrderOf P = n := addOrderOf_eq_prime (n_nsmul P) h

end P256

end LineaSgxProver.Verifier
