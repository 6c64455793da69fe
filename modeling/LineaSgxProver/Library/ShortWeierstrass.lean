import Mathlib.AlgebraicGeometry.EllipticCurve.Affine.Point
import Mathlib.GroupTheory.Perm.Cycle.Type
import Mathlib.Tactic.FieldSimp
import Mathlib.Tactic.LinearCombination

namespace LineaSgxProver.Library

open WeierstrassCurve Affine

/-- The curve `y ^ 2 = x ^ 3 + a * x + b`. -/
def shortWeierstrass {K : Type} [CommRing K] (a b : K) : Affine K := ⟨0, 0, 0, a, b⟩

namespace ShortWeierstrass

variable {K : Type} [Field K] {a b : K}

@[simp] theorem a₁_eq : (shortWeierstrass a b).a₁ = 0 := rfl

@[simp] theorem a₂_eq : (shortWeierstrass a b).a₂ = 0 := rfl

@[simp] theorem a₃_eq : (shortWeierstrass a b).a₃ = 0 := rfl

@[simp] theorem a₄_eq : (shortWeierstrass a b).a₄ = a := rfl

@[simp] theorem a₆_eq : (shortWeierstrass a b).a₆ = b := rfl

theorem equation_iff (x y : K) :
    (shortWeierstrass a b).Equation x y ↔ y ^ 2 = x ^ 3 + a * x + b := by
  simp [Affine.equation_iff]

theorem negY_eq (x y : K) : (shortWeierstrass a b).negY x y = -y := by simp [negY]

theorem addX_eq (x x' ℓ : K) : (shortWeierstrass a b).addX x x' ℓ = ℓ ^ 2 - x - x' := by simp [addX]

theorem addY_eq (x x' y ℓ : K) :
    (shortWeierstrass a b).addY x x' y ℓ = ℓ * (x - (ℓ ^ 2 - x - x')) - y := by
  rw [addY, negY_eq, negAddY, addX_eq]
  ring

structure Coords (P : (shortWeierstrass a b).Point) (x y : K) : Prop where
  exists_eq : ∃ h, P = .some x y h

namespace Coords

variable {P Q : (shortWeierstrass a b).Point} {x y x' y' : K}

theorem equation (h : Coords P x y) : y ^ 2 = x ^ 3 + a * x + b := by
  obtain ⟨hns, _⟩ := h.exists_eq
  exact (equation_iff x y).mp hns.1

theorem ne_zero (h : Coords P x y) : P ≠ 0 := by
  obtain ⟨hns, rfl⟩ := h.exists_eq
  exact Point.some_ne_zero hns

theorem unique (h : Coords P x y) (h' : Coords P x' y') : x = x' ∧ y = y' := by
  obtain ⟨hns, rfl⟩ := h.exists_eq
  obtain ⟨hns', hsome⟩ := h'.exists_eq
  simpa using hsome

theorem eq_iff (h : Coords P x y) (h' : Coords Q x' y') : P = Q ↔ x = x' ∧ y = y' := by
  obtain ⟨hns, rfl⟩ := h.exists_eq
  obtain ⟨hns', rfl⟩ := h'.exists_eq
  simp

theorem neg (h : Coords P x y) : Coords (-P) x (-y) := by
  obtain ⟨hns, rfl⟩ := h.exists_eq
  have hneg : (shortWeierstrass a b).Nonsingular x (-y) := by
    rw [← negY_eq x y]
    exact (nonsingular_neg x y).mpr hns
  refine ⟨hneg, ?_⟩
  rw [Point.neg_some, Point.some.injEq]
  exact ⟨rfl, negY_eq x y⟩

theorem eq_neg_iff (h : Coords P x y) (h' : Coords Q x' y') : P = -Q ↔ x = x' ∧ y = -y' :=
  h.eq_iff h'.neg

theorem eq_or_eq_neg (h : Coords P x y) (h' : Coords Q x y') : P = Q ∨ P = -Q := by
  have hy : y = y' ∨ y = -y' := sq_eq_sq_iff_eq_or_eq_neg.mp (h.equation.trans h'.equation.symm)
  rcases hy with rfl | rfl
  · exact Or.inl ((h.eq_iff h').mpr ⟨rfl, rfl⟩)
  · exact Or.inr ((h.eq_neg_iff h').mpr ⟨rfl, rfl⟩)

variable [DecidableEq K]

theorem add (h : Coords P x y) (h' : Coords Q x' y') (hx : x ≠ x') {ℓ : K}
    (hℓ : ℓ * (x - x') = y - y') :
    Coords (P + Q) (ℓ ^ 2 - x - x') (ℓ * (x - (ℓ ^ 2 - x - x')) - y) := by
  obtain ⟨hns, rfl⟩ := h.exists_eq
  obtain ⟨hns', rfl⟩ := h'.exists_eq
  have hslope : (shortWeierstrass a b).slope x x' y y' = ℓ := by
    rw [slope_of_X_ne hx, div_eq_iff (sub_ne_zero.mpr hx), hℓ]
  have hsum := nonsingular_add hns hns' fun hxy => hx hxy.1
  rw [hslope, addX_eq, addY_eq] at hsum
  refine ⟨hsum, ?_⟩
  rw [Point.add_of_X_ne hx, Point.some.injEq, hslope, addX_eq, addY_eq]
  exact ⟨rfl, rfl⟩

theorem double (h : Coords P x y) (hy : 2 * y ≠ 0) {ℓ : K} (hℓ : ℓ * (2 * y) = 3 * x ^ 2 + a) :
    Coords (P + P) (ℓ ^ 2 - x - x) (ℓ * (x - (ℓ ^ 2 - x - x)) - y) := by
  obtain ⟨hns, rfl⟩ := h.exists_eq
  have hne : y ≠ (shortWeierstrass a b).negY x y := by
    rw [negY_eq, ne_eq, eq_neg_iff_add_eq_zero, ← two_mul]
    exact hy
  have hslope : (shortWeierstrass a b).slope x x y y = ℓ := by
    rw [slope_of_Y_ne rfl hne, negY_eq, sub_neg_eq_add, ← two_mul, div_eq_iff hy, hℓ]
    simp
  have hsum := nonsingular_add hns hns fun hxy => hne hxy.2
  rw [hslope, addX_eq, addY_eq] at hsum
  refine ⟨hsum, ?_⟩
  rw [Point.add_self_of_Y_ne hne, Point.some.injEq, hslope, addX_eq, addY_eq]
  exact ⟨rfl, rfl⟩

end Coords

/-- The point with coordinates `X / Z ^ 2` and `Y / Z ^ 3`. -/
structure Jacobian (P : (shortWeierstrass a b).Point) (X Y Z : K) : Prop where
  z_ne_zero : Z ≠ 0
  coords : Coords P (X / Z ^ 2) (Y / Z ^ 3)

namespace Jacobian

variable {P Q : (shortWeierstrass a b).Point} {X Y Z X' Y' Z' : K}

theorem of_coords (h : Coords P X Y) : Jacobian P X Y 1 := ⟨one_ne_zero, by simpa using h⟩

theorem eq_or_eq_neg (h : Jacobian P X Y Z) (h' : Jacobian Q X' Y' Z')
    (hx : X * Z' ^ 2 = X' * Z ^ 2) : P = Q ∨ P = -Q := by
  have hquot : X / Z ^ 2 = X' / Z' ^ 2 :=
    (div_eq_div_iff (pow_ne_zero 2 h.z_ne_zero) (pow_ne_zero 2 h'.z_ne_zero)).mpr hx
  exact h.coords.eq_or_eq_neg (hquot ▸ h'.coords)

theorem eq_iff (h : Jacobian P X Y Z) (h' : Jacobian Q X' Y' Z') :
    P = Q ↔ X * Z' ^ 2 = X' * Z ^ 2 ∧ Y * Z' ^ 3 = Y' * Z ^ 3 := by
  rw [h.coords.eq_iff h'.coords, div_eq_div_iff (pow_ne_zero 2 h.z_ne_zero) (pow_ne_zero 2 h'.z_ne_zero),
    div_eq_div_iff (pow_ne_zero 3 h.z_ne_zero) (pow_ne_zero 3 h'.z_ne_zero)]

variable [DecidableEq K]

theorem add (h : Jacobian P X Y Z) (h' : Jacobian Q X' Y' Z') {U U' S S' H R X₃ : K}
    (hU : U = X * Z' ^ 2) (hU' : U' = X' * Z ^ 2) (hS : S = Y * Z' ^ 3) (hS' : S' = Y' * Z ^ 3)
    (hH : H = U' - U) (hR : R = S' - S) (hX₃ : X₃ = R ^ 2 - H ^ 3 - 2 * (U * H ^ 2)) (hne : H ≠ 0) :
    Jacobian (P + Q) X₃ (R * (U * H ^ 2 - X₃) - S * H ^ 3) (H * (Z * Z')) := by
  have hz := h.z_ne_zero
  have hz' := h'.z_ne_zero
  have hHeq : H = X' * Z ^ 2 - X * Z' ^ 2 := by rw [hH, hU, hU']
  have hsub : X / Z ^ 2 - X' / Z' ^ 2 = -H / (Z * Z') ^ 2 := by
    rw [hHeq]
    field_simp
    ring
  have hx : X / Z ^ 2 ≠ X' / Z' ^ 2 := by
    rw [← sub_ne_zero, hsub]
    exact div_ne_zero (neg_ne_zero.mpr hne) (pow_ne_zero 2 (mul_ne_zero hz hz'))
  have hℓ : R / (H * (Z * Z')) * (X / Z ^ 2 - X' / Z' ^ 2) = Y / Z ^ 3 - Y' / Z' ^ 3 := by
    rw [hsub, hR, hS, hS']
    field_simp
    ring
  refine ⟨mul_ne_zero hne (mul_ne_zero hz hz'), ?_⟩
  have hsum := h.coords.add h'.coords hx hℓ
  have hX : X₃ / (H * (Z * Z')) ^ 2 =
      (R / (H * (Z * Z'))) ^ 2 - X / Z ^ 2 - X' / Z' ^ 2 := by
    have hX' : X' * Z ^ 2 = H + X * Z' ^ 2 := by rw [hHeq]; ring
    have hx' : X' / Z' ^ 2 = (H + X * Z' ^ 2) / (Z * Z') ^ 2 := by
      rw [← hX']
      field_simp
    rw [hX₃, hU, hx']
    field_simp
    ring
  rw [← hX] at hsum
  have hY : (R * (U * H ^ 2 - X₃) - S * H ^ 3) / (H * (Z * Z')) ^ 3 =
      R / (H * (Z * Z')) * (X / Z ^ 2 - X₃ / (H * (Z * Z')) ^ 2) - Y / Z ^ 3 := by
    rw [hU, hS]
    field_simp
  rwa [hY]

theorem double (h : Jacobian P X Y Z) (htwo : (2 : K) ≠ 0) (hy : Y ≠ 0) {S M X₃ : K}
    (hS : S = 4 * (X * Y ^ 2)) (hM : M = 3 * X ^ 2 + a * Z ^ 4) (hX₃ : X₃ = M ^ 2 - (S + S)) :
    Jacobian (P + P) X₃ (M * (S - X₃) - 8 * Y ^ 4) (2 * (Y * Z)) := by
  have hz := h.z_ne_zero
  have hy2 : 2 * (Y / Z ^ 3) ≠ 0 := mul_ne_zero htwo (div_ne_zero hy (pow_ne_zero 3 hz))
  have hℓ : M / (2 * (Y * Z)) * (2 * (Y / Z ^ 3)) = 3 * (X / Z ^ 2) ^ 2 + a := by
    rw [hM]
    field_simp
  refine ⟨mul_ne_zero htwo (mul_ne_zero hy hz), ?_⟩
  have hsum := h.coords.double hy2 hℓ
  have hX : X₃ / (2 * (Y * Z)) ^ 2 = (M / (2 * (Y * Z))) ^ 2 - X / Z ^ 2 - X / Z ^ 2 := by
    rw [hX₃, hS]
    field_simp
    ring
  rw [← hX] at hsum
  have hY : (M * (S - X₃) - 8 * Y ^ 4) / (2 * (Y * Z)) ^ 3 =
      M / (2 * (Y * Z)) * (X / Z ^ 2 - X₃ / (2 * (Y * Z)) ^ 2) - Y / Z ^ 3 := by
    rw [hS]
    field_simp
    ring
  rwa [hY]

end Jacobian

section Count

variable [Fintype K]

instance : Finite (shortWeierstrass a b).Point := by
  have : Finite {xy : K × K // (shortWeierstrass a b).Nonsingular xy.1 xy.2} := inferInstance
  exact Finite.of_equiv (Option {xy : K × K // (shortWeierstrass a b).Nonsingular xy.1 xy.2})
    (nonsingularPointEquiv (shortWeierstrass a b)).symm

theorem card_solutions_le [DecidableEq K] (s : Finset (K × K))
    (hs : ∀ xy ∈ s, xy.2 ^ 2 = xy.1 ^ 3 + a * xy.1 + b) : s.card ≤ 2 * Fintype.card K := by
  have hfiber : ∀ x ∈ s.image Prod.fst, (s.filter fun xy => xy.1 = x).card ≤ 2 := by
    intro x hx
    obtain ⟨⟨x', y⟩, hmem, rfl⟩ := Finset.mem_image.mp hx
    have hsub : s.filter (fun xy => xy.1 = x') ⊆ {(x', y), (x', -y)} := by
      rintro ⟨x'', y'⟩ hfilter
      obtain ⟨hmem', rfl⟩ := Finset.mem_filter.mp hfilter
      have hsq : y' ^ 2 = y ^ 2 := (hs _ hmem').trans (hs _ hmem).symm
      rcases sq_eq_sq_iff_eq_or_eq_neg.mp hsq with rfl | rfl <;> simp
    exact (Finset.card_le_card hsub).trans Finset.card_le_two
  exact (Finset.card_le_mul_card_image s 2 hfiber).trans (Nat.mul_le_mul_left 2 (Finset.card_le_univ _))

/-- At most two points for each `x`, and the one at infinity. -/
theorem card_point_le : Nat.card (shortWeierstrass a b).Point ≤ 2 * Fintype.card K + 1 := by
  classical
  rw [Nat.card_congr (nonsingularPointEquiv (shortWeierstrass a b))]
  change Nat.card (Option _) ≤ _
  rw [Finite.card_option, Nat.card_eq_fintype_card, Fintype.card_subtype]
  apply Nat.succ_le_succ
  apply card_solutions_le (a := a) (b := b)
  intro xy hxy
  exact (equation_iff xy.1 xy.2).mp (Finset.mem_filter.mp hxy).2.1

end Count

end ShortWeierstrass

/-- A group too small for three subgroups of prime order `n`, with an element of that order and none
of order 2, is that subgroup. -/
theorem nsmul_eq_zero_of_card_lt {G : Type} [AddCommGroup G] [Finite G] {n : ℕ} (hn : n.Prime) {g : G}
    (hg : g ≠ 0) (hng : n • g = 0) (hcard : Nat.card G < 3 * n) (htwo : ∀ x : G, 2 • x = 0 → x = 0)
    (x : G) : n • x = 0 := by
  have hfact : Fact n.Prime := ⟨hn⟩
  have horder : addOrderOf g = n := addOrderOf_eq_prime hng hg
  obtain ⟨k, hk⟩ := horder ▸ addOrderOf_dvd_natCard g
  have hpos : 0 < Nat.card G := Nat.card_pos
  have hk3 : k < 3 := by
    rw [hk, mul_comm] at hcard
    exact lt_of_mul_lt_mul_right hcard (Nat.zero_le n)
  have hk2 : k ≠ 2 := by
    rintro rfl
    have hdvd : 2 ∣ Nat.card G := ⟨n, by rw [hk, mul_comm]⟩
    obtain ⟨y, hy⟩ := exists_prime_addOrderOf_dvd_card' 2 hdvd
    have hy0 : y = 0 := htwo y (hy ▸ addOrderOf_nsmul_eq_zero y)
    rw [hy0, addOrderOf_zero] at hy
    cases hy
  have hk1 : k = 1 := by
    rcases Nat.eq_zero_or_pos k with rfl | hk0
    · rw [hk, mul_zero] at hpos
      exact absurd hpos (lt_irrefl 0)
    · omega
  rw [hk1, mul_one] at hk
  rw [← hk]
  exact card_nsmul_eq_zero'

end LineaSgxProver.Library
