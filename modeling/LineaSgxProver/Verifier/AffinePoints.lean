import LineaSgxProver.Verifier.ScalarMultiplication

namespace LineaSgxProver.Verifier

open Library ShortWeierstrass

namespace EllipticCurve

theorem invModLoop_of_ne {pp x : ℕ} (hx : x ≠ 0) (q newT r : ℕ) :
    invModLoop pp x q newT r =
      invModLoop pp (r % x) newT (addmod q (pp - mulmod (r / x) newT pp) pp) x := by
  rw [invModLoop, dif_neg hx, Nat.mod_eq_sub_mul_div, Nat.mul_comm x]

/-- The loop of Euclid: `q` and `newT` times the number inverted are `r` and `x`. -/
theorem invModLoop_spec {pp x₀ x q newT r : ℕ} (hpos : 0 < pp) (hq : (q : ZMod pp) * x₀ = r)
    (hx : (newT : ZMod pp) * x₀ = x) (hlt : q < pp) (hlt' : newT < pp) :
    (invModLoop pp x q newT r : ZMod pp) * x₀ = Nat.gcd x r ∧ invModLoop pp x q newT r < pp := by
  induction x using Nat.strong_induction_on generalizing q newT r with
  | _ x ih =>
    by_cases hx0 : x = 0
    · rw [invModLoop, dif_pos hx0, hx0, Nat.gcd_zero_left]
      exact ⟨hq, hlt⟩
    · have hdiv : ((r % x : ℕ) : ZMod pp) = r - (r / x : ℕ) * x := by
        have h := congrArg (Nat.cast (R := ZMod pp)) (Nat.div_add_mod r x)
        push_cast at h
        linear_combination h
      rw [invModLoop_of_ne hx0, Nat.gcd_rec]
      apply ih (r % x) (Nat.mod_lt _ (Nat.pos_of_ne_zero hx0)) hx _ hlt' (addmod_lt _ _ hpos)
      rw [hdiv, addmod_cast, sub_cast (mulmod_lt _ _ hpos), mulmod_cast]
      linear_combination hq - (r / x : ℕ) * hx

theorem invMod_spec {pp x : ℕ} [Fact pp.Prime] (hx : ¬ pp ∣ x) :
    ∃ y, invMod pp x = .ok y ∧ y < pp ∧ (y : ZMod pp) = (x : ZMod pp)⁻¹ := by
  have hp : pp.Prime := Fact.out
  have hx0 : x ≠ 0 := by
    rintro rfl
    exact hx (dvd_zero pp)
  have hxp : x ≠ pp := by
    rintro rfl
    exact hx dvd_rfl
  have hcast : (x : ZMod pp) ≠ 0 := by rwa [ne_eq, ZMod.natCast_eq_zero_iff]
  have hq : ((0 : ℕ) : ZMod pp) * x = (pp : ℕ) := by simp
  have hnewT : ((1 : ℕ) : ZMod pp) * x = x := by simp
  obtain ⟨hspec, hlt⟩ := invModLoop_spec hp.pos hq hnewT hp.pos hp.one_lt
  have hgcd : Nat.gcd x pp = 1 := Nat.Coprime.symm ((Nat.Prime.coprime_iff_not_dvd hp).mpr hx)
  rw [hgcd, Nat.cast_one] at hspec
  refine ⟨_, ?_, hlt, eq_inv_of_mul_eq_one_left hspec⟩
  simp [invMod, require, hx0, hxp, hp.ne_zero]

section Point

variable {pp aa bb : ℕ} [Fact pp.Prime]

structure IsAffine (P : (shortWeierstrass (aa : ZMod pp) (bb : ZMod pp)).Point) (x y : ℕ) : Prop where
  x_lt : x < pp
  y_lt : y < pp
  coords : Coords P (x : ZMod pp) (y : ZMod pp)

variable {P Q : (shortWeierstrass (aa : ZMod pp) (bb : ZMod pp)).Point} {x y x' y' : ℕ}

theorem IsAffine.isPoint (h : IsAffine P x y) : IsPoint P (x, y, 1) :=
  IsPoint.of_coords h.x_lt h.y_lt h.coords

theorem IsAffine.eq (h : IsAffine P x y) (h' : IsAffine Q x y) : P = Q :=
  (h.coords.eq_iff h'.coords).mpr ⟨rfl, rfl⟩

theorem IsAffine.x_eq_iff (h : IsAffine P x y) (h' : IsAffine Q x' y') : x = x' ↔ P = Q ∨ P = -Q := by
  constructor
  · rintro rfl
    exact h.coords.eq_or_eq_neg h'.coords
  · rintro (rfl | rfl)
    · exact eq_of_cast_eq h.x_lt h'.x_lt (h.coords.unique h'.coords).1
    · exact eq_of_cast_eq h.x_lt h'.x_lt (h.coords.unique h'.coords.neg).1

theorem toAffine_spec {t : ℕ × ℕ × ℕ} (h : IsPoint P t) :
    ∃ x y, toAffine pp t.1 t.2.1 t.2.2 = .ok (x, y) ∧ IsAffine P x y := by
  have hpos : 0 < pp := (Fact.out : pp.Prime).pos
  have hz : ¬ pp ∣ t.2.2 := by
    rw [← ZMod.natCast_eq_zero_iff]
    exact h.jacobian.z_ne_zero
  obtain ⟨w, hw, _, hinv⟩ := invMod_spec hz
  refine ⟨mulmod t.1 (mulmod w w pp) pp, mulmod t.2.1 (mulmod w (mulmod w w pp) pp) pp, ?_,
    mulmod_lt _ _ hpos, mulmod_lt _ _ hpos, ?_⟩
  · rw [toAffine, hw, ok_bind]
  · convert h.jacobian.coords using 1
    · simp only [mulmod_cast, hinv]
      field_simp
    · simp only [mulmod_cast, hinv]
      field_simp

theorem ecMul_spec (hc : OddCurve pp aa bb) {n d : ℕ} (hP : addOrderOf P = n) (hd : d < n)
    (h : IsAffine P x y) :
    ∃ x' y', ecMul pp d x y aa = .ok (x', y') ∧ IsAffine (if d = 0 then P else d • P) x' y' := by
  by_cases hd0 : d = 0
  · obtain ⟨x', y', haffine, hP'⟩ := toAffine_spec h.isPoint
    refine ⟨x', y', ?_, by rwa [if_pos hd0]⟩
    rw [ecMul, jacMul, if_pos hd0, ok_bind]
    exact haffine
  · obtain ⟨v, hv, hpoint⟩ := jacMul_isPoint hc hP hd0 hd h.isPoint
    obtain ⟨x', y', haffine, hP'⟩ := toAffine_spec hpoint
    refine ⟨x', y', ?_, by rwa [if_neg hd0]⟩
    rw [ecMul, hv, ok_bind]
    exact haffine

theorem addmod_eq_zero_iff (h : IsAffine P x y) (h' : IsAffine Q x y') :
    addmod y y' pp = 0 ↔ P = -Q := by
  rw [h.coords.eq_neg_iff h'.coords, ← cast_eq_zero_iff (addmod_lt _ _ (Fact.out : pp.Prime).pos),
    addmod_cast, ← eq_neg_iff_add_eq_zero]
  simp

theorem ecAdd_of_eq_neg (h : IsAffine P x y) (h' : IsAffine Q x' y') (hPQ : P = -Q) :
    ecAdd pp x y x' y' aa = .ok (0, 0) := by
  obtain rfl : x = x' := (h.x_eq_iff h').mpr (Or.inr hPQ)
  rw [ecAdd, if_pos rfl, if_pos ((addmod_eq_zero_iff h h').mpr hPQ)]

theorem ecAdd_of_ne_neg (hc : OddCurve pp aa bb) (h : IsAffine P x y) (h' : IsAffine Q x' y')
    (hPQ : P ≠ -Q) : ∃ x₃ y₃, ecAdd pp x y x' y' aa = .ok (x₃, y₃) ∧ IsAffine (P + Q) x₃ y₃ := by
  by_cases hx : x = x'
  · subst hx
    obtain rfl : P = Q := ((h.x_eq_iff h').mp rfl).resolve_right hPQ
    obtain ⟨x₃, y₃, haffine, hsum⟩ := toAffine_spec (jacDouble_isPoint hc h.isPoint)
    refine ⟨x₃, y₃, ?_, hsum⟩
    rw [ecAdd, if_pos rfl, if_neg (fun hzero => hPQ ((addmod_eq_zero_iff h h').mp hzero))]
    exact haffine
  · have hne : P ≠ Q := fun heq => hx ((h.x_eq_iff h').mpr (Or.inl heq))
    obtain ⟨v, hv, hpoint⟩ :=
      jacAdd_isPoint hc h.isPoint h'.isPoint (apart_of_ne h.isPoint h'.isPoint hne hPQ)
    obtain ⟨x₃, y₃, haffine, hsum⟩ := toAffine_spec hpoint
    refine ⟨x₃, y₃, ?_, hsum⟩
    rw [ecAdd, if_neg hx, hv, ok_bind]
    exact haffine

theorem isOnCurve_iff (x y : ℕ) :
    isOnCurve pp x y aa bb = true ↔ x ≠ 0 ∧ y ≠ 0 ∧ x < pp ∧ y < pp ∧
      (y : ZMod pp) ^ 2 = (x : ZMod pp) ^ 3 + aa * x + bb := by
  have hpos : 0 < pp := (Fact.out : pp.Prime).pos
  unfold isOnCurve
  by_cases hout : 0 = x ∨ pp ≤ x ∨ 0 = y ∨ pp ≤ y
  · rw [if_pos hout]
    constructor
    · intro h
      cases h
    · omega
  · have hequation : (mulmod y y pp =
        let rhs := mulmod (mulmod x x pp) x pp
        let rhs := if aa ≠ 0 then addmod rhs (mulmod x aa pp) pp else rhs
        if bb ≠ 0 then addmod rhs bb pp else rhs) ↔
        (y : ZMod pp) ^ 2 = (x : ZMod pp) ^ 3 + aa * x + bb := by
      unfold mulmod addmod
      by_cases haa : aa = 0 <;> by_cases hbb : bb = 0 <;>
        simp only [haa, hbb, ne_eq, not_true_eq_false, not_false_eq_true, if_true, if_false] <;>
        rw [eq_iff_cast_eq (Nat.mod_lt _ hpos) (Nat.mod_lt _ hpos)] <;>
        simp only [ZMod.natCast_mod, Nat.cast_mul, Nat.cast_add, Nat.cast_zero] <;> ring_nf
    rw [if_neg hout, decide_eq_true_iff, hequation]
    constructor
    · intro h
      refine ⟨?_, ?_, ?_, ?_, h⟩ <;> omega
    · rintro ⟨_, _, _, _, h⟩
      exact h

end Point

end EllipticCurve

end LineaSgxProver.Verifier
