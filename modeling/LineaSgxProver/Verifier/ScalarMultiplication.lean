import LineaSgxProver.Verifier.JacobianPoints

namespace LineaSgxProver.Verifier

open Library ShortWeierstrass

namespace EllipticCurve

/-- Whether `jacAdd` adds without an exceptional case. -/
def addsSafely (pp : ℕ) (q point : ℕ × ℕ × ℕ) : Bool := decide (q = (0, 0, 1)) || apart pp q point

/-- The loop of `jacMul`, stopped where an addition is not safe. -/
def safeMulLoop (pp aa remaining : ℕ) (point q : ℕ × ℕ × ℕ) : Option (ℕ × ℕ × ℕ) :=
  if _h : remaining = 0 then some q
  else if remaining % 2 ≠ 0 then
    if addsSafely pp q point = true then
      (jacAdd pp q.1 q.2.1 q.2.2 point.1 point.2.1 point.2.2).toOption.bind
        (safeMulLoop pp aa (remaining / 2) (jacDouble pp point.1 point.2.1 point.2.2 aa))
    else none
  else safeMulLoop pp aa (remaining / 2) (jacDouble pp point.1 point.2.1 point.2.2 aa) q
termination_by remaining

section Point

variable {pp aa bb : ℕ} [Fact pp.Prime]
  {P A B : (shortWeierstrass (aa : ZMod pp) (bb : ZMod pp)).Point} {point q v : ℕ × ℕ × ℕ}

/-- What the loop has added up: nothing yet, or a point. -/
def IsSum (A : (shortWeierstrass (aa : ZMod pp) (bb : ZMod pp)).Point) (q : ℕ × ℕ × ℕ) : Prop :=
  (A = 0 ∧ q = (0, 0, 1)) ∨ IsPoint A q

theorem IsSum.isPoint (h : IsSum A q) (hA : A ≠ 0) : IsPoint A q := by
  rcases h with ⟨hzero, _⟩ | hpoint
  · exact absurd hzero hA
  · exact hpoint

theorem jacAdd_of_safe (hc : OddCurve pp aa bb) (hq : IsSum A q) (hpoint : IsPoint B point)
    (hsafe : addsSafely pp q point = true) :
    ∃ v, jacAdd pp q.1 q.2.1 q.2.2 point.1 point.2.1 point.2.2 = .ok v ∧ IsPoint (A + B) v := by
  rcases hq with ⟨rfl, rfl⟩ | hq
  · refine ⟨point, ?_, by rwa [zero_add]⟩
    rw [jacAdd, if_pos ⟨rfl, rfl⟩]
  · have hne : q ≠ (0, 0, 1) := by
      rintro rfl
      exact hq.y_ne_zero hc rfl
    have hapart : apart pp q point = true := by simpa [addsSafely, hne] using hsafe
    exact jacAdd_isPoint hc hq hpoint hapart

theorem double_nsmul_half (B : (shortWeierstrass (aa : ZMod pp) (bb : ZMod pp)).Point) (d : ℕ) :
    (d / 2) • (B + B) + (d % 2) • B = d • B := by
  rw [← two_nsmul, ← mul_nsmul', ← add_nsmul, Nat.div_add_mod']

/-- Where every addition is safe, the loop adds up the multiple. -/
theorem jacMulLoop_of_safe (hc : OddCurve pp aa bb) {d : ℕ} (hq : IsSum A q) (hpoint : IsPoint B point)
    (h : safeMulLoop pp aa d point q = some v) :
    jacMulLoop pp aa d point q = .ok v ∧ IsSum (A + d • B) v := by
  induction d using Nat.strong_induction_on generalizing A B point q with
  | _ d ih =>
    rw [safeMulLoop] at h
    rw [jacMulLoop]
    by_cases hd : d = 0
    · rw [dif_pos hd] at h ⊢
      obtain rfl := Option.some.inj h
      rw [hd, zero_nsmul, add_zero]
      exact ⟨rfl, hq⟩
    · have hlt : d / 2 < d := Nat.div_lt_self (Nat.pos_of_ne_zero hd) (by decide)
      have hdouble := jacDouble_isPoint hc hpoint
      rw [dif_neg hd] at h ⊢
      by_cases hodd : d % 2 ≠ 0
      · rw [if_pos hodd] at h ⊢
        split_ifs at h with hsafe
        obtain ⟨w, hadd, hw⟩ := jacAdd_of_safe hc hq hpoint hsafe
        rw [hadd] at h ⊢
        obtain ⟨hloop, hsum⟩ := ih (d / 2) hlt (Or.inr hw) hdouble h
        refine ⟨hloop, ?_⟩
        have hone : d % 2 = 1 := by omega
        rw [← double_nsmul_half B d, hone, one_nsmul, add_comm _ B, ← add_assoc]
        exact hsum
      · rw [if_neg hodd] at h ⊢
        obtain ⟨hloop, hsum⟩ := ih (d / 2) hlt hq hdouble h
        refine ⟨hloop, ?_⟩
        have hzero : d % 2 = 0 := by omega
        rw [← double_nsmul_half B d, hzero, zero_nsmul, add_zero]
        exact hsum

theorem nsmul_ne_of_lt {n s k : ℕ} (hP : addOrderOf P = n) (hs : s < n) (hk : k < n) (hne : s ≠ k) :
    s • P ≠ k • P := by
  intro h
  apply hne
  exact nsmul_injOn_Iio_addOrderOf (Set.mem_Iio.mpr (hP ▸ hs)) (Set.mem_Iio.mpr (hP ▸ hk)) h

/-- Multiples below the order of a point are never added to themselves or to their opposites. -/
theorem safeMulLoop_isSome (hc : OddCurve pp aa bb) {n d s i : ℕ} (hP : addOrderOf P = n)
    (hs : s < 2 ^ i) (hd : s + d * 2 ^ i < n) (hq : IsSum (s • P) q)
    (hpoint : IsPoint ((2 ^ i) • P) point) : (safeMulLoop pp aa d point q).isSome = true := by
  induction d using Nat.strong_induction_on generalizing s i point q with
  | _ d ih =>
    rw [safeMulLoop]
    by_cases hd0 : d = 0
    · rw [dif_pos hd0]
      rfl
    · have hlt : d / 2 < d := Nat.div_lt_self (Nat.pos_of_ne_zero hd0) (by decide)
      have hdouble := jacDouble_isPoint hc hpoint
      rw [← add_nsmul, ← two_mul, ← pow_succ'] at hdouble
      have hle : 2 ^ i ≤ d * 2 ^ i := Nat.le_mul_of_pos_left _ (Nat.pos_of_ne_zero hd0)
      have hsplit : d * 2 ^ i = d / 2 * 2 ^ (i + 1) + d % 2 * 2 ^ i := by
        conv_lhs => rw [← Nat.div_add_mod d 2]
        ring
      rw [dif_neg hd0]
      by_cases hodd : d % 2 ≠ 0
      · have hone : d % 2 = 1 := by omega
        have hsafe : addsSafely pp q point = true := by
          rcases hq with ⟨_, rfl⟩ | hq
          · simp [addsSafely]
          · have hs0 : s ≠ 0 := by
              rintro rfl
              exact hq.jacobian.coords.ne_zero (zero_nsmul P)
            have hne : s • P ≠ (2 ^ i) • P := nsmul_ne_of_lt hP (by omega) (by omega) (by omega)
            have hneg : s • P ≠ -((2 ^ i) • P) := by
              rw [ne_eq, eq_neg_iff_add_eq_zero, ← add_nsmul, ← zero_nsmul P]
              exact nsmul_ne_of_lt hP (by omega) (by omega) (by omega)
            rw [addsSafely, apart_of_ne hq hpoint hne hneg, Bool.or_true]
        obtain ⟨w, hadd, hw⟩ := jacAdd_of_safe hc hq hpoint hsafe
        rw [← add_nsmul] at hw
        rw [if_pos hodd, if_pos hsafe, hadd]
        apply ih (d / 2) hlt _ _ (Or.inr hw) hdouble
        · rw [pow_succ]
          omega
        · rw [hone, one_mul] at hsplit
          omega
      · have hzero : d % 2 = 0 := by omega
        rw [if_neg hodd]
        apply ih (d / 2) hlt _ _ hq hdouble
        · rw [pow_succ]
          omega
        · rw [hzero, zero_mul, add_zero] at hsplit
          omega

theorem jacMul_isPoint (hc : OddCurve pp aa bb) {n d x y z : ℕ} (hP : addOrderOf P = n) (hd : d ≠ 0)
    (hlt : d < n) (hpoint : IsPoint P (x, y, z)) :
    ∃ v, jacMul pp d x y z aa = .ok v ∧ IsPoint (d • P) v := by
  have hzero : IsSum (0 • P) (0, 0, 1) := Or.inl ⟨zero_nsmul P, rfl⟩
  have hone : IsPoint ((2 ^ 0) • P) (x, y, z) := by rwa [pow_zero, one_nsmul]
  obtain ⟨v, hv⟩ := Option.isSome_iff_exists.mp
    (safeMulLoop_isSome hc hP (by decide) (by omega : 0 + d * 2 ^ 0 < n) hzero hone)
  obtain ⟨hloop, hsum⟩ := jacMulLoop_of_safe hc (Or.inl ⟨rfl, rfl⟩) hpoint hv
  rw [zero_add] at hsum
  refine ⟨v, ?_, hsum.isPoint ?_⟩
  · rw [jacMul, if_neg hd, hloop]
  · rw [← zero_nsmul P]
    exact nsmul_ne_of_lt hP hlt (by omega) hd

end Point

end EllipticCurve

end LineaSgxProver.Verifier
