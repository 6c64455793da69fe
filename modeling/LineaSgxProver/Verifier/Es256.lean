import LineaSgxProver.Verifier.AffinePoints
import LineaSgxProver.Verifier.CertSignature
import LineaSgxProver.Verifier.P256Order

namespace LineaSgxProver.Verifier

open Library ShortWeierstrass EllipticCurve

namespace P256

/-- The first coordinate, and 0 at infinity. -/
def xCoord : Point → ℕ
  | .zero => 0
  | .some x _ _ => x.val

/-- `k / s` modulo the order. -/
def quotient (k s : ℕ) : ℕ := ((k : ZMod n) * (s : ZMod n)⁻¹).val

noncomputable def sum (Q : Point) (h r s : ℕ) : Point := quotient h s • generator + quotient r s • Q

structure InRange (r s : ℕ) : Prop where
  r_pos : 1 ≤ r
  r_lt : r < n
  s_pos : 1 ≤ s
  s_lt : s < n

/-- ECDSA: `(r, s)` signs `h` under the key `Q`. -/
structure Verifies (Q : Point) (h r s : ℕ) : Prop extends InRange r s where
  sum_ne_zero : sum Q h r s ≠ 0
  x_eq : xCoord (sum Q h r s) % n = r

def ValidSignature (h pgx pgy r s : SU256) : Prop :=
  ∃ Q : Point, IsAffine Q pgx.toNat pgy.toNat ∧ Verifies Q h.toNat r.toNat s.toNat

/-- The multiple that `jacMul` gives: the point itself for the scalar 0. -/
def times (k : ℕ) (P : Point) : Point := if k = 0 then P else k • P

noncomputable def compared (Q : Point) (h r s : ℕ) : Point :=
  times (quotient h s) generator + times (quotient r s) Q

/-- No slip of the check shows: no pair out of range is accepted, a digest that is 0 modulo the order
decides as it should without its own term, and the first coordinate is not `r` only after its reduction. -/
structure Unexceptional (Q : Point) (h r s : ℕ) : Prop where
  out_of_range : ¬ InRange r s → ¬ n ∣ s → xCoord (compared Q h r s) ≠ r
  zero_digest : InRange r s → n ∣ h →
    (xCoord (generator + quotient r s • Q) = r ↔ xCoord (quotient r s • Q) % n = r)
  unreduced : InRange r s → ¬ n ∣ h → xCoord (sum Q h r s) ≠ r + n

/-- A key is either refused for its first coordinate 0 or checked. -/
def Regular (h pgx pgy r s : SU256) : Prop :=
  ∀ Q : Point, IsAffine Q pgx.toNat pgy.toNat →
    if pgx.toNat = 0 then ¬ Verifies Q h.toNat r.toNat s.toNat
    else Unexceptional Q h.toNat r.toNat s.toNat

theorem xCoord_eq {P : Point} {x y : ℕ} (h : IsAffine P x y) : xCoord P = x := by
  obtain ⟨hns, rfl⟩ := h.coords.exists_eq
  exact ZMod.val_cast_of_lt h.x_lt

theorem xCoord_lt (P : Point) : xCoord P < p := by
  cases P with
  | zero => decide
  | some x y hns => exact ZMod.val_lt x

theorem quotient_lt (k s : ℕ) : quotient k s < n := ZMod.val_lt _

theorem quotient_eq_zero_iff {k s : ℕ} (hs : ¬ n ∣ s) : quotient k s = 0 ↔ n ∣ k := by
  have hs0 : (s : ZMod n) ≠ 0 := by rwa [ne_eq, ZMod.natCast_eq_zero_iff]
  rw [quotient, ZMod.val_eq_zero, mul_eq_zero, or_iff_left (inv_ne_zero hs0), ZMod.natCast_eq_zero_iff]

theorem quotient_one {k : ℕ} (hk : k < n) : quotient k 1 = k := by
  rw [quotient, Nat.cast_one, inv_one, mul_one, ZMod.val_cast_of_lt hk]

theorem mulmod_eq_quotient {k s s₁ : ℕ} (hs₁ : (s₁ : ZMod n) = (s : ZMod n)⁻¹) :
    mulmod k s₁ n = quotient k s := by
  have hlt : mulmod k s₁ n < n := mulmod_lt _ _ n_prime.pos
  rw [quotient, ← hs₁, ← mulmod_cast, ZMod.val_cast_of_lt hlt]

theorem generator_isAffine : IsAffine generator gx gy := ⟨by decide, by decide, generator_coords⟩

theorem exists_isAffine {x y : ℕ} (h : isOnCurve p x y a b = true) : ∃ Q : Point, IsAffine Q x y := by
  obtain ⟨_, _, hx, hy, hequation⟩ := (isOnCurve_iff x y).mp h
  obtain ⟨Q, hQ⟩ := oddCurve.exists_coords hequation
  exact ⟨Q, hx, hy, hQ⟩

theorem isOnCurve_of_isAffine {Q : Point} {x y : ℕ} (h : IsAffine Q x y) :
    isOnCurve p x y a b = true ↔ x ≠ 0 := by
  have hy : y ≠ 0 := by
    rintro rfl
    exact oddCurve.y_ne_zero h.coords Nat.cast_zero
  rw [isOnCurve_iff]
  exact ⟨fun hcurve => hcurve.1, fun hx => ⟨hx, hy, h.x_lt, h.y_lt, h.coords.equation⟩⟩

theorem InRange.not_dvd {r s : ℕ} (h : InRange r s) : ¬ n ∣ s := Nat.not_dvd_of_pos_of_lt h.s_pos h.s_lt

theorem InRange.quotient_ne_zero {r s : ℕ} (h : InRange r s) : quotient r s ≠ 0 := by
  rw [ne_eq, quotient_eq_zero_iff h.not_dvd]
  exact Nat.not_dvd_of_pos_of_lt h.r_pos h.r_lt

theorem xCoord_mod_eq_iff (P : Point) {r : ℕ} (hr : r < n) :
    xCoord P % n = r ↔ xCoord P = r ∨ xCoord P = r + n := by
  -- the field is less than twice as large as the group
  have hlt : xCoord P < 2 * n := (xCoord_lt P).trans (by decide)
  constructor
  · intro hmod
    by_cases hx : xCoord P < n
    · rw [Nat.mod_eq_of_lt hx] at hmod
      exact Or.inl hmod
    · rw [Nat.mod_eq_sub_mod (not_lt.mp hx), Nat.mod_eq_of_lt (by omega)] at hmod
      exact Or.inr (by omega)
  · rintro (hx | hx)
    · rw [hx, Nat.mod_eq_of_lt hr]
    · rw [hx, Nat.add_mod_right, Nat.mod_eq_of_lt hr]

theorem verifies_iff {Q : Point} {h r s : ℕ} (hrange : InRange r s) :
    Verifies Q h r s ↔ xCoord (sum Q h r s) % n = r := by
  constructor
  · intro hverifies
    exact hverifies.x_eq
  · intro hx
    refine ⟨hrange, ?_, hx⟩
    intro hzero
    rw [hzero] at hx
    exact Nat.ne_of_lt hrange.r_pos hx

theorem agrees_iff {Q : Point} {h r s : ℕ} (hs : ¬ n ∣ s) :
    (xCoord (compared Q h r s) = r ↔ Verifies Q h r s) ↔ Unexceptional Q h r s := by
  by_cases hrange : InRange r s
  · rw [verifies_iff hrange]
    by_cases hh : n ∣ h
    · have hzero : quotient h s = 0 := (quotient_eq_zero_iff hs).mpr hh
      have hcompared : compared Q h r s = generator + quotient r s • Q := by
        rw [compared, times, if_pos hzero, times, if_neg hrange.quotient_ne_zero]
      have hsum : sum Q h r s = quotient r s • Q := by
        rw [sum, hzero, zero_nsmul, zero_add]
      rw [hcompared, hsum]
      constructor
      · intro hagree
        exact ⟨fun hout => absurd hrange hout, fun _ _ => hagree, fun _ hh' => absurd hh hh'⟩
      · intro hregular
        exact hregular.zero_digest hrange hh
    · have hne : quotient h s ≠ 0 := fun hzero => hh ((quotient_eq_zero_iff hs).mp hzero)
      have hcompared : compared Q h r s = sum Q h r s := by
        rw [compared, times, if_neg hne, times, if_neg hrange.quotient_ne_zero, sum]
      rw [hcompared, xCoord_mod_eq_iff _ hrange.r_lt]
      constructor
      · intro hagree
        refine ⟨fun hout => absurd hrange hout, fun _ hh' => absurd hh' hh, ?_⟩
        intro _ _ hx
        have hr : xCoord (sum Q h r s) = r := hagree.mpr (Or.inr hx)
        have hpos : 0 < n := n_prime.pos
        omega
      · intro hregular
        have hx : xCoord (sum Q h r s) ≠ r + n := hregular.unreduced hrange hh
        rw [or_iff_left hx]
  · have hverifies : ¬ Verifies Q h r s := fun hverifies => hrange hverifies.toInRange
    rw [iff_false_right hverifies]
    constructor
    · intro hx
      exact ⟨fun _ _ => hx, fun h' => absurd h' hrange, fun h' => absurd h' hrange⟩
    · intro hregular
      exact hregular.out_of_range hrange hs

theorem unexceptional_of_dvd {Q : Point} {h r s : ℕ} (hs : n ∣ s) : Unexceptional Q h r s := by
  have hrange : ¬ InRange r s := fun hrange => hrange.not_dvd hs
  exact ⟨fun _ hs' => absurd hs hs', fun h' => absurd h' hrange, fun h' => absurd h' hrange⟩

end P256

open P256

namespace EllipticCurve

theorem ecAdd_xCoord {P Q : Point} {x y x' y' : ℕ} (h : IsAffine P x y) (h' : IsAffine Q x' y') :
    ∃ y₃, ecAdd p x y x' y' a = .ok (xCoord (P + Q), y₃) := by
  by_cases hPQ : P = -Q
  · refine ⟨0, ?_⟩
    rw [ecAdd_of_eq_neg h h' hPQ, hPQ, neg_add_cancel]
    rfl
  · obtain ⟨x₃, y₃, hadd, hsum⟩ := ecAdd_of_ne_neg oddCurve h h' hPQ
    refine ⟨y₃, ?_⟩
    rw [hadd, xCoord_eq hsum]

section Signature

variable {h pgx pgy r s : SU256} {Q : Point}

theorem order_dvd_iff (s : SU256) : n ∣ s.toNat ↔ s.toNat = 0 ∨ s.toNat = n := by
  have hlt : s.toNat < 2 * n := s.isLt.trans (by decide)
  constructor
  · rintro ⟨k, hk⟩
    have hk2 : k < 2 := by
      rw [hk, mul_comm] at hlt
      exact lt_of_mul_lt_mul_right hlt (Nat.zero_le n)
    interval_cases k <;> simp_all
  · rintro (hs | hs) <;> simp [hs]

theorem validateSignature_off_curve (hQ : ¬ ∃ Q : Point, IsAffine Q pgx.toNat pgy.toNat) :
    validateSignature h pgx pgy r s = .ok false := by
  rw [validateSignature, if_pos]
  by_contra hcurve
  exact hQ (exists_isAffine (Bool.not_eq_false _ ▸ hcurve))

theorem validateSignature_x_zero (hx : pgx.toNat = 0) : validateSignature h pgx pgy r s = .ok false := by
  rw [validateSignature, if_pos]
  rw [isOnCurve, if_pos (Or.inl hx.symm)]

theorem validateSignature_s_zero (hQ : IsAffine Q pgx.toNat pgy.toNat) (hx : pgx.toNat ≠ 0)
    (hs : n ∣ s.toNat) :
    validateSignature h pgx pgy r s = .error (.reason "Invalid number") := by
  have hs' : ¬ (s.toNat ≠ 0 ∧ s.toNat ≠ n ∧ n ≠ 0) := by
    rcases (order_dvd_iff s).mp hs with hs | hs <;> simp [hs]
  rw [validateSignature, if_neg (by rw [(isOnCurve_of_isAffine hQ).mpr hx]; decide), invMod, require,
    if_neg hs']
  rfl

/-- Where it does not revert, `validateSignature` compares `r` with the first coordinate of the sum it
computed. -/
theorem validateSignature_eq (hQ : IsAffine Q pgx.toNat pgy.toNat) (hx : pgx.toNat ≠ 0)
    (hs : ¬ n ∣ s.toNat) :
    validateSignature h pgx pgy r s =
      .ok (xCoord (compared Q h.toNat r.toNat s.toNat) = r.toNat) := by
  obtain ⟨s₁, hinv, _, hs₁⟩ := invMod_spec hs
  obtain ⟨x, y, hmul, hpoint⟩ := ecMul_spec oddCurve (addOrderOf_eq generator_coords.ne_zero)
    (quotient_lt h.toNat s.toNat) generator_isAffine
  obtain ⟨x', y', hmul', hpoint'⟩ := ecMul_spec oddCurve (addOrderOf_eq hQ.coords.ne_zero)
    (quotient_lt r.toNat s.toNat) hQ
  obtain ⟨y₃, hadd⟩ := ecAdd_xCoord hpoint hpoint'
  rw [validateSignature, if_neg (by rw [(isOnCurve_of_isAffine hQ).mpr hx]; decide), hinv]
  simp only [ok_bind, mulmod_eq_quotient hs₁, hmul, hmul', hadd]
  rfl

theorem validSignature_iff (hQ : IsAffine Q pgx.toNat pgy.toNat) :
    ValidSignature h pgx pgy r s ↔ Verifies Q h.toNat r.toNat s.toNat := by
  constructor
  · rintro ⟨Q', hQ', hverifies⟩
    rwa [hQ.eq hQ']
  · intro hverifies
    exact ⟨Q, hQ, hverifies⟩

theorem regular_iff (hQ : IsAffine Q pgx.toNat pgy.toNat) :
    Regular h pgx pgy r s ↔
      if pgx.toNat = 0 then ¬ Verifies Q h.toNat r.toNat s.toNat
      else Unexceptional Q h.toNat r.toNat s.toNat := by
  constructor
  · intro hregular
    exact hregular Q hQ
  · intro hregular Q' hQ'
    rwa [← hQ.eq hQ']

/-- On the curve the library agrees with ECDSA exactly where none of its slips shows. -/
theorem validateSignature_agrees (hQ : IsAffine Q pgx.toNat pgy.toNat) :
    (validateSignature h pgx pgy r s = .ok true ↔ Verifies Q h.toNat r.toNat s.toNat) ↔
      if pgx.toNat = 0 then ¬ Verifies Q h.toNat r.toNat s.toNat
      else Unexceptional Q h.toNat r.toNat s.toNat := by
  by_cases hx : pgx.toNat = 0
  · rw [validateSignature_x_zero hx, if_pos hx]
    simp
  · rw [if_neg hx]
    by_cases hs : n ∣ s.toNat
    · have hverifies : ¬ Verifies Q h.toNat r.toNat s.toNat := fun hverifies => hverifies.not_dvd hs
      rw [validateSignature_s_zero hQ hx hs, iff_false_right hverifies]
      simp [unexceptional_of_dvd hs]
    · rw [validateSignature_eq hQ hx hs, ← agrees_iff hs]
      simp

end Signature

theorem validateSignature_exact (h pgx pgy r s : SU256) :
    (validateSignature h pgx pgy r s = .ok true ↔ ValidSignature h pgx pgy r s) ↔
      Regular h pgx pgy r s := by
  by_cases hcurve : ∃ Q : Point, IsAffine Q pgx.toNat pgy.toNat
  · obtain ⟨Q, hQ⟩ := hcurve
    rw [validSignature_iff hQ, regular_iff hQ]
    exact validateSignature_agrees hQ
  · rw [validateSignature_off_curve hcurve]
    constructor
    · intro _ Q hQ
      exact absurd ⟨Q, hQ⟩ hcurve
    · intro _
      constructor
      · intro hfalse
        simp at hfalse
      · rintro ⟨Q, hQ, _⟩
        exact absurd ⟨Q, hQ⟩ hcurve

/-- The digest `n - 1` with `r = 0` passes under the generator as key: the two terms are opposite, and
`ecAdd` gives 0 for their sum. -/
theorem validateSignature_accepts_zero :
    validateSignature (.ofNat 256 (n - 1)) (.ofNat 256 gx) (.ofNat 256 gy) (.ofNat 256 0) (.ofNat 256 1) =
        .ok true ∧
      ¬ ValidSignature (.ofNat 256 (n - 1)) (.ofNat 256 gx) (.ofNat 256 gy) (.ofNat 256 0)
        (.ofNat 256 1) := by
  have hdigest : quotient (n - 1) 1 = n - 1 := quotient_one (by decide)
  have hkey : quotient 0 1 = 0 := quotient_one (by decide)
  have hsum : compared generator (n - 1) 0 1 = 0 := by
    rw [compared, hdigest, hkey, times, if_neg (by decide), times, if_pos rfl, pred_nsmul_generator,
      neg_add_cancel]
  refine ⟨?_, ?_⟩
  · have hdigest' : (BitVec.ofNat 256 (n - 1)).toNat = n - 1 := by decide
    rw [validateSignature_eq generator_isAffine (by decide) (by decide), hdigest']
    have hx : xCoord (compared generator (n - 1) 0 1) = 0 := by
      rw [hsum]
      rfl
    exact congrArg Except.ok (decide_eq_true hx)
  · rintro ⟨Q, _, hverifies⟩
    exact absurd hverifies.r_pos (by decide)

@[reducible] def ellipticCurveLib : EllipticCurveLib := ⟨validateSignature⟩

/-- The check of a certificate's or a quote's signature, over this library. -/
theorem verifyES256Signature_agrees [Precompiles] {tbs signature publicKey : Bytes} {r s : ℕ} {Q : Point}
    (hsignature : PEMCertChainLib.SignatureForm signature r s) (hkey : publicKey.length = 64)
    (hQ : IsAffine Q (bytesN 32 (publicKey.take 32)).toNat (bytesN 32 (publicKey.drop 32)).toNat)
    (hr : r < 2 ^ 256) (hs : s < 2 ^ 256) :
    (@SigVerifyLib.verifyES256Signature _ ellipticCurveLib tbs signature publicKey = .ok true ↔
        Verifies Q (Precompiles.sha256 tbs).toNat r s) ↔
      if (bytesN 32 (publicKey.take 32)).toNat = 0 then ¬ Verifies Q (Precompiles.sha256 tbs).toNat r s
      else Unexceptional Q (Precompiles.sha256 tbs).toNat r s := by
  have hagrees := validateSignature_agrees (h := Precompiles.sha256 tbs) (r := BitVec.ofNat 256 r)
    (s := BitVec.ofNat 256 s) hQ
  rw [BitVec.toNat_ofNat, BitVec.toNat_ofNat, Nat.mod_eq_of_lt hr, Nat.mod_eq_of_lt hs] at hagrees
  rw [@PEMCertChainLib.SignatureForm.reads _ _ _ hsignature _ ellipticCurveLib tbs publicKey hkey]
  exact hagrees

end EllipticCurve

end LineaSgxProver.Verifier
