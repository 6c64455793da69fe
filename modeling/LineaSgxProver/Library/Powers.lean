import Mathlib.FieldTheory.Finite.Basic
import Mathlib.NumberTheory.LucasPrimality

namespace LineaSgxProver.Library

/-- Powers by squaring, for any product: the result starts from `acc` and takes up the squares that
the bits of the exponent choose, lowest first. -/
def powBy {α : Type} (mul : α → α → α) : ℕ → α → ℕ → α → α
  | 0, _, _, acc => acc
  | k + 1, a, n, acc => powBy mul k (mul a a) (n / 2) (if n % 2 = 1 then mul acc a else acc)

/-- Whatever turns the product into that of a monoid turns the result into a power. -/
theorem powBy_eq {α M : Type} [Monoid M] {mul : α → α → α} (f : α → M)
    (hmul : ∀ x y, f (mul x y) = f x * f y) (k : ℕ) (a : α) {n : ℕ} (hn : n < 2 ^ k) (acc : α) :
    f (powBy mul k a n acc) = f acc * f a ^ n := by
  induction k generalizing a n acc with
  | zero =>
    obtain rfl : n = 0 := by omega
    rw [powBy, pow_zero, mul_one]
  | succ k ih =>
    have hhalf : n / 2 < 2 ^ k := by omega
    have hsplit := Nat.div_add_mod n 2
    rw [powBy, ih (mul a a) hhalf, hmul, ← sq, ← pow_mul]
    rcases Nat.mod_two_eq_zero_or_one n with h | h
    · rw [if_neg (by omega)]
      congr 2
      omega
    · rw [if_pos h, hmul, mul_assoc, ← pow_succ']
      congr 2
      omega

def powMod (m k a n : ℕ) : ℕ := powBy (fun x y => x * y % m) k a n 1

theorem powMod_cast (m k a : ℕ) {n : ℕ} (hn : n < 2 ^ k) :
    (powMod m k a n : ZMod m) = (a : ZMod m) ^ n := by
  have hmul (x y : ℕ) : ((x * y % m : ℕ) : ZMod m) = (x : ZMod m) * (y : ZMod m) := by
    rw [ZMod.natCast_mod, Nat.cast_mul]
  rw [powMod, powBy_eq (fun x : ℕ => (x : ZMod m)) hmul k a hn, Nat.cast_one, one_mul]

theorem powMod_lt {m k : ℕ} (hm : 1 < m) (a n : ℕ) : powMod m k a n < m := by
  have hbound (k a n acc : ℕ) (hacc : acc < m) : powBy (fun x y => x * y % m) k a n acc < m := by
    induction k generalizing a n acc with
    | zero => exact hacc
    | succ k ih =>
      apply ih
      split_ifs
      · exact Nat.mod_lt _ (by omega)
      · exact hacc
  exact hbound k a n 1 hm

theorem powMod_eq_one_iff {p k a n : ℕ} (hp : 1 < p) (hn : n < 2 ^ k) :
    powMod p k a n = 1 ↔ (a : ZMod p) ^ n = 1 := by
  have hone : ((powMod p k a n : ℕ) : ZMod p) = ((1 : ℕ) : ZMod p) ↔ powMod p k a n = 1 := by
    rw [ZMod.natCast_eq_natCast_iff', Nat.mod_eq_of_lt (powMod_lt hp a n), Nat.mod_eq_of_lt hp]
  rw [← hone, powMod_cast p k a hn, Nat.cast_one]

/-- What the test of Lucas needs of a number: another one of order `p - 1` modulo it, and the primes of
`p - 1` with their exponents. -/
structure LucasCertificate where
  p : ℕ
  generator : ℕ
  factors : List (ℕ × ℕ)

namespace LucasCertificate

def pow (c : LucasCertificate) (n : ℕ) : ℕ := powMod c.p (c.p.log2 + 1) c.generator n

def check (c : LucasCertificate) : Bool :=
  decide (1 < c.p) && decide ((c.factors.map fun f => f.1 ^ f.2).prod = c.p - 1) &&
    decide (c.pow (c.p - 1) = 1) && c.factors.all fun f => decide (c.pow ((c.p - 1) / f.1) ≠ 1)

variable {c : LucasCertificate}

theorem pow_eq_one_iff (hp : 1 < c.p) {n : ℕ} (hn : n < c.p) :
    c.pow n = 1 ↔ (c.generator : ZMod c.p) ^ n = 1 :=
  powMod_eq_one_iff hp (hn.trans Nat.lt_log2_self)

theorem prime_mem_factors (hfactors : ∀ f ∈ c.factors, f.1.Prime)
    (hprod : (c.factors.map fun f => f.1 ^ f.2).prod = c.p - 1) {q : ℕ} (hq : q.Prime)
    (hdvd : q ∣ c.p - 1) : ∃ f ∈ c.factors, f.1 = q := by
  rw [← hprod] at hdvd
  obtain ⟨x, hx, hqx⟩ := (Prime.dvd_prod_iff hq.prime).mp hdvd
  obtain ⟨f, hf, rfl⟩ := List.mem_map.mp hx
  have hqf := hq.dvd_of_dvd_pow hqx
  exact ⟨f, hf, ((Nat.prime_dvd_prime_iff_eq hq (hfactors f hf)).mp hqf).symm⟩

theorem prime (hfactors : ∀ f ∈ c.factors, f.1.Prime) (h : c.check = true) : c.p.Prime := by
  simp only [check, Bool.and_eq_true, decide_eq_true_eq, List.all_eq_true] at h
  obtain ⟨⟨⟨hp, hprod⟩, hone⟩, hne⟩ := h
  apply lucas_primality c.p (c.generator : ZMod c.p)
  · exact (pow_eq_one_iff hp (by omega)).mp hone
  · intro q hq hdvd
    obtain ⟨f, hf, rfl⟩ := prime_mem_factors hfactors hprod hq hdvd
    have hlt : (c.p - 1) / f.1 < c.p := (Nat.div_le_self _ _).trans_lt (by omega)
    rw [ne_eq, ← pow_eq_one_iff hp hlt]
    exact hne f hf

/-- Each certificate of a chain may use the primes of those before it. -/
def checkChain : List ℕ → List LucasCertificate → Bool
  | _, [] => true
  | primes, c :: cs =>
    (c.factors.all fun f => decide (f.1 ∈ primes)) && c.check && checkChain (c.p :: primes) cs

theorem prime_of_checkChain {primes : List ℕ} {cs : List LucasCertificate}
    (hprimes : ∀ q ∈ primes, q.Prime) (h : checkChain primes cs = true) : ∀ c ∈ cs, c.p.Prime := by
  induction cs generalizing primes with
  | nil => simp
  | cons c cs ih =>
    simp only [checkChain, Bool.and_eq_true, List.all_eq_true, decide_eq_true_eq] at h
    obtain ⟨⟨hfactors, hcheck⟩, hrest⟩ := h
    have hc : c.p.Prime := prime (fun f hf => hprimes _ (hfactors f hf)) hcheck
    have hnext : ∀ q ∈ c.p :: primes, q.Prime := by
      intro q hq
      rcases List.mem_cons.mp hq with rfl | hq
      · exact hc
      · exact hprimes q hq
    intro c' hc'
    rcases List.mem_cons.mp hc' with rfl | hc'
    · exact hc
    · exact ih hnext hrest c' hc'

end LucasCertificate

/-- A power prime to the order of the units permutes a finite field. -/
theorem pow_bijective {K : Type} [Field K] [Finite K] {n : ℕ} (hn : n ≠ 0)
    (hcoprime : (Nat.card Kˣ).Coprime n) : Function.Bijective fun x : K => x ^ n := by
  apply Function.Injective.bijective_of_finite
  intro x y h
  change x ^ n = y ^ n at h
  by_cases hy : y = 0
  · rw [hy, zero_pow hn] at h
    rw [hy, pow_eq_zero_iff hn |>.mp h]
  · have hx : x ≠ 0 := by
      rintro rfl
      rw [zero_pow hn] at h
      exact hy (pow_eq_zero_iff hn |>.mp h.symm)
    have hunits : Units.mk0 x hx ^ n = Units.mk0 y hy ^ n := by
      apply Units.ext
      exact h
    exact congrArg Units.val ((powCoprime hcoprime).injective hunits)

end LineaSgxProver.Library
