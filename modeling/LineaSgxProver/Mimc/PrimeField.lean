import LineaSgxProver.Library.Powers
import LineaSgxProver.Mimc.Field

namespace LineaSgxProver.Mimc

open Library

def modulusChain : List LucasCertificate := [
  ⟨2, 1, []⟩, ⟨3, 2, [(2, 1)]⟩, ⟨5, 2, [(2, 2)]⟩, ⟨7, 3, [(2, 1), (3, 1)]⟩, ⟨13, 2, [(2, 2), (3, 1)]⟩,
    ⟨29, 2, [(2, 2), (7, 1)]⟩, ⟨41, 6, [(2, 3), (5, 1)]⟩, ⟨83, 2, [(2, 1), (41, 1)]⟩,
    ⟨167, 5, [(2, 1), (83, 1)]⟩, ⟨499, 7, [(2, 1), (3, 1), (83, 1)]⟩,
    ⟨3511, 7, [(2, 1), (3, 3), (5, 1), (13, 1)]⟩, ⟨126397, 5, [(2, 2), (3, 2), (3511, 1)]⟩,
    ⟨1832756501, 2, [(2, 2), (5, 3), (29, 1), (126397, 1)]⟩,
    ⟨49484425527001, 14, [(2, 3), (3, 3), (5, 3), (1832756501, 1)]⟩,
    ⟨958612291309063373, 2, [(2, 2), (29, 1), (167, 1), (49484425527001, 1)]⟩,
    ⟨9586122913090633729, 11, [(2, 46), (3, 1), (7, 1), (13, 1), (499, 1)]⟩,
    ⟨8444461749428370424248824938781546531375899335154063827935233455917409239041, 22, [(2, 47), (3, 1), (5, 1), (7, 1), (13, 1), (499, 1), (958612291309063373, 1), (9586122913090633729, 2)]⟩]

theorem modulus_prime : modulus.Prime := by
  have hchain : LucasCertificate.checkChain [] modulusChain = true := by decide +kernel
  have hmem : modulus ∈ modulusChain.map LucasCertificate.p := by decide
  obtain ⟨c, hc, hp⟩ := List.mem_map.mp hmem
  rw [← hp]
  exact LucasCertificate.prime_of_checkChain (by simp) hchain c hc

instance : Fact modulus.Prime := ⟨modulus_prime⟩

theorem radix_ne_zero : (radix : ZMod modulus) ≠ 0 := by
  rw [ne_eq, ZMod.natCast_eq_zero_iff]
  decide

theorem montReduce_mul_radix (t : ℕ) :
    montReduce t * radix = t + t % radix * negInverse % radix * modulus := by
  have hinverse : modulus * negInverse + 1 ≡ 0 [MOD radix] := by decide
  have hdvd : t + t % radix * negInverse % radix * modulus ≡ 0 [MOD radix] := by
    calc t + t % radix * negInverse % radix * modulus
        ≡ t + t * negInverse * modulus [MOD radix] := by
          apply Nat.ModEq.add_left
          apply Nat.ModEq.mul_right
          exact (Nat.mod_modEq _ _).trans ((Nat.mod_modEq t _).mul_right _)
      _ = t * (modulus * negInverse + 1) := by ring
      _ ≡ t * 0 [MOD radix] := hinverse.mul_left t
      _ = 0 := Nat.mul_zero t
  exact Nat.div_mul_cancel ((Nat.modEq_zero_iff_dvd).mp hdvd)

theorem reduce_cast (x : ℕ) : (reduce x : ZMod modulus) = x := by
  unfold reduce
  split_ifs with h
  · rfl
  · rw [Nat.cast_sub (not_lt.mp h), ZMod.natCast_self, sub_zero]

theorem montReduce_cast (t : ℕ) : (montReduce t : ZMod modulus) = t * (radix : ZMod modulus)⁻¹ := by
  have h := congrArg (Nat.cast (R := ZMod modulus)) (montReduce_mul_radix t)
  simp only [Nat.cast_mul, Nat.cast_add, ZMod.natCast_self, mul_zero, add_zero] at h
  rw [← h, mul_assoc, mul_inv_cancel₀ radix_ne_zero, mul_one]

theorem montMul_cast (a b : ℕ) :
    (montMul a b : ZMod modulus) = a * b * (radix : ZMod modulus)⁻¹ := by
  rw [montMul, reduce_cast, montReduce_cast, Nat.cast_mul]

namespace Fr

/-- The number that the Montgomery form stands for. -/
def value (a : Fr) : ZMod modulus := a.repr * (radix : ZMod modulus)⁻¹

theorem value_addAssign (a b : Fr) : (a.addAssign b).value = a.value + b.value := by
  rw [value, addAssign, reduce_cast, Nat.cast_add, add_mul, value, value]

theorem value_mulAssign (a b : Fr) : (a.mulAssign b).value = a.value * b.value := by
  rw [value, mulAssign, montMul_cast, value, value]
  ring

theorem value_square (a : Fr) : a.square.value = a.value ^ 2 := by
  rw [square, value_mulAssign, sq]

theorem value_injective : Function.Injective value := by
  intro a b h
  have hrepr : (a.repr : ZMod modulus) = b.repr := mul_right_cancel₀ (inv_ne_zero radix_ne_zero) h
  rw [ZMod.natCast_eq_natCast_iff', Nat.mod_eq_of_lt a.valid, Nat.mod_eq_of_lt b.valid] at hrepr
  cases a
  cases b
  simp_all

theorem value_surjective : Function.Surjective value := by
  intro x
  refine ⟨⟨(x * radix).val, ZMod.val_lt _⟩, ?_⟩
  rw [value, ZMod.natCast_zmod_val, mul_assoc, mul_inv_cancel₀ radix_ne_zero, mul_one]

theorem value_bijective : Function.Bijective value := ⟨value_injective, value_surjective⟩

end Fr

end LineaSgxProver.Mimc
