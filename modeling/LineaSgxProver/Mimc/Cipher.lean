import LineaSgxProver.Mimc.Hash
import LineaSgxProver.Mimc.PrimeField

namespace LineaSgxProver.Mimc

open Library

theorem pow_seventeen_bijective : Function.Bijective fun x : ZMod modulus => x ^ 17 := by
  apply pow_bijective (by decide)
  rw [Nat.card_eq_fintype_card, ZMod.card_units]
  decide +kernel

/-- One round of the cipher: four squarings and a product. -/
def round (hash m c : Fr) : Fr :=
  let tmp := (hash.addAssign m).addAssign c
  tmp.square.square.square.square.mulAssign tmp

theorem encrypt_eq (mimcConstants : List Fr) (hash m : Fr) :
    encrypt mimcConstants hash m = (mimcConstants.foldl (round hash) m).addAssign hash := rfl

theorem value_round (hash m c : Fr) :
    (round hash m c).value = (hash.value + m.value + c.value) ^ 17 := by
  rw [round, Fr.value_mulAssign]
  simp only [Fr.value_square, Fr.value_addAssign]
  ring

theorem round_bijective (hash c : Fr) : Function.Bijective fun m => round hash m c := by
  rw [← Function.Bijective.of_comp_iff' Fr.value_bijective]
  have hvalue : Fr.value ∘ (fun m => round hash m c) =
      (fun x => x ^ 17) ∘ (fun x => hash.value + x + c.value) ∘ Fr.value := by
    funext m
    exact value_round hash m c
  rw [hvalue]
  apply pow_seventeen_bijective.comp
  apply Function.Bijective.comp _ Fr.value_bijective
  exact ((Equiv.addRight c.value).bijective).comp (Equiv.addLeft hash.value).bijective

theorem foldl_round_bijective (mimcConstants : List Fr) (hash : Fr) :
    Function.Bijective fun m => mimcConstants.foldl (round hash) m := by
  induction mimcConstants with
  | nil => exact Function.bijective_id
  | cons c cs ih => exact ih.comp (round_bijective hash c)

theorem addAssign_bijective (hash : Fr) : Function.Bijective fun m : Fr => m.addAssign hash := by
  rw [← Function.Bijective.of_comp_iff' Fr.value_bijective]
  have hvalue : Fr.value ∘ (fun m => m.addAssign hash) = (fun x => x + hash.value) ∘ Fr.value := by
    funext m
    exact Fr.value_addAssign m hash
  rw [hvalue]
  exact (Equiv.addRight hash.value).bijective.comp Fr.value_bijective

/-- The cipher permutes the field, whatever the state and the round constants. -/
theorem encrypt_bijective (mimcConstants : List Fr) (hash : Fr) :
    Function.Bijective (encrypt mimcConstants hash) := by
  have hencrypt : encrypt mimcConstants hash =
      (fun m => m.addAssign hash) ∘ fun m => mimcConstants.foldl (round hash) m := by
    funext m
    exact encrypt_eq mimcConstants hash m
  rw [hencrypt]
  exact (addAssign_bijective hash).comp (foldl_round_bijective mimcConstants hash)

end LineaSgxProver.Mimc
