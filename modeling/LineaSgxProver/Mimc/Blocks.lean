import LineaSgxProver.Mimc.Hash
import LineaSgxProver.Mimc.PrimeField

namespace LineaSgxProver.Mimc

open Library

theorem Fr.value_rSquare : Fr.rSquare.value = (radix : ZMod modulus) := by
  have hrepr : Fr.rSquare.repr ≡ radix * radix [MOD modulus] := by decide
  have hcast := (ZMod.natCast_eq_natCast_iff _ _ _).mpr hrepr
  rw [Fr.value, hcast, Nat.cast_mul, mul_assoc, mul_inv_cancel₀ radix_ne_zero, mul_one]

theorem Fr.fromBe_value {data : Bytes} {x : Fr} (h : Fr.fromBe data = .ok x) :
    x.value = (BigEndian.decode data : ZMod modulus) := by
  unfold Fr.fromBe Fr.fromRawRepr at h
  split_ifs at h
  obtain rfl := Except.ok.inj h
  have hsquare : (Fr.rSquare.repr : ZMod modulus) * (radix : ZMod modulus)⁻¹ = radix := Fr.value_rSquare
  rw [Fr.value, montMul_cast, mul_assoc _ (Fr.rSquare.repr : ZMod modulus), hsquare, mul_assoc,
    mul_inv_cancel₀ radix_ne_zero, mul_one]

theorem element_value {p : Bytes} {start : ℕ} {x : Fr} (h : element p start = .ok x) :
    x.value = (BigEndian.decode ((p.drop start).take blockSize) : ZMod modulus) := by
  unfold element at h
  split_ifs at h
  cases hbe : Fr.fromBe ((p.drop start).take blockSize) with
  | error e =>
    rw [hbe] at h
    cases h
  | ok y =>
    rw [hbe] at h
    obtain rfl := Except.ok.inj h
    exact Fr.fromBe_value hbe

theorem mapM_map_eq {α β γ ε : Type} {f : α → Except ε β} {g : β → γ} {h : α → γ}
    (hf : ∀ a b, f a = .ok b → g b = h a) {l : List α} {bs : List β} (hl : l.mapM f = .ok bs) :
    bs.map g = l.map h := by
  induction l generalizing bs with
  | nil =>
    obtain rfl := Except.ok.inj hl
    rfl
  | cons a l ih =>
    rw [List.mapM_cons] at hl
    obtain ⟨b, hb, hl⟩ := bind_eq_ok.mp hl
    obtain ⟨bs', hbs, hl⟩ := bind_eq_ok.mp hl
    obtain rfl := Except.ok.inj hl
    rw [List.map_cons, List.map_cons, hf a b hb, ih hbs]

/-- The numbers that the first `k` blocks of a message spell. -/
def blocks : ℕ → Bytes → List ℕ
  | 0, _ => []
  | k + 1, p => BigEndian.decode (p.take blockSize) :: blocks k (p.drop blockSize)

theorem blocks_eq_map (k : ℕ) (p : Bytes) :
    blocks k p =
      (List.range k).map fun i => BigEndian.decode ((p.drop (i * blockSize)).take blockSize) := by
  induction k generalizing p with
  | zero => rfl
  | succ k ih =>
    rw [blocks, ih, List.range_succ_eq_map, List.map_cons, List.map_map, Nat.zero_mul, List.drop_zero]
    congr 2
    funext i
    simp only [Function.comp_apply, List.drop_drop]
    congr 3
    unfold blockSize
    omega

theorem blocks_injective {k : ℕ} {x y : Bytes} (hx : x.length = k * blockSize)
    (hy : y.length = k * blockSize) (h : blocks k x = blocks k y) : x = y := by
  unfold blockSize at hx hy
  induction k generalizing x y with
  | zero =>
    have hxnil : x = [] := List.length_eq_zero_iff.mp (by omega)
    have hynil : y = [] := List.length_eq_zero_iff.mp (by omega)
    rw [hxnil, hynil]
  | succ k ih =>
    obtain ⟨hhead, htail⟩ := List.cons.inj h
    have hlen : (x.take blockSize).length = (y.take blockSize).length := by
      rw [List.length_take, List.length_take, hx, hy]
    have htake := BigEndian.decode_injective hlen hhead
    have hdrop : x.drop blockSize = y.drop blockSize := by
      apply ih _ _ htail
      · rw [List.length_drop, hx]
        unfold blockSize
        omega
      · rw [List.length_drop, hy]
        unfold blockSize
        omega
    rw [← List.take_append_drop blockSize x, htake, hdrop, List.take_append_drop]

/-- The elements that are written are the numbers of the blocks modulo the modulus. -/
theorem write_values {msg : Bytes} {data : List Fr} (hdvd : blockSize ∣ msg.length)
    (h : write msg = .ok data) :
    data.map Fr.value = (blocks (msg.length / blockSize) msg).map (Nat.cast (R := ZMod modulus)) := by
  have hpad : pad msg = msg := by
    unfold pad
    rw [if_neg]
    rintro ⟨hpos, hlt⟩
    exact absurd (Nat.le_of_dvd hpos hdvd) (by omega)
  have hcount : (msg.length + blockSize - 1) / blockSize = msg.length / blockSize := by
    obtain ⟨k, hk⟩ := hdvd
    unfold blockSize at *
    omega
  unfold write at h
  simp only [hpad, hcount] at h
  cases hmap : ((List.range (msg.length / blockSize)).map (· * blockSize)).mapM (element msg) with
  | error e =>
    rw [hmap] at h
    cases h
  | ok data' =>
    rw [hmap] at h
    change (if _ then _ else _) = _ at h
    split_ifs at h
    obtain rfl := Except.ok.inj h
    rw [mapM_map_eq (fun a b hab => element_value hab) hmap, blocks_eq_map, List.map_map, List.map_map]
    rfl

/-- Block for block the two messages spell the same number modulo the modulus. -/
def SameResidues (x y : Bytes) : Prop :=
  List.Forall₂ (· ≡ · [MOD modulus]) (blocks (x.length / blockSize) x) (blocks (y.length / blockSize) y)

def Canonical (msg : Bytes) : Prop := ∀ n ∈ blocks (msg.length / blockSize) msg, n < modulus

theorem map_cast_eq_iff (ms ns : List ℕ) :
    ms.map (Nat.cast (R := ZMod modulus)) = ns.map Nat.cast ↔
      List.Forall₂ (· ≡ · [MOD modulus]) ms ns := by
  have hrel : (fun m n : ℕ => (m : ZMod modulus) = n) = (· ≡ · [MOD modulus]) := by
    funext m n
    exact propext (ZMod.natCast_eq_natCast_iff m n modulus)
  rw [← hrel, ← List.forall₂_eq_eq_eq, List.forall₂_map_left_iff, List.forall₂_map_right_iff]

theorem eq_of_residues {ms ns : List ℕ} (h : List.Forall₂ (· ≡ · [MOD modulus]) ms ns)
    (hms : ∀ m ∈ ms, m < modulus) (hns : ∀ n ∈ ns, n < modulus) : ms = ns := by
  induction h with
  | nil => rfl
  | cons hmod _ ih =>
    rw [List.forall_mem_cons] at hms hns
    rw [hmod.eq_of_lt_of_lt hms.1 hns.1, ih hms.2 hns.2]

section Sum

variable (mimcConstants : List Fr) {x y : Bytes}

theorem exists_write (h : (sum mimcConstants x).isOk = true) : ∃ data, write x = .ok data := by
  unfold sum at h
  cases hw : write x with
  | ok data => exact ⟨data, rfl⟩
  | error e =>
    rw [hw] at h
    cases h

theorem same_elements_iff (hx : blockSize ∣ x.length) (hy : blockSize ∣ y.length)
    (hsx : (sum mimcConstants x).isOk = true) (hsy : (sum mimcConstants y).isOk = true) :
    (∃ data, write x = .ok data ∧ write y = .ok data) ↔ SameResidues x y := by
  obtain ⟨dx, hdx⟩ := exists_write mimcConstants hsx
  obtain ⟨dy, hdy⟩ := exists_write mimcConstants hsy
  rw [SameResidues, ← map_cast_eq_iff, ← write_values hx hdx, ← write_values hy hdy,
    (List.map_injective_iff.mpr Fr.value_injective).eq_iff]
  constructor
  · rintro ⟨data, hdata, hdata'⟩
    exact (Except.ok.inj (hdx.symm.trans hdata)).trans (Except.ok.inj (hdata'.symm.trans hdy))
  · rintro rfl
    exact ⟨dx, hdx, hdy⟩

theorem SameResidues.eq_of_canonical (hx : blockSize ∣ x.length) (hy : blockSize ∣ y.length)
    (h : SameResidues x y) (hcx : Canonical x) (hcy : Canonical y) : x = y := by
  have hblocks := eq_of_residues h hcx hcy
  have hcount : x.length / blockSize = y.length / blockSize := by
    have hlen := List.Forall₂.length_eq h
    simpa [blocks_eq_map] using hlen
  rw [← hcount] at hblocks
  apply blocks_injective _ _ hblocks
  · exact (Nat.div_mul_cancel hx).symm
  · rw [hcount, Nat.div_mul_cancel hy]

theorem block_refused_iff {b : Bytes} (hb : b.length = blockSize) :
    (¬ BigEndian.decode b < modulus → (Fr.fromBe b).isOk = false) ↔ BigEndian.decode b < modulus := by
  have hok : (Fr.fromBe b).isOk = true := Fr.fromBe_isOk hb
  constructor
  · intro h
    by_contra hlt
    rw [h hlt] at hok
    cases hok
  · intro hlt h
    exact absurd hlt h

/-- No block is refused, so two messages are the same elements when their blocks agree modulo the
modulus; of the canonical ones no two are. -/
theorem write_injective_iff (hx : blockSize ∣ x.length) (hy : blockSize ∣ y.length)
    (hsx : (sum mimcConstants x).isOk = true) (hsy : (sum mimcConstants y).isOk = true) :
    (((∃ data, write x = .ok data ∧ write y = .ok data) → x = y) ↔ x = y ∨ ¬ SameResidues x y) ∧
      (Canonical x → Canonical y → (∃ data, write x = .ok data ∧ write y = .ok data) → x = y) ∧
      ∀ b : Bytes, b.length = blockSize →
        ((¬ BigEndian.decode b < modulus → (Fr.fromBe b).isOk = false) ↔
          BigEndian.decode b < modulus) := by
  rw [same_elements_iff mimcConstants hx hy hsx hsy]
  refine ⟨?_, ?_, fun b hb => block_refused_iff hb⟩
  · rw [imp_iff_or_not]
  · intro hcx hcy h
    exact h.eq_of_canonical hx hy hcx hcy

end Sum

theorem blockSize_dvd_encode (n : ℕ) : blockSize ∣ (BigEndian.encode 32 n).length := by
  rw [BigEndian.encode_length]
  exact dvd_refl 32

theorem sum_encode_isOk (mimcConstants : List Fr) (n : ℕ) :
    (sum mimcConstants (BigEndian.encode 32 n)).isOk = true := by
  apply sum_isOk
  · apply List.ne_nil_of_length_pos
    rw [BigEndian.encode_length]
    decide
  · exact blockSize_dvd_encode n

theorem write_injective_sample :
    BigEndian.encode 32 0 ≠ BigEndian.encode 32 1 ∧
      ¬ ∃ data, write (BigEndian.encode 32 0) = .ok data ∧ write (BigEndian.encode 32 1) = .ok data := by
  have hne : BigEndian.encode 32 0 ≠ BigEndian.encode 32 1 := by decide
  refine ⟨hne, ?_⟩
  intro hdata
  apply hne
  apply (write_injective_iff [] (blockSize_dvd_encode 0) (blockSize_dvd_encode 1) (sum_encode_isOk [] 0)
    (sum_encode_isOk [] 1)).1.mpr _ hdata
  right
  intro h
  have hblock := (List.forall₂_cons.mp h).1
  exact absurd hblock (by decide)

/-- The bytes of the modulus are accepted, and hash as those of zero do. -/
theorem modulus_hashes_as_zero :
    BigEndian.encode 32 0 ≠ BigEndian.encode 32 modulus ∧
      (∃ data, write (BigEndian.encode 32 0) = .ok data ∧
        write (BigEndian.encode 32 modulus) = .ok data) ∧
      ∀ mimcConstants, (sum mimcConstants (BigEndian.encode 32 modulus)).isOk = true ∧
        sum mimcConstants (BigEndian.encode 32 0) = sum mimcConstants (BigEndian.encode 32 modulus) := by
  have hresidues : SameResidues (BigEndian.encode 32 0) (BigEndian.encode 32 modulus) :=
    List.Forall₂.cons (by decide) List.Forall₂.nil
  obtain ⟨data, hzero, hmodulus⟩ := (same_elements_iff [] (blockSize_dvd_encode 0)
    (blockSize_dvd_encode modulus) (sum_encode_isOk [] 0) (sum_encode_isOk [] modulus)).mpr hresidues
  refine ⟨by decide, ⟨data, hzero, hmodulus⟩, ?_⟩
  intro mimcConstants
  refine ⟨sum_encode_isOk mimcConstants modulus, ?_⟩
  unfold sum
  rw [hzero, hmodulus]

end LineaSgxProver.Mimc
