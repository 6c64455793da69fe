import LineaSgxProver.Mimc.Hash

namespace LineaSgxProver.Linea

open Library

/-- What the codec calls of the `rlp` crate. -/
structure Rlp where
  append : Bytes → Bytes → Bytes
  isNull : Bytes → Bool
  asRaw : Bytes → Bytes

namespace Rlp

/-- The string item of at most 55 bytes: a small byte stands for itself, any other string has its
length in front. -/
def item (s : Bytes) : Bytes :=
  match s with
  | [b] => if b < 0x80 then [b] else [0x81, b]
  | s => UInt8.ofNat (0x80 + s.length) :: s

theorem item_cons (b : UInt8) (rest : Bytes) :
    item (b :: rest) =
      if rest = [] ∧ b < 0x80 then [b] else UInt8.ofNat (0x81 + rest.length) :: b :: rest := by
  cases rest with
  | nil =>
    by_cases hb : b < 0x80
    · simp [item, hb]
    · simp [item, hb]
  | cons c rest =>
    have hlen : 0x80 + (b :: c :: rest).length = 0x81 + (c :: rest).length := by
      simp only [List.length_cons]
      omega
    rw [if_neg (by simp), item, hlen]
    simp

structure Documented (r : Rlp) : Prop where
  append_eq : ∀ out s, s.length ≤ 55 → r.append out s = out ++ item s
  isNull_iff : ∀ b, r.isNull b = true ↔ b = []
  asRaw_eq : ∀ b, r.asRaw b = b

end Rlp

namespace StorageValue

section Codec

variable (r : Rlp)

/-- `rlp_append`: the value without its leading zeros, and nothing for the value zero. -/
def rlpAppend (v : SH256) (out : Bytes) : Bytes :=
  match (SH256.bytes v).findIdx? (· ≠ 0) with
  | some idx => r.append out ((SH256.bytes v).drop idx)
  | none => out

def encode (v : SH256) : Bytes := rlpAppend r v []

def decode (buf : Bytes) : Except (Fault String) SH256 :=
  if r.isNull buf then .ok 0
  else
    let data := r.asRaw buf
    if data.length ≤ 32 then .ok (SH256.ofBytes (List.replicate (32 - data.length) 0 ++ data))
    else .error .panic

end Codec

theorem bytes_zeros (v : SH256) (h : ∀ b ∈ SH256.bytes v, b = 0) : v = 0 := by
  have hzeros : SH256.bytes v = List.replicate 32 0 := List.eq_replicate_iff.mpr ⟨by simp, h⟩
  have hv := congrArg SH256.ofBytes hzeros
  rw [SH256.ofBytes_bytes] at hv
  rw [hv]
  decide

theorem exists_stripped {v : SH256} (hv : v ≠ 0) :
    ∃ k b rest, (SH256.bytes v).findIdx? (· ≠ 0) = some k ∧ (SH256.bytes v).drop k = b :: rest ∧
      b ≠ 0 ∧ k + rest.length = 31 ∧ v.toNat = BigEndian.decode (b :: rest) := by
  cases hidx : (SH256.bytes v).findIdx? (· ≠ 0) with
  | none =>
    refine absurd (bytes_zeros v ?_) hv
    intro b hb
    simpa using List.findIdx?_eq_none_iff.mp hidx b hb
  | some k =>
    obtain ⟨hk, hb, hzeros⟩ := List.findIdx?_eq_some_iff_getElem.mp hidx
    have hlen : k < 32 := by simpa using hk
    have hdrop := List.drop_eq_getElem_cons hk
    refine ⟨k, (SH256.bytes v)[k], (SH256.bytes v).drop (k + 1), rfl, hdrop, by simpa using hb, ?_, ?_⟩
    · rw [List.length_drop, SH256.bytes_length]
      omega
    · rw [← hdrop]
      have htake : (SH256.bytes v).take k = List.replicate k 0 := by
        apply List.eq_replicate_iff.mpr
        refine ⟨by simp; omega, ?_⟩
        intro b hb
        obtain ⟨i, hi, rfl⟩ := List.mem_take_iff_getElem.mp hb
        simpa using hzeros i (by omega)
      calc v.toNat = BigEndian.decode (SH256.bytes v) := by
            conv_lhs => rw [← SH256.ofBytes_bytes v]
            exact SH256.ofBytes_toNat _ (by simp)
        _ = BigEndian.decode (List.replicate k 0 ++ (SH256.bytes v).drop k) := by
            rw [← htake, List.take_append_drop]
        _ = BigEndian.decode ((SH256.bytes v).drop k) := BigEndian.decode_zeros k _

theorem small_iff {n : ℕ} {b : UInt8} {rest : Bytes} (hb : b ≠ 0)
    (hn : n = BigEndian.decode (b :: rest)) : n < 128 ↔ rest = [] ∧ b < 0x80 := by
  rw [BigEndian.decode_cons] at hn
  have hpos : 0 < b.toNat := Nat.pos_of_ne_zero fun h => hb (UInt8.toNat_inj.mp h)
  have hbyte : b < 0x80 ↔ b.toNat < 128 := UInt8.lt_iff_toNat_lt
  cases rest with
  | nil =>
    have hone : n = b.toNat := by simpa [BigEndian.decode] using hn
    rw [hone, hbyte]
    simp
  | cons c rest =>
    have hbig : 256 ≤ b.toNat * 256 ^ (c :: rest).length := by
      calc 256 = 1 * 256 ^ 1 := by norm_num
        _ ≤ b.toNat * 256 ^ (c :: rest).length :=
            Nat.mul_le_mul hpos (Nat.pow_le_pow_right (by decide) (by simp))
    simp
    omega

section Hash

variable (mimcConstants : List Mimc.Fr)

theorem pad_length {buf : Bytes} (hne : buf ≠ []) (hlen : buf.length ≤ 32) :
    (Mimc.pad buf).length = 32 := by
  have hpos : 0 < buf.length := List.length_pos_iff.mpr hne
  unfold Mimc.pad Mimc.blockSize
  split_ifs with h
  · rw [List.length_append, List.length_replicate]
    omega
  · omega

theorem sum_short {buf : Bytes} (hne : buf ≠ []) (hlen : buf.length ≤ 32) :
    (Mimc.sum mimcConstants buf).isOk = true := by
  have hblock := pad_length hne hlen
  have hpad : Mimc.pad (Mimc.pad buf) = Mimc.pad buf := by
    conv_lhs => rw [Mimc.pad]
    rw [if_neg]
    rw [hblock, Mimc.blockSize]
    omega
  have hsum : Mimc.sum mimcConstants buf = Mimc.sum mimcConstants (Mimc.pad buf) := by
    unfold Mimc.sum Mimc.write
    rw [hpad]
  rw [hsum]
  apply Mimc.sum_isOk
  · exact List.ne_nil_of_length_pos (by omega)
  · exact ⟨1, hblock⟩

theorem sum_long {buf : Bytes} (hlen : buf.length = 33) :
    Mimc.sum mimcConstants buf = .error .panic := by
  have hpad : Mimc.pad buf = buf := by
    unfold Mimc.pad Mimc.blockSize
    rw [if_neg (by omega)]
  have hstarts : (List.range ((buf.length + Mimc.blockSize - 1) / Mimc.blockSize)).map
      (· * Mimc.blockSize) = [0, 32] := by
    rw [hlen]
    rfl
  obtain ⟨x, hx⟩ : ∃ x, Mimc.element buf 0 = .ok x := Mimc.element_isOk (by rw [hlen]; decide)
  have hsecond : Mimc.element buf 32 = .error .panic := if_neg (by rw [hlen]; decide)
  have hblocks : [0, 32].mapM (Mimc.element buf) = .error .panic := by
    rw [List.mapM_cons, hx, List.mapM_cons, hsecond]
    rfl
  unfold Mimc.sum Mimc.write
  simp only [hpad, hstarts, hblocks]

end Hash

section Faithful

variable {r : Rlp}

theorem encode_zero : encode r 0 = [] := by
  have hzeros : (SH256.bytes 0).findIdx? (· ≠ 0) = none := by decide +kernel
  rw [encode, rlpAppend, hzeros]

theorem encode_stripped (hr : r.Documented) {v : SH256} {k : ℕ} {b : UInt8} {rest : Bytes}
    (hidx : (SH256.bytes v).findIdx? (· ≠ 0) = some k) (hdrop : (SH256.bytes v).drop k = b :: rest)
    (hlen : k + rest.length = 31) : encode r v = Rlp.item (b :: rest) := by
  rw [encode, rlpAppend, hidx]
  change r.append [] ((SH256.bytes v).drop k) = _
  rw [hdrop, hr.append_eq [] _ (by rw [List.length_cons]; omega), List.nil_append]

theorem item_length {b : UInt8} {rest : Bytes} :
    (Rlp.item (b :: rest)).length = if rest = [] ∧ b < 0x80 then 1 else rest.length + 2 := by
  rw [Rlp.item_cons]
  split_ifs <;> rfl

theorem encode_eq_nil_iff (hr : r.Documented) (v : SH256) : encode r v = [] ↔ v = 0 := by
  constructor
  · intro h
    by_contra hv
    obtain ⟨k, b, rest, hidx, hdrop, _, hlen, _⟩ := exists_stripped hv
    rw [encode_stripped hr hidx hdrop hlen, Rlp.item_cons] at h
    split_ifs at h
  · rintro rfl
    exact encode_zero

theorem decode_eq (hr : r.Documented) {buf : Bytes} (hne : buf ≠ []) :
    decode r buf = if buf.length ≤ 32 then
      .ok (SH256.ofBytes (List.replicate (32 - buf.length) 0 ++ buf)) else .error .panic := by
  have hnull : r.isNull buf ≠ true := fun h => hne ((hr.isNull_iff buf).mp h)
  rw [decode, if_neg hnull, hr.asRaw_eq]

theorem decode_toNat {buf : Bytes} (hlen : buf.length ≤ 32) :
    (SH256.ofBytes (List.replicate (32 - buf.length) 0 ++ buf)).toNat = BigEndian.decode buf := by
  rw [SH256.ofBytes_toNat, BigEndian.decode_zeros]
  rw [List.length_append, List.length_replicate]
  omega

theorem decode_encode_iff (hr : r.Documented) {v : SH256} (hv : v ≠ 0) :
    decode r (encode r v) = .ok v ↔ v.toNat < 128 := by
  obtain ⟨k, b, rest, hidx, hdrop, hb, hlen, hnat⟩ := exists_stripped hv
  have hencode := encode_stripped hr hidx hdrop hlen
  have hne : encode r v ≠ [] := fun h => hv ((encode_eq_nil_iff hr v).mp h)
  have hitem := Rlp.item_cons b rest
  rw [decode_eq hr hne, hencode, small_iff hb hnat]
  constructor
  · intro h
    by_contra hsmall
    rw [if_neg hsmall] at hitem
    split_ifs at h with hfit
    have hread := decode_toNat hfit
    rw [Except.ok.inj h, hitem, BigEndian.decode_cons, ← hnat, List.length_cons] at hread
    have hheader : 0 < (UInt8.ofNat (0x81 + rest.length)).toNat := by
      rw [UInt8.toNat_ofNat', Nat.mod_eq_of_lt (by omega)]
      omega
    have hpos : 0 < (UInt8.ofNat (0x81 + rest.length)).toNat * 256 ^ (rest.length + 1) :=
      Nat.mul_pos hheader (by positivity)
    omega
  · intro hsmall
    rw [if_pos hsmall] at hitem
    have hfit : (Rlp.item (b :: rest)).length ≤ 32 := by
      rw [hitem, List.length_singleton]
      decide
    rw [if_pos hfit]
    congr 1
    apply BitVec.eq_of_toNat_eq
    rw [decode_toNat hfit, hitem, hnat, hsmall.1]

variable {mimcConstants : List Mimc.Fr}

theorem sum_encode_iff (hr : r.Documented) {v : SH256} (hv : v ≠ 0) :
    (Mimc.sum mimcConstants (encode r v)).isOk = true ↔ (encode r v).length ≤ 32 := by
  have hne : encode r v ≠ [] := fun h => hv ((encode_eq_nil_iff hr v).mp h)
  constructor
  · intro h
    by_contra hlong
    obtain ⟨k, b, rest, hidx, hdrop, _, hlen, _⟩ := exists_stripped hv
    have hlength : (encode r v).length = 33 := by
      rw [encode_stripped hr hidx hdrop hlen, item_length] at hlong ⊢
      split_ifs at hlong ⊢ <;> omega
    rw [sum_long mimcConstants hlength] at h
    cases h
  · exact sum_short mimcConstants hne

/-- What the trie relies on: a value is read back, the empty encoding is the value zero's own, and
any other encoding can be stored. -/
def Faithful (r : Rlp) (mimcConstants : List Mimc.Fr) (v : SH256) : Prop :=
  decode r (encode r v) = .ok v ∧ (encode r v = [] ↔ v = 0) ∧
    (v ≠ 0 → (Mimc.sum mimcConstants (encode r v)).isOk = true)

theorem faithful_iff (hr : r.Documented) (v : SH256) :
    Faithful r mimcConstants v ↔ v.toNat < 128 := by
  by_cases hv : v = 0
  · subst hv
    refine ⟨fun _ => by decide, fun _ => ⟨?_, encode_eq_nil_iff hr 0, fun h => absurd rfl h⟩⟩
    rw [encode_zero, decode, if_pos ((hr.isNull_iff []).mpr rfl)]
  · constructor
    · intro h
      exact (decode_encode_iff hr hv).mp h.1
    · intro hsmall
      refine ⟨(decode_encode_iff hr hv).mpr hsmall, encode_eq_nil_iff hr v, fun _ => ?_⟩
      rw [sum_encode_iff hr hv]
      obtain ⟨k, b, rest, hidx, hdrop, hb, hlen, hnat⟩ := exists_stripped hv
      rw [encode_stripped hr hidx hdrop hlen, item_length, if_pos ((small_iff hb hnat).mp hsmall)]
      decide

end Faithful

def rlp : Rlp := ⟨fun out s => out ++ Rlp.item s, fun b => b.isEmpty, id⟩

theorem rlp_documented : rlp.Documented :=
  ⟨fun _ _ _ => rfl, fun b => by simp [rlp], fun _ => rfl⟩

theorem faithful_iff_sample : Faithful rlp [] 5 ↔ (5 : SH256).toNat < 128 :=
  faithful_iff rlp_documented 5

theorem decode_garbled :
    decode rlp (encode rlp 128) = .ok 0x8180 ∧ ¬ Faithful rlp [] 128 := by
  have hgarbled : decode rlp (encode rlp 128) = .ok 0x8180 := by
    decide +kernel
  refine ⟨hgarbled, ?_⟩
  intro h
  rw [Faithful, hgarbled] at h
  exact absurd (Except.ok.inj h.1) (by decide)

end StorageValue

end LineaSgxProver.Linea
