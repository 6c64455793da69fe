import LineaSgxProver.Verifier.CertSignature

namespace LineaSgxProver.Verifier.PEMCertChainLib

open Library Asn1Decode NodePtr BytesUtils

def nodeLength (der : Bytes) (ix : ℕ) : Checked (ℕ × ℕ) := do
  let lengthByte ← index der (ix + 1)
  if lengthByte &&& 0x80 = 0 then .ok (2, lengthByte.toNat)
  else do
    let length ← longLength der ix (lengthByte &&& 0x7F).toNat
    .ok (2 + (lengthByte &&& 0x7F).toNat, length)

/-- The length that an element says it has leads, in 80 bits, to a place before the element. -/
def WrapsBack (der : Bytes) (ix : ℕ) : Prop :=
  ∃ headerLength length, nodeLength der ix = .ok (headerLength, length) ∧
    (ix + headerLength + length - 1) % 2 ^ 80 < ix

section Node

variable {der : Bytes} {ix ptr ptr' : ℕ}

theorem lastContentByte_eq_ok {first length last : ℕ} (h : lastContentByte first length = .ok last) :
    last = (first + length - 1) % 2 ^ 80 := by
  unfold lastContentByte at h
  split_ifs at h
  exact (Except.ok.inj h).symm

theorem index_lt {α : Type} {a : List α} {i : ℕ} {x : α} (h : index a i = .ok x) : i < a.length :=
  (List.getElem?_eq_some_iff.mp (index_eq_ok.mp h)).1

theorem readNodeLength_eq_ok (h : readNodeLength der ix = .ok ptr) :
    ix + 1 < der.length ∧ ∃ headerLength length, nodeLength der ix = .ok (headerLength, length) ∧
      headerLength ≤ 2 ^ 8 ∧
      ptr = getPtr ix ((ix + headerLength) % 2 ^ 80) (((ix + headerLength) % 2 ^ 80 + length - 1) % 2 ^ 80) := by
  unfold readNodeLength at h
  obtain ⟨lengthByte, hbyte, h⟩ := bind_eq_ok.mp h
  refine ⟨index_lt hbyte, ?_⟩
  unfold nodeLength
  rw [hbyte, ok_bind]
  split_ifs at h ⊢ with hshort
  · obtain ⟨last, hlast, h⟩ := bind_eq_ok.mp h
    refine ⟨2, lengthByte.toNat, rfl, by decide, ?_⟩
    rw [← Except.ok.inj h, lastContentByte_eq_ok hlast]
  · obtain ⟨length, hlength, h⟩ := bind_eq_ok.mp h
    obtain ⟨last, hlast, h⟩ := bind_eq_ok.mp h
    refine ⟨2 + (lengthByte &&& 0x7F).toNat, length, by rw [hlength]; rfl, ?_, ?_⟩
    · rw [and_0x7f]
      omega
    · rw [← Nat.add_assoc, ← Except.ok.inj h, lastContentByte_eq_ok hlast]

def IsNode (der : Bytes) (ptr : ℕ) : Prop := readNodeLength der (ixs ptr) = .ok ptr

theorem ixs_readNodeLength (hder : der.length < 2 ^ 64) (h : readNodeLength der ix = .ok ptr) : ixs ptr = ix := by
  obtain ⟨hlt, headerLength, length, -, -, rfl⟩ := readNodeLength_eq_ok h
  exact ixs_getPtr (by omega) (Nat.mod_lt _ (by decide))

theorem isNode_of_read (hder : der.length < 2 ^ 64) (h : readNodeLength der ix = .ok ptr) : IsNode der ptr := by
  rw [IsNode, ixs_readNodeLength hder h]
  exact h

theorem firstChildOf_isNode (hder : der.length < 2 ^ 64) (h : firstChildOf der ptr = .ok ptr') :
    IsNode der ptr' := by
  obtain ⟨_, -, h⟩ := bind_eq_ok.mp h
  obtain ⟨_, -, h⟩ := bind_eq_ok.mp h
  exact isNode_of_read hder h

theorem forward_iff (hder : der.length < 2 ^ 64) (hnode : IsNode der ptr)
    (hnext : nextSiblingOf der ptr = .ok ptr') : ixs ptr < ixs ptr' ↔ ¬ WrapsBack der (ixs ptr) := by
  have hixs := ixs_readNodeLength hder hnext
  obtain ⟨hlt, headerLength, length, hlength, hheader, hptr⟩ := readNodeLength_eq_ok hnode
  have hmod : (ixs ptr + headerLength) % 2 ^ 80 = ixs ptr + headerLength := Nat.mod_eq_of_lt (by omega)
  have hixl : ixl ptr = (ixs ptr + headerLength + length - 1) % 2 ^ 80 := by
    conv_lhs => rw [hptr]
    rw [ixl_getPtr (by omega) (Nat.mod_lt _ (by decide)) (Nat.mod_lt _ (by decide)), hmod]
  have hwraps : WrapsBack der (ixs ptr) ↔ ixl ptr < ixs ptr := by
    rw [hixl]
    constructor
    · rintro ⟨headerLength', length', hlength', hback⟩
      rw [hlength] at hlength'
      cases hlength'
      exact hback
    · intro hback
      exact ⟨headerLength, length, hlength, hback⟩
  rw [hwraps, hixs]
  omega

/-! The passes that go on go on with the next element. -/

theorem readTcb_ptr {oid : Bytes} {oidPtr : ℕ} {s s' : EntryState} (h : readTcb der oid oidPtr s = .ok s') :
    s'.extnValuePtr = s.extnValuePtr := by
  unfold readTcb at h
  split_ifs at h
  · obtain ⟨svns, -, h⟩ := bind_eq_ok.mp h
    cases h
    rfl
  · cases h
    rfl

theorem readPceid_ptr {oid : Bytes} {oidPtr : ℕ} {s s' : EntryState} (h : readPceid der oid oidPtr s = .ok s') :
    s'.extnValuePtr = s.extnValuePtr := by
  unfold readPceid at h
  split_ifs at h
  · obtain ⟨pceidPtr, -, h⟩ := bind_eq_ok.mp h
    obtain ⟨pceidBytes, -, h⟩ := bind_eq_ok.mp h
    cases h
    rfl
  · cases h
    rfl

theorem readFmspc_ptr {oid : Bytes} {oidPtr : ℕ} {s s' : EntryState} (h : readFmspc der oid oidPtr s = .ok s') :
    s'.extnValuePtr = s.extnValuePtr := by
  unfold readFmspc at h
  split_ifs at h
  · obtain ⟨fmspcPtr, -, h⟩ := bind_eq_ok.mp h
    obtain ⟨fmspcBytes, -, h⟩ := bind_eq_ok.mp h
    cases h
    rfl
  · cases h
    rfl

theorem entryPass_continues {parent : ℕ} {s s' : EntryState} (h : Loop.Continues (entryPass der parent) s s') :
    nextSiblingOf der s.extnValuePtr = .ok s'.extnValuePtr := by
  unfold Loop.Continues entryPass at h
  split_ifs at h
  · cases h
  · obtain ⟨oidPtr, -, h⟩ := bind_eq_ok.mp h
    obtain ⟨tag, -, h⟩ := bind_eq_ok.mp h
    split_ifs at h
    · cases h
    · obtain ⟨oid, -, h⟩ := bind_eq_ok.mp h
      obtain ⟨t, htcb, h⟩ := bind_eq_ok.mp h
      obtain ⟨u, hpceid, h⟩ := bind_eq_ok.mp h
      obtain ⟨v, hfmspc, h⟩ := bind_eq_ok.mp h
      have hptr : v.extnValuePtr = s.extnValuePtr := by
        rw [readFmspc_ptr hfmspc, readPceid_ptr hpceid, readTcb_ptr htcb]
      split_ifs at h
      · obtain ⟨next, hnext, h⟩ := bind_eq_ok.mp h
        cases h
        rw [← hptr]
        exact hnext
      · cases h

/-- A pass ends without an SGX extension, finds one, or goes on. -/
theorem extensionPass_cases {parent : ℕ} {r : Pass ℕ (Option (ℕ × ℕ))} (h : extensionPass der parent ptr = .ok r) :
    r = .done none ∨
      (∃ valueParent value, r = .done (some (valueParent, value)) ∧ firstChildOf der valueParent = .ok value) ∨
        ∃ next, r = .next next ∧ nextSiblingOf der ptr = .ok next := by
  unfold extensionPass at h
  by_cases hzero : ptr = 0
  · rw [if_pos hzero] at h
    exact Or.inl (Except.ok.inj h).symm
  · rw [if_neg hzero] at h
    obtain ⟨internalPtr, -, h⟩ := bind_eq_ok.mp h
    obtain ⟨tag, -, h⟩ := bind_eq_ok.mp h
    by_cases htag : tag ≠ 0x06
    · rw [if_pos htag] at h
      exact Or.inl (Except.ok.inj h).symm
    · rw [if_neg htag] at h
      obtain ⟨oid, -, h⟩ := bind_eq_ok.mp h
      split_ifs at h
      · obtain ⟨octetPtr, -, h⟩ := bind_eq_ok.mp h
        obtain ⟨valueParent, -, h⟩ := bind_eq_ok.mp h
        obtain ⟨value, hvalue, h⟩ := bind_eq_ok.mp h
        exact Or.inr (Or.inl ⟨valueParent, value, (Except.ok.inj h).symm, hvalue⟩)
      · obtain ⟨next, hnext, h⟩ := bind_eq_ok.mp h
        exact Or.inr (Or.inr ⟨next, (Except.ok.inj h).symm, hnext⟩)
      · exact Or.inl (Except.ok.inj h).symm

theorem extensionPass_continues {parent : ℕ} (h : Loop.Continues (extensionPass der parent) ptr ptr') :
    nextSiblingOf der ptr = .ok ptr' := by
  rcases extensionPass_cases h with h | ⟨_, _, h, -⟩ | ⟨next, h, hnext⟩
  · cases h
  · cases h
  · cases h
    exact hnext

theorem extensionPass_found {parent valueParent value : ℕ}
    (h : extensionPass der parent ptr = .ok (.done (some (valueParent, value)))) :
    firstChildOf der valueParent = .ok value := by
  rcases extensionPass_cases h with h | ⟨_, _, h, hvalue⟩ | ⟨_, h, -⟩
  · cases h
  · cases h
    exact hvalue
  · cases h

theorem visits_isNode {σ ε α : Type} {pass : σ → Except ε (Pass σ α)} (place : σ → ℕ)
    (hder : der.length < 2 ^ 64)
    (hpass : ∀ t t', Loop.Continues pass t t' → nextSiblingOf der (place t) = .ok (place t')) {s s' : σ}
    (hs : IsNode der (place s)) (h : Loop.Visits pass s s') : IsNode der (place s') := by
  induction h with
  | refl => exact hs
  | tail _ hnext _ => exact isNode_of_read hder (hpass _ _ hnext)

theorem firstExtension_isNode (hder : der.length < 2 ^ 64) (h : firstExtension der ptr = .ok (some ptr')) :
    IsNode der ptr' := by
  obtain ⟨extensionsPtr, -, h⟩ := bind_eq_ok.mp h
  obtain ⟨tag, -, h⟩ := bind_eq_ok.mp h
  split_ifs at h
  · cases h
  · obtain ⟨listPtr, -, h⟩ := bind_eq_ok.mp h
    obtain ⟨first, hfirst, h⟩ := bind_eq_ok.mp h
    cases h
    exact firstChildOf_isNode hder hfirst

theorem run_isSome {σ ε α : Type} {pass : σ → Except ε (Pass σ α)} (place : σ → ℕ) {s : σ}
    (hder : der.length < 2 ^ 64) (hs : IsNode der (place s))
    (hpass : ∀ t t', Loop.Continues pass t t' → nextSiblingOf der (place t) = .ok (place t'))
    (hforward : ∀ t t', Loop.Visits pass s t → Loop.Continues pass t t' → ixs (place t) < ixs (place t')) :
    (Loop.run pass (der.length + 1) s).isSome = true := by
  apply Loop.run_isSome fun t => der.length - ixs (place t)
  · intro t t' ht hnext
    have hless := hforward t t' ht hnext
    have hlt := (readNodeLength_eq_ok (visits_isNode place hder hpass hs ht)).1
    change der.length - ixs (place t') < der.length - ixs (place t)
    omega
  · exact Nat.lt_succ_of_le (Nat.sub_le _ _)

end Node

section Claim

variable [LibString]

def ExtensionVisited (der : Bytes) (tbsPtr tbsParentPtr : ℕ) : Prop :=
  ∃ cert spkiPtr first, decodeFields der true = .ok (.fields cert spkiPtr tbsParentPtr) ∧
    firstExtension der spkiPtr = .ok (some first) ∧ Loop.Visits (extensionPass der tbsParentPtr) first tbsPtr

def EntryVisited (der : Bytes) (s : EntryState) (extnValueParentPtr : ℕ) : Prop :=
  ∃ tbsPtr tbsParentPtr extnValuePtr, ExtensionVisited der tbsPtr tbsParentPtr ∧
    extensionPass der tbsParentPtr tbsPtr = .ok (.done (some (extnValueParentPtr, extnValuePtr))) ∧
    Loop.Visits (entryPass der extnValueParentPtr) ⟨extnValuePtr, ⟨false, false, false⟩, 0, [], [], []⟩ s

/-- A pass of either loop goes on, from one element to another. -/
inductive Moves (der : Bytes) : ℕ → ℕ → Prop
  | extension {tbsPtr tbsPtr' tbsParentPtr : ℕ} (hvisited : ExtensionVisited der tbsPtr tbsParentPtr)
      (hnext : Loop.Continues (extensionPass der tbsParentPtr) tbsPtr tbsPtr') : Moves der tbsPtr tbsPtr'
  | entry {s s' : EntryState} {extnValueParentPtr : ℕ} (hvisited : EntryVisited der s extnValueParentPtr)
      (hnext : Loop.Continues (entryPass der extnValueParentPtr) s s') : Moves der s.extnValuePtr s'.extnValuePtr

/-- Every pass that goes on moves forward, and there are no more of them than there are bytes. -/
structure TraversesForward (der : Bytes) : Prop where
  forward : ∀ ptr ptr', Moves der ptr ptr' → ixs ptr < ixs ptr'
  ends : (decodeCert (der.length + 1) der true).isSome = true

variable {der : Bytes} {ptr ptr' : ℕ}

theorem ExtensionVisited.isNode {parent : ℕ} (hder : der.length < 2 ^ 64) (h : ExtensionVisited der ptr parent) :
    IsNode der ptr := by
  obtain ⟨cert, spkiPtr, first, -, hfirst, hvisits⟩ := h
  exact visits_isNode id hder (fun _ _ => extensionPass_continues) (firstExtension_isNode hder hfirst) hvisits

theorem EntryVisited.isNode {s : EntryState} {parent : ℕ} (hder : der.length < 2 ^ 64)
    (h : EntryVisited der s parent) : IsNode der s.extnValuePtr := by
  obtain ⟨tbsPtr, tbsParentPtr, extnValuePtr, -, hfound, hvisits⟩ := h
  exact visits_isNode EntryState.extnValuePtr hder (fun _ _ => entryPass_continues)
    (firstChildOf_isNode hder (extensionPass_found hfound)) hvisits

theorem Moves.forward_iff (hder : der.length < 2 ^ 64) (h : Moves der ptr ptr') :
    ixs ptr < ixs ptr' ↔ ¬ WrapsBack der (ixs ptr) := by
  cases h with
  | extension hvisited hnext =>
    exact PEMCertChainLib.forward_iff hder (hvisited.isNode hder) (extensionPass_continues hnext)
  | entry hvisited hnext =>
    exact PEMCertChainLib.forward_iff hder (hvisited.isNode hder) (entryPass_continues hnext)

theorem decodeCert_isSome (hder : der.length < 2 ^ 64) (h : ∀ ptr ptr', Moves der ptr ptr' → ixs ptr < ixs ptr') :
    (decodeCert (der.length + 1) der true).isSome = true := by
  unfold decodeCert
  cases hfields : decodeFields der true with
  | error e => rfl
  | ok decoded =>
    cases decoded with
    | refused cert => rfl
    | fields cert spkiPtr parent =>
      change (decodeExtensions (der.length + 1) der cert spkiPtr parent).isSome = true
      unfold decodeExtensions
      cases hfirst : firstExtension der spkiPtr with
      | error e => rfl
      | ok found =>
        cases found with
        | none => rfl
        | some first =>
          have hvisited : ∀ t, Loop.Visits (extensionPass der parent) first t → ExtensionVisited der t parent :=
            fun t ht => ⟨cert, spkiPtr, first, hfields, hfirst, ht⟩
          have hends := run_isSome id hder (firstExtension_isNode hder hfirst) (fun _ _ => extensionPass_continues)
            fun t t' ht hnext => h t t' (.extension (hvisited t ht) hnext)
          obtain ⟨found, hfound⟩ := Option.isSome_iff_exists.mp hends
          simp only [Option.isSome_map, findPckTcbInfo, hfound]
          cases found with
          | error e => rfl
          | ok found =>
            cases found with
            | none => rfl
            | some ptrs =>
              obtain ⟨t, ht, hdone⟩ := Loop.run_ok hfound
              exact run_isSome EntryState.extnValuePtr hder (firstChildOf_isNode hder (extensionPass_found hdone))
                (fun _ _ => entryPass_continues)
                fun u u' hu hnext => h _ _ (.entry ⟨t, parent, ptrs.2, hvisited t ht, hdone, hu⟩ hnext)

theorem traversesForward_iff (hder : der.length < 2 ^ 64) :
    TraversesForward der ↔ ∀ ptr ptr', Moves der ptr ptr' → ¬ WrapsBack der (ixs ptr) := by
  constructor
  · intro h ptr ptr' hmoves
    exact (hmoves.forward_iff hder).mp (h.forward ptr ptr' hmoves)
  · intro h
    have hforward : ∀ ptr ptr', Moves der ptr ptr' → ixs ptr < ixs ptr' :=
      fun ptr ptr' hmoves => (hmoves.forward_iff hder).mpr (h ptr ptr' hmoves)
    exact ⟨hforward, decodeCert_isSome hder hforward⟩

end Claim

section Sample

open Der

def sampleExtended (extensions : Tlv) : Bytes :=
  (sampleCertificate sampleTime sampleTime [node 0xA3 [extensions]] (signatureValue (2 ^ 247) (2 ^ 255))).bytes

def sampleExtension (last : UInt8) : Tlv := sequenceOf [⟨0x06, [0x55, 0x1D, last]⟩, ⟨0x04, []⟩]

theorem traversesForward_iff_sample :
    letI := plainLibString
    TraversesForward (sampleExtended (sequenceOf [sampleExtension 15, sampleExtension 19])) := by
  let := plainLibString
  have hder : (sampleExtended (sequenceOf [sampleExtension 15, sampleExtension 19])).length < 2 ^ 64 := by
    decide +kernel
  have hnone : ∀ ix < (sampleExtended (sequenceOf [sampleExtension 15, sampleExtension 19])).length,
      ((nodeLength (sampleExtended (sequenceOf [sampleExtension 15, sampleExtension 19])) ix).toOption.all
        fun p => decide (ix ≤ (ix + p.1 + p.2 - 1) % 2 ^ 80)) = true := by
    decide +kernel
  refine (traversesForward_iff hder).mpr ?_
  rintro ptr ptr' - ⟨headerLength, length, hlength, hback⟩
  have hlt : ixs ptr < _ := Nat.lt_of_succ_lt (index_lt (bind_eq_ok.mp hlength).choose_spec.1)
  have hforward := hnone (ixs ptr) hlt
  rw [hlength] at hforward
  exact absurd (of_decide_eq_true hforward) (Nat.not_le.mpr hback)

/-- An extension with a length of `2 ^ 80 - 12`, whose content would end just before it starts. -/
def loopingExtension : Bytes := [0x30, 0x8A] ++ List.replicate 9 0xFF ++ [0xF4, 0x06, 0x01, 0x2A]

def loopingCert : Bytes := sampleExtended ⟨0x30, loopingExtension⟩

def Decoded.ptrs : Decoded → Option (ℕ × ℕ)
  | .refused _ => none
  | .fields _ tbsPtr tbsParentPtr => some (tbsPtr, tbsParentPtr)

theorem traversesForward_fails :
    letI := plainLibString
    (∀ passes, decodeCert passes loopingCert true = none) ∧ ¬ TraversesForward loopingCert := by
  let := plainLibString
  have hptrs : (decodeFields loopingCert true).map Decoded.ptrs =
      .ok (some (getPtr 128 130 201, getPtr 4 7 220)) := by
    decide +kernel
  have hfirst : firstExtension loopingCert (getPtr 128 130 201) = .ok (some (getPtr 206 218 205)) := by
    decide +kernel
  have hpass : extensionPass loopingCert (getPtr 4 7 220) (getPtr 206 218 205) =
      .ok (.next (getPtr 206 218 205)) := by
    decide +kernel
  obtain ⟨decoded, hdecoded, hmap⟩ := map_eq_ok.mp hptrs
  have hnone : ∀ passes, decodeCert passes loopingCert true = none := by
    intro passes
    have hrun : Loop.run (extensionPass loopingCert (getPtr 4 7 220)) passes (getPtr 206 218 205) = none := by
      apply Loop.run_none (P := fun ptr => ptr = getPtr 206 218 205)
      · rintro ptr rfl
        exact ⟨_, hpass, rfl⟩
      · rfl
    cases decoded with
    | refused cert => cases hmap
    | fields cert spkiPtr parent =>
      obtain ⟨rfl, rfl⟩ := Prod.mk.inj (Option.some.inj hmap)
      simp only [decodeCert, hdecoded, if_true, decodeExtensions, hfirst, findPckTcbInfo, hrun, Option.map_none]
  refine ⟨hnone, ?_⟩
  intro h
  have hends := h.ends
  rw [hnone] at hends
  cases hends

end Sample

end LineaSgxProver.Verifier.PEMCertChainLib
