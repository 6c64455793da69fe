import LineaSgxProver.Verifier.Certificate

namespace LineaSgxProver.Verifier

open Library Der Asn1Decode NodePtr X509DateUtils

class EllipticCurveLib where
  validateSignature : SU256 → SU256 → SU256 → SU256 → SU256 → Checked Bool

namespace SigVerifyLib

variable [Precompiles] [EllipticCurveLib]

def verifyES256Signature (tbs signature publicKey : Bytes) : Checked Bool :=
  if signature.length ≠ 64 then .ok false
  else do
    let r ← bytesN 32 <$> substring signature 0 32
    let s ← bytesN 32 <$> substring signature 32 32
    if publicKey.length ≠ 64 then .ok false
    else do
      let gx ← bytesN 32 <$> substring publicKey 0 32
      let gy ← bytesN 32 <$> substring publicKey 32 32
      EllipticCurveLib.validateSignature (Precompiles.sha256 tbs) gx gy r s

end SigVerifyLib

namespace PEMCertChainLib

def signatureValue (r s : ℕ) : Tlv := ⟨0x03, 0x00 :: (sequenceOf [integer r, integer s]).bytes⟩

def trimmed (n : ℕ) : Bytes := BigEndian.encode (min (integerWidth n) 32) n

section Signature

variable {der : Bytes} {tbs signatureAlgorithm : Tlv} {r s n : ℕ}

theorem trimBytes_integer (hn : n < 2 ^ 256) : trimBytes (integer n).content 32 = .ok (trimmed n) := by
  have hwidth : integerWidth n ≤ 33 := (integerWidth_le_iff n (by decide)).mpr (by omega)
  have hlen : (integer n).content.length = integerWidth n := BigEndian.encode_length _ _
  unfold trimBytes trimmed
  rw [hlen]
  split_ifs with h
  · rw [Nat.min_eq_left h]
    rfl
  · have h33 : integerWidth n = 1 + 32 := by omega
    have hcontent : (integer n).content = BigEndian.encode (1 + 32) n := by rw [← h33]; rfl
    rw [h33, hcontent, substring_of_le (by rw [BigEndian.encode_length])]
    have hdrop : (BigEndian.encode (1 + 32) n).drop (1 + 32 - 32) = BigEndian.encode 32 n :=
      BigEndian.drop_encode 1 32 n
    rw [hdrop, List.take_of_length_le (by rw [BigEndian.encode_length])]
    rfl

theorem integer_bytes_length (hn : n < 2 ^ 256) : (integer n).bytes.length ≤ 35 := by
  have hwidth : integerWidth n ≤ 33 := (integerWidth_le_iff n (by decide)).mpr (by omega)
  have hlen : (integer n).content.length = integerWidth n := BigEndian.encode_length _ _
  have hheader : (integer n).headerLength = 2 := by
    rw [Tlv.headerLength, lengthOctets, if_pos (by omega)]
    rfl
  rw [Tlv.bytes_length, hheader, hlen]
  omega

theorem sequenceOf_headerLength (hr : r < 2 ^ 256) (hs : s < 2 ^ 256) :
    (sequenceOf [integer r, integer s]).headerLength = 2 ∧ (signatureValue r s).headerLength = 2 := by
  have hr' := integer_bytes_length hr
  have hs' := integer_bytes_length hs
  have hcontent : (sequenceOf [integer r, integer s]).content.length ≤ 70 := by
    simp only [sequenceOf, node, encodeAll_cons, encodeAll_nil, List.append_nil, List.length_append]
    omega
  have hheader : (sequenceOf [integer r, integer s]).headerLength = 2 := by
    rw [Tlv.headerLength, lengthOctets, if_pos (by omega)]
    rfl
  refine ⟨hheader, ?_⟩
  have hlen := (sequenceOf [integer r, integer s]).bytes_length
  have hshort : (signatureValue r s).content.length < 128 := by
    rw [signatureValue, List.length_cons]
    omega
  rw [Tlv.headerLength, lengthOctets, if_pos hshort]
  rfl

theorem decodeSignature_eq {ptr stop : ℕ} (hder : der.length < 2 ^ 64) (hr : r < 2 ^ 256) (hs : s < 2 ^ 256)
    (h : Points der ptr tbs [signatureAlgorithm, signatureValue r s] stop) :
    decodeSignature der ptr = .ok (trimmed r ++ trimmed s) := by
  obtain ⟨algorithmPtr, halgorithm, h⟩ := h.next hder
  obtain ⟨bitsPtr, hbits, h⟩ := h.next hder
  obtain ⟨hseq, hbit⟩ := sequenceOf_headerLength hr hs
  have hskip : Points der (getPtr (ixs bitsPtr + 3) (ixf bitsPtr + 3) (ixl bitsPtr))
      (sequenceOf [integer r, integer s]) [] stop := by
    obtain ⟨ix, hholds, rfl, rfl⟩ := h
    have ht := (Holds.append_iff.mp hholds).1
    have hlast := ixl_tlvPtr hder ht
    have hsplit : (signatureValue r s).bytes =
        (0x03 :: lengthOctets (0x00 :: (sequenceOf [integer r, integer s]).bytes).length ++ [0x00]) ++
          (sequenceOf [integer r, integer s]).bytes := by
      simp [Tlv.bytes, signatureValue]
    have hthree : (0x03 :: lengthOctets (0x00 :: (sequenceOf [integer r, integer s]).bytes).length ++ [0x00]).length =
        3 := by
      have hheader : 1 + (lengthOctets (0x00 :: (sequenceOf [integer r, integer s]).bytes).length).length = 2 := hbit
      rw [List.length_append, List.length_cons, List.length_singleton]
      omega
    have hbytes : (signatureValue r s).bytes.length = 3 + (sequenceOf [integer r, integer s]).bytes.length := by
      rw [hsplit, List.length_append, hthree]
    have hinside : Holds der (ix + 3) (sequenceOf [integer r, integer s]).bytes := by
      rw [hsplit, Holds.append_iff, hthree] at ht
      exact ht.2
    have hixl : ixl (tlvPtr ix (signatureValue r s)) =
        ix + 3 + (sequenceOf [integer r, integer s]).bytes.length - 1 := by
      omega
    refine ⟨ix + 3, by simpa using hinside, ?_, ?_⟩
    · rw [ixs_tlvPtr hder ht, ixf_tlvPtr hder ht, hbit, hixl, tlvPtr, hseq]
    · simp only [encodeAll_cons, encodeAll_nil, List.append_nil, hbytes]
      omega
  obtain ⟨rPtr, hrPtr, hrPoints⟩ := hskip.child hder (sequenceOf_constructed _) rfl
  obtain ⟨sPtr, hsPtr, hsPoints⟩ := hrPoints.next hder
  rw [decodeSignature]
  simp only [halgorithm, hbits, hrPtr, hrPoints.bytesAt_eq hder, trimBytes_integer hr, hsPtr,
    hsPoints.bytesAt_eq hder, trimBytes_integer hs, ok_bind]

theorem trimBytes_ok (input : Bytes) (expectedLength : ℕ) :
    ∃ output, trimBytes input expectedLength = .ok output := by
  unfold trimBytes
  split_ifs with h
  · exact ⟨input, rfl⟩
  · exact ⟨_, substring_of_le (by omega)⟩

theorem trimmed_length (n : ℕ) : (trimmed n).length = min (integerWidth n) 32 := BigEndian.encode_length _ _

theorem le_integerWidth_iff (n : ℕ) : 32 ≤ integerWidth n ↔ 2 ^ 247 ≤ n := by
  have h := integerWidth_le_iff n (show 0 < 31 by decide)
  omega

theorem trimmed_append_iff (r s : ℕ) :
    trimmed r ++ trimmed s = BigEndian.encode 32 r ++ BigEndian.encode 32 s ↔ 2 ^ 247 ≤ r ∧ 2 ^ 247 ≤ s := by
  rw [← le_integerWidth_iff, ← le_integerWidth_iff]
  constructor
  · intro h
    have hlen := congrArg List.length h
    rw [List.length_append, List.length_append, trimmed_length, trimmed_length, BigEndian.encode_length,
      BigEndian.encode_length] at hlen
    omega
  · rintro ⟨hr, hs⟩
    rw [trimmed, trimmed, Nat.min_eq_right hr, Nat.min_eq_right hs]

end Signature

section Claim

variable [LibString]

/-- A signature of 64 bytes, from which the verifier reads these two numbers. -/
structure SignatureForm (signature : Bytes) (r s : ℕ) : Prop where
  bytes : signature = BigEndian.encode 32 r ++ BigEndian.encode 32 s
  reads : ∀ [Precompiles] [EllipticCurveLib] (tbs publicKey : Bytes), publicKey.length = 64 →
    SigVerifyLib.verifyES256Signature tbs signature publicKey =
      EllipticCurveLib.validateSignature (Precompiles.sha256 tbs) (bytesN 32 (publicKey.take 32))
        (bytesN 32 (publicKey.drop 32)) (BitVec.ofNat 256 r) (BitVec.ofNat 256 s)

omit [LibString] in
theorem signatureForm_of_bytes {signature : Bytes} {r s : ℕ} (hr : r < 2 ^ 256) (hs : s < 2 ^ 256)
    (h : signature = BigEndian.encode 32 r ++ BigEndian.encode 32 s) : SignatureForm signature r s := by
  refine ⟨h, ?_⟩
  intro _ _ tbs publicKey hkey
  have hlen : signature.length = 64 := by
    rw [h, List.length_append, BigEndian.encode_length, BigEndian.encode_length]
  have hfirst : (signature.drop 0).take 32 = BigEndian.encode 32 r := by
    rw [h]
    exact List.take_left' (BigEndian.encode_length 32 r)
  have hsecond : (signature.drop 32).take 32 = BigEndian.encode 32 s := by
    rw [h, List.drop_left' (BigEndian.encode_length 32 r)]
    exact List.take_of_length_le (by rw [BigEndian.encode_length])
  have hrWord : bytesN 32 (BigEndian.encode 32 r) = BitVec.ofNat 256 r := by
    rw [bytesN, BigEndian.decode_encode 32 r hr]
  have hsWord : bytesN 32 (BigEndian.encode 32 s) = BitVec.ofNat 256 s := by
    rw [bytesN, BigEndian.decode_encode 32 s hs]
  have hgy : (publicKey.drop 32).take 32 = publicKey.drop 32 := by
    apply List.take_of_length_le
    rw [List.length_drop]
    omega
  unfold SigVerifyLib.verifyES256Signature
  rw [if_neg (by omega), substring_of_le (by omega), map_ok, ok_bind, substring_of_le (by omega), map_ok, ok_bind,
    if_neg (by omega), substring_of_le (by omega), map_ok, ok_bind, substring_of_le (by omega), map_ok, ok_bind,
    hfirst, hsecond, hrWord, hsWord, hgy]
  rfl

/-- The tbsCertificate and the subjectPublicKeyInfo. -/
def keyPtrs (der : Bytes) : Checked (ℕ × ℕ) := do
  let (tbsParentPtr, tbsPtr) ← validityPtrs der
  let tbsPtr ← nextSiblingOf der tbsPtr
  let tbsPtr ← nextSiblingOf der tbsPtr
  .ok (tbsParentPtr, tbsPtr)

/-- Behind the public key stand extensions, in which the fields of the SGX extension are found. -/
def TcbInfoFound (der : Bytes) : Prop :=
  ∃ tbsParentPtr keyPtr tbsPtr passes info, keyPtrs der = .ok (tbsParentPtr, keyPtr) ∧
    firstExtension der keyPtr = .ok (some tbsPtr) ∧
    findPckTcbInfo passes der tbsPtr tbsParentPtr = some (.ok info) ∧ info.success = true

/-- The fields of a certificate other than its signature are such that it is decoded. -/
structure FieldsDecode (t : Certificate) (isPckCert : Bool) : Prop where
  version : t.version.isSome = true
  notBefore : t.notBefore.tag ≠ 0x18 ∧ ∃ time, toTimestamp t.notBefore.content = .ok time
  notAfter : IsTime t.notAfter ∧ ∃ time, toTimestamp t.notAfter.content = .ok time
  issuerName : isPckCert = true → LibString.eq t.issuer.value.content pckIssuerName = true
  commonName : isPckCert = true → LibString.eq t.subjectValue.content pckCommonName = true
  extensions : isPckCert = true → TcbInfoFound t.bytes

def SignatureDecodes (t : Certificate) (isPckCert : Bool) (r s : ℕ) : Prop :=
  ∃ passes cert, decodeCert passes t.bytes isPckCert = some (.ok (true, cert)) ∧ SignatureForm cert.signature r s

variable {t : Certificate} {isPckCert : Bool} {r s : ℕ}

theorem decodeFields_keyPtrs {cert : ECSha256Certificate} {parent keyPtr : ℕ}
    (h : decodeFields t.bytes isPckCert = .ok (.fields cert keyPtr parent)) :
    keyPtrs t.bytes = .ok (parent, keyPtr) := by
  obtain ⟨ptr, _, _, hptrs, -, -, -, -, htwo⟩ := decodeFields_fields h
  obtain ⟨subjectPtr, hsubject, hkey⟩ := bind_eq_ok.mp htwo
  rw [keyPtrs, hptrs]
  simp only [hsubject, hkey, ok_bind]

theorem decodeFields_signature (hder : t.bytes.length < 2 ^ 64) (hsignature : t.signature = signatureValue r s)
    (hr : r < 2 ^ 256) (hs : s < 2 ^ 256) {cert : ECSha256Certificate} {parent keyPtr : ℕ}
    (h : decodeFields t.bytes isPckCert = .ok (.fields cert keyPtr parent)) :
    cert.signature = trimmed r ++ trimmed s := by
  obtain ⟨ptr, _, _, hptrs, hvalidity, -, -, hdecoded, -⟩ := decodeFields_fields h
  have hread : ∀ w : Walk t.bytes, (∃ stop, Points t.bytes w.parent t.tbs
      [sequenceOf t.signatureAlgorithm, t.signature] stop) → cert.signature = trimmed r ++ trimmed s := by
    rintro w ⟨stop, hpoints⟩
    obtain ⟨rfl, -⟩ := Prod.mk.inj (Except.ok.inj (w.validityPtrs_eq.symm.trans hptrs))
    rw [hsignature] at hpoints
    exact Except.ok.inj (hdecoded.symm.trans (decodeSignature_eq hder hr hs hpoints))
  cases hversion : t.version with
  | none =>
    obtain ⟨w, hparent, -⟩ := Certificate.walk_of_none hder hversion
    exact hread w hparent
  | some v =>
    obtain ⟨w, hparent, -⟩ := Certificate.walk hder (by rw [hversion]; rfl)
    exact hread w hparent

theorem version_of_fields (hder : t.bytes.length < 2 ^ 64) {cert : ECSha256Certificate} {parent keyPtr : ℕ}
    (h : decodeFields t.bytes isPckCert = .ok (.fields cert keyPtr parent)) : t.version.isSome = true := by
  by_contra hnone
  obtain ⟨w, hrefused⟩ := Certificate.decodeValidity_subject hder (Option.not_isSome_iff_eq_none.mp hnone)
  obtain ⟨ptr, _, _, hptrs, hvalidity, -⟩ := decodeFields_fields h
  obtain ⟨-, rfl⟩ := Prod.mk.inj (Except.ok.inj (w.validityPtrs_eq.symm.trans hptrs))
  rw [hrefused] at hvalidity
  cases hvalidity

omit [LibString] in
theorem decodeKey_ok (hder : t.bytes.length < 2 ^ 64) {keyPtr parent stop stop' : ℕ} {us vs : List Tlv}
    (hkey : Points t.bytes keyPtr t.publicKeyInfo us stop) (hparent : Points t.bytes parent t.tbs vs stop')
    {signature : Bytes} (hsignature : decodeSignature t.bytes parent = .ok signature) :
    ∃ pubKey, decodeKey t.bytes keyPtr parent = .ok (t.tbs.bytes, pubKey, signature) := by
  obtain ⟨algorithmPtr, halgorithm, hpoints⟩ := hkey.child hder (sequenceOf_constructed _) rfl
  obtain ⟨publicKeyPtr, hpublicKey, hpoints⟩ := hpoints.next hder
  obtain ⟨pubKey, htrim⟩ := trimBytes_ok t.publicKey.content 64
  refine ⟨pubKey, ?_⟩
  rw [decodeKey]
  simp only [halgorithm, hpublicKey, hsignature, hparent.allBytesAt_eq hder, hpoints.bytesAt_eq hder, htrim, ok_bind]

theorem decodeFields_iff (hder : t.bytes.length < 2 ^ 64) (hsignature : t.signature = signatureValue r s)
    (hr : r < 2 ^ 256) (hs : s < 2 ^ 256) :
    (∃ cert keyPtr parent, decodeFields t.bytes isPckCert = .ok (.fields cert keyPtr parent)) ↔
      t.version.isSome = true ∧
        ((t.notBefore.tag ≠ 0x18 ∧ ∃ time, toTimestamp t.notBefore.content = .ok time) ∧
          IsTime t.notAfter ∧ ∃ time, toTimestamp t.notAfter.content = .ok time) ∧
        (isPckCert = true → LibString.eq t.issuer.value.content pckIssuerName = true) ∧
        (isPckCert = true → LibString.eq t.subjectValue.content pckCommonName = true) := by
  constructor
  · rintro ⟨cert, keyPtr, parent, h⟩
    have hversion := version_of_fields hder h
    obtain ⟨w, -, hissuer, hpoints⟩ := Certificate.walk hder hversion
    obtain ⟨ptr, notBefore, notAfter, hptrs, hvalidity, -⟩ := decodeFields_fields h
    obtain ⟨-, rfl⟩ := Prod.mk.inj (Except.ok.inj (w.validityPtrs_eq.symm.trans hptrs))
    obtain ⟨hissuerName, subjectPtr, name, hsubjectPtr, hcommonName⟩ := w.fields_names h
    obtain ⟨subjectPtr', hsubject, hsubjectPoints⟩ := hpoints.next hder
    obtain rfl := Except.ok.inj (hsubject.symm.trans hsubjectPtr)
    exact ⟨hversion, (decodeValidity_some_iff hder hpoints).mp ⟨_, hvalidity⟩, (pckName_iff hissuer _ _).mp hissuerName,
      (pckName_iff (Certificate.subject_nameValue hder hsubjectPoints) _ _).mp ⟨name, hcommonName⟩⟩
  · rintro ⟨hversion, htimes, hissuerName, hcommonName⟩
    obtain ⟨w, ⟨stop, hparent⟩, hissuer, hpoints⟩ := Certificate.walk hder hversion
    obtain ⟨⟨notBefore, notAfter⟩, hvalidity⟩ := (decodeValidity_some_iff hder hpoints).mpr htimes
    obtain ⟨subjectPtr, hsubject, hsubjectPoints⟩ := hpoints.next hder
    obtain ⟨keyPtr, hkeyPtr, hkeyPoints⟩ := hsubjectPoints.next hder
    obtain ⟨issuerName, hissuerName⟩ := (pckName_iff hissuer _ _).mpr hissuerName
    obtain ⟨commonName, hcommonName⟩ :=
      (pckName_iff (Certificate.subject_nameValue hder hsubjectPoints) _ _).mpr hcommonName
    have hread := hparent
    rw [hsignature] at hread
    obtain ⟨pubKey, hkey⟩ := decodeKey_ok hder hkeyPoints hparent (decodeSignature_eq hder hr hs hread)
    rw [w.decodeFields_eq, hissuerName]
    simp only [decodeFromValidity, hvalidity, hsubject, hcommonName, hkeyPtr, hkey, ok_bind, Bool.not_true]
    exact ⟨_, _, _, rfl⟩

theorem decodeExtensions_success_iff {der : Bytes} {cert : ECSha256Certificate} {keyPtr parent : ℕ} :
    (∃ passes c, decodeExtensions passes der cert keyPtr parent = some (.ok (true, c))) ↔
      ∃ tbsPtr passes info, firstExtension der keyPtr = .ok (some tbsPtr) ∧
        findPckTcbInfo passes der tbsPtr parent = some (.ok info) ∧ info.success = true := by
  unfold decodeExtensions
  cases hfirst : firstExtension der keyPtr with
  | error e => simp
  | ok first =>
    cases first with
    | none => simp
    | some tbsPtr =>
      constructor
      · rintro ⟨passes, c, h⟩
        obtain ⟨found, hfound, hmap⟩ := Option.map_eq_some_iff.mp h
        obtain ⟨info, rfl, hinfo⟩ := map_eq_ok.mp hmap
        refine ⟨tbsPtr, passes, info, rfl, hfound, ?_⟩
        by_contra hfail
        rw [withTcbInfo, if_pos (by simpa using hfail)] at hinfo
        cases hinfo
      · rintro ⟨tbsPtr', passes, info, hptr, hfound, hsuccess⟩
        obtain rfl := Option.some.inj (Except.ok.inj hptr)
        have hpass : withTcbInfo cert info = (true, (withTcbInfo cert info).2) := by
          rw [withTcbInfo, if_neg (by simpa using hsuccess)]
        refine ⟨passes, (withTcbInfo cert info).2, ?_⟩
        simp only [hfound, Option.map_some, Except.map]
        rw [← hpass]

theorem decodeCert_success_iff {der : Bytes} :
    (∃ passes c, decodeCert passes der isPckCert = some (.ok (true, c))) ↔
      ∃ cert keyPtr parent, decodeFields der isPckCert = .ok (.fields cert keyPtr parent) ∧
        (isPckCert = true → ∃ passes c, decodeExtensions passes der cert keyPtr parent = some (.ok (true, c))) := by
  unfold decodeCert
  cases hfields : decodeFields der isPckCert with
  | error e => simp
  | ok decoded =>
    cases decoded with
    | refused cert => simp
    | fields cert keyPtr parent =>
      constructor
      · rintro ⟨passes, c, h⟩
        refine ⟨cert, keyPtr, parent, rfl, ?_⟩
        rintro rfl
        exact ⟨passes, c, h⟩
      · rintro ⟨cert', keyPtr', parent', heq, h⟩
        cases heq
        cases isPckCert with
        | false => exact ⟨0, cert, rfl⟩
        | true => exact h rfl

theorem decodeCert_iff (hder : t.bytes.length < 2 ^ 64) (hsignature : t.signature = signatureValue r s)
    (hr : r < 2 ^ 256) (hs : s < 2 ^ 256) :
    (∃ passes cert, decodeCert passes t.bytes isPckCert = some (.ok (true, cert))) ↔ FieldsDecode t isPckCert := by
  rw [decodeCert_success_iff]
  constructor
  · rintro ⟨cert, keyPtr, parent, hfields, hextensions⟩
    obtain ⟨hversion, ⟨hbefore, hafter⟩, hissuer, hcommon⟩ :=
      (decodeFields_iff hder hsignature hr hs).mp ⟨cert, keyPtr, parent, hfields⟩
    refine ⟨hversion, hbefore, hafter, hissuer, hcommon, ?_⟩
    intro hpck
    obtain ⟨tbsPtr, passes, info, hfirst, hfound, hsuccess⟩ := decodeExtensions_success_iff.mp (hextensions hpck)
    exact ⟨parent, keyPtr, tbsPtr, passes, info, decodeFields_keyPtrs hfields, hfirst, hfound, hsuccess⟩
  · intro h
    obtain ⟨cert, keyPtr, parent, hfields⟩ := (decodeFields_iff hder hsignature hr hs).mpr
      ⟨h.version, ⟨h.notBefore, h.notAfter⟩, h.issuerName, h.commonName⟩
    refine ⟨cert, keyPtr, parent, hfields, ?_⟩
    intro hpck
    obtain ⟨parent', keyPtr', tbsPtr, passes, info, hptrs, hfirst, hfound, hsuccess⟩ := h.extensions hpck
    obtain ⟨rfl, rfl⟩ := Prod.mk.inj (Except.ok.inj ((decodeFields_keyPtrs hfields).symm.trans hptrs))
    exact decodeExtensions_success_iff.mpr ⟨tbsPtr, passes, info, hfirst, hfound, hsuccess⟩

theorem decodeCert_signature (hder : t.bytes.length < 2 ^ 64) (hsignature : t.signature = signatureValue r s)
    (hr : r < 2 ^ 256) (hs : s < 2 ^ 256) {passes : ℕ} {c : ECSha256Certificate}
    (h : decodeCert passes t.bytes isPckCert = some (.ok (true, c))) : c.signature = trimmed r ++ trimmed s := by
  unfold decodeCert at h
  cases hfields : decodeFields t.bytes isPckCert with
  | error e => simp [hfields] at h
  | ok decoded =>
    rw [hfields] at h
    cases decoded with
    | refused cert => simp at h
    | fields cert keyPtr parent =>
      have hread := decodeFields_signature hder hsignature hr hs hfields
      cases isPckCert with
      | false =>
        obtain rfl : cert = c := by simpa using h
        exact hread
      | true => exact (decodeExtensions_keeps h).2.2.trans hread

/-- The certificate is decoded, with the 64 bytes of both numbers, exactly when its other fields decode and
neither number is encoded in fewer than 32 bytes. -/
theorem signatureDecodes_iff (hder : t.bytes.length < 2 ^ 64) (hsignature : t.signature = signatureValue r s)
    (hr : 1 ≤ r ∧ r < 2 ^ 256) (hs : 1 ≤ s ∧ s < 2 ^ 256) :
    SignatureDecodes t isPckCert r s ↔ FieldsDecode t isPckCert ∧ 2 ^ 247 ≤ r ∧ 2 ^ 247 ≤ s := by
  rw [← decodeCert_iff hder hsignature hr.2 hs.2]
  constructor
  · rintro ⟨passes, cert, hcert, hform⟩
    refine ⟨⟨passes, cert, hcert⟩, (trimmed_append_iff r s).mp ?_⟩
    rw [← decodeCert_signature hder hsignature hr.2 hs.2 hcert]
    exact hform.bytes
  · rintro ⟨⟨passes, cert, hcert⟩, hlarge⟩
    refine ⟨passes, cert, hcert, signatureForm_of_bytes hr.2 hs.2 ?_⟩
    rw [decodeCert_signature hder hsignature hr.2 hs.2 hcert]
    exact (trimmed_append_iff r s).mpr hlarge

end Claim

section Sample

def sampleSigned (r s : ℕ) : Certificate := sampleCertificate sampleTime sampleTime [] (signatureValue r s)

theorem signatureDecodes_iff_sample :
    letI := plainLibString
    SignatureDecodes (sampleSigned (2 ^ 247) (2 ^ 255)) false (2 ^ 247) (2 ^ 255) := by
  let := plainLibString
  have hder : (sampleSigned (2 ^ 247) (2 ^ 255)).bytes.length < 2 ^ 64 := by
    decide +kernel
  have htime : (toTimestamp sampleTime.content).isOk = true := by
    decide +kernel
  have hdecodes : FieldsDecode (sampleSigned (2 ^ 247) (2 ^ 255)) false := by
    refine ⟨rfl, ⟨by decide, isOk_iff.mp htime⟩, ⟨Or.inl rfl, isOk_iff.mp htime⟩, ?_, ?_, ?_⟩ <;> rintro ⟨⟩
  exact (signatureDecodes_iff hder rfl (by decide) (by decide)).mpr ⟨hdecodes, le_refl _, by decide⟩

/-- A number that takes 31 bytes makes a signature of 63. -/
theorem signatureDecodes_short :
    letI := plainLibString
    (∃ cert, decodeCert 0 (sampleSigned (2 ^ 247 - 1) (2 ^ 255)).bytes false = some (.ok (true, cert)) ∧
      cert.signature.length = 63) ∧
      ¬ SignatureDecodes (sampleSigned (2 ^ 247 - 1) (2 ^ 255)) false (2 ^ 247 - 1) (2 ^ 255) := by
  let := plainLibString
  have hder : (sampleSigned (2 ^ 247 - 1) (2 ^ 255)).bytes.length < 2 ^ 64 := by
    decide +kernel
  have hrun : (decodeCert 0 (sampleSigned (2 ^ 247 - 1) (2 ^ 255)).bytes false).map
      (Except.map fun p => (p.1, p.2.signature.length)) = some (.ok (true, 63)) := by
    decide +kernel
  obtain ⟨result, hresult, hmap⟩ := Option.map_eq_some_iff.mp hrun
  obtain ⟨⟨success, cert⟩, rfl, hcert⟩ := map_eq_ok.mp hmap
  obtain ⟨rfl, hlen⟩ := Prod.mk.inj hcert
  refine ⟨⟨cert, hresult, hlen⟩, ?_⟩
  rintro ⟨passes, cert', hcert', hform⟩
  have hbytes := decodeCert_signature hder rfl (by decide) (by decide) hcert'
  have hsame := decodeCert_signature hder rfl (by decide) (by decide) hresult
  have hlength := congrArg List.length (hsame.trans (hbytes.symm.trans hform.bytes))
  rw [List.length_append, BigEndian.encode_length, BigEndian.encode_length] at hlength
  exact absurd (hlen.symm.trans hlength) (by decide)

end Sample

end PEMCertChainLib

end LineaSgxProver.Verifier
