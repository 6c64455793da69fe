import LineaSgxProver.Verifier.V3Parser
import LineaSgxProver.Library.LittleEndian

namespace LineaSgxProver.Verifier

open Library

theorem substring_of_lt {b : Bytes} {offset len : ℕ} (h : b.length < offset + len) :
    substring b offset len = .error (.reason "") := by
  have hfits : ¬ offset + len ≤ b.length := by omega
  simp [substring, require, hfits, error_bind]

theorem encode_bytesN {b : Bytes} {n : ℕ} (h : b.length = n) : BigEndian.encode n (bytesN n b).toNat = b := by
  have hlt : BigEndian.decode b < 2 ^ (8 * n) := by
    have h256 := BigEndian.decode_lt b
    rwa [h, show 256 = 2 ^ 8 from rfl, ← pow_mul] at h256
  rw [bytesN, BitVec.toNat_ofNat, Nat.mod_eq_of_lt hlt, ← h, BigEndian.encode_decode]

theorem bytesN_eq_iff {b : Bytes} {n : ℕ} (h : b.length = n) (x : BitVec (8 * n)) :
    bytesN n b = x ↔ b = BigEndian.encode n x.toNat := by
  constructor
  · rintro rfl
    exact (encode_bytesN h).symm
  · intro hb
    have hlt : x.toNat < 256 ^ n := by
      rw [show 256 = 2 ^ 8 from rfl, ← pow_mul]
      exact x.isLt
    rw [bytesN, hb, BigEndian.decode_encode n _ hlt, BitVec.ofNat_toNat, BitVec.setWidth_eq]

namespace V3Parser

open V3Struct

theorem littleEndianFrom_eq (i : ℕ) (bs : Bytes) : littleEndianFrom i bs = 256 ^ i * LittleEndian.decode bs := by
  induction bs generalizing i with
  | nil => rfl
  | cons b bs ih =>
    have hlower : 16 ^ (2 * i) = 256 ^ i := by rw [pow_mul]; rfl
    have hupper : 16 ^ (2 * i + 1) = 16 * 256 ^ i := by rw [pow_succ', hlower]
    have hdigits : b.toNat % 16 + 16 * (b.toNat / 16) = b.toNat := Nat.mod_add_div _ _
    rw [littleEndianFrom, ih, LittleEndian.decode_cons, hlower, hupper, pow_succ]
    calc b.toNat % 16 * 256 ^ i + b.toNat / 16 * (16 * 256 ^ i) + 256 ^ i * 256 * LittleEndian.decode bs
      _ = 256 ^ i * ((b.toNat % 16 + 16 * (b.toNat / 16)) + 256 * LittleEndian.decode bs) := by ring
      _ = 256 ^ i * (b.toNat + 256 * LittleEndian.decode bs) := by rw [hdigits]

theorem littleEndianDecode_eq (bs : Bytes) : littleEndianDecode bs = LittleEndian.decode bs := by
  rw [littleEndianDecode, littleEndianFrom_eq, pow_zero, one_mul]

theorem encode_littleEndianDecode {bs : Bytes} {k : ℕ} (h : bs.length = k) :
    LittleEndian.encode k (littleEndianDecode bs) = bs := by
  rw [littleEndianDecode_eq, ← h, LittleEndian.encode_decode]

end V3Parser

/-! The bytes of the fields of a quote, in order. -/

namespace V3Struct

def Header.bytes (h : Header) : Bytes :=
  BigEndian.encode 2 h.version.toNat ++ BigEndian.encode 2 h.attestationKeyType.toNat ++
    BigEndian.encode 4 h.teeType.toNat ++ BigEndian.encode 2 h.qeSvn.toNat ++
    BigEndian.encode 2 h.pceSvn.toNat ++ BigEndian.encode 16 h.qeVendorId.toNat ++
    BigEndian.encode 20 h.userData.toNat

def EnclaveReport.bytes (r : EnclaveReport) : Bytes :=
  BigEndian.encode 16 r.cpuSvn.toNat ++ BigEndian.encode 4 r.miscSelect.toNat ++
    BigEndian.encode 28 r.reserved1.toNat ++ BigEndian.encode 16 r.attributes.toNat ++
    BigEndian.encode 32 r.mrEnclave.toNat ++ BigEndian.encode 32 r.reserved2.toNat ++
    BigEndian.encode 32 r.mrSigner.toNat ++ r.reserved3 ++ LittleEndian.encode 2 r.isvProdId.toNat ++
    LittleEndian.encode 2 r.isvSvn.toNat ++ r.reserved4 ++ r.reportData

def ECDSAQuoteV3AuthData.bytes (a : ECDSAQuoteV3AuthData) : Bytes :=
  a.ecdsa256BitSignature ++ a.ecdsaAttestationKey ++ a.rawQeReport ++ a.qeReportSignature ++
    LittleEndian.encode 2 a.qeAuthData.parsedDataSize ++ a.qeAuthData.data ++
    LittleEndian.encode 2 a.certification.certType ++
    LittleEndian.encode 4 a.certification.certDataSize ++ a.certification.certData

end V3Struct

namespace V3Parser

open V3Struct

def Parsed.bytes (p : Parsed) : Bytes :=
  p.header.bytes ++ p.localEnclaveReport.bytes ++ LittleEndian.encode 4 p.authDataV3.bytes.length ++
    p.authDataV3.bytes

/-! The grammar. -/

def IsHeader (header : Bytes) : Prop :=
  header.take 2 = [0x03, 0x00] ∧ (header.drop 2).take 2 = [0x02, 0x00] ∧
    (header.drop 4).take 4 = [0x00, 0x00, 0x00, 0x00] ∧
    (header.drop 12).take 16 = BigEndian.encode 16 0x939a7233f79c4ca9940a0db3957f0607

def IsAuthData (auth : Bytes) : Prop :=
  ∃ (sig key qeReport qeSig data certData : Bytes) (certType : ℕ),
    sig.length = 64 ∧ key.length = 64 ∧ qeReport.length = 384 ∧ qeSig.length = 64 ∧
    data.length < 2 ^ 16 ∧ (1 ≤ certType ∧ certType ≤ 5) ∧ certData.length < 2 ^ 32 ∧
    auth = sig ++ key ++ qeReport ++ qeSig ++ LittleEndian.encode 2 data.length ++ data ++
      LittleEndian.encode 2 certType ++ LittleEndian.encode 4 certData.length ++ certData

def IsQuote (quote : Bytes) : Prop :=
  ∃ header report auth : Bytes,
    header.length = 48 ∧ IsHeader header ∧ report.length = 384 ∧ auth.length < 2 ^ 32 ∧
    IsAuthData auth ∧ minimumQuoteLength < quote.length ∧
    quote = header ++ report ++ LittleEndian.encode 4 auth.length ++ auth

section Sections

variable {raw : Bytes}

theorem encode_section {i n : ℕ} (h : i + n ≤ raw.length) :
    BigEndian.encode n (bytesN n ((raw.drop i).take n)).toNat = (raw.drop i).take n :=
  encode_bytesN (section_length h)

theorem encode_littleEndian_section {i n : ℕ} (h : i + n ≤ raw.length) :
    LittleEndian.encode n (littleEndianDecode ((raw.drop i).take n)) = (raw.drop i).take n :=
  encode_littleEndianDecode (section_length h)

theorem littleEndianDecode_section_lt (i n : ℕ) : littleEndianDecode ((raw.drop i).take n) < 256 ^ n := by
  rw [littleEndianDecode_eq]
  calc LittleEndian.decode ((raw.drop i).take n) < 256 ^ ((raw.drop i).take n).length :=
        LittleEndian.decode_lt _
    _ ≤ 256 ^ n := Nat.pow_le_pow_right (by decide) (List.length_take_le n _)

theorem encode_uint16_section {i : ℕ} (h : i + 2 ≤ raw.length) :
    LittleEndian.encode 2 (UInt16.ofNat (littleEndianDecode ((raw.drop i).take 2))).toNat =
      (raw.drop i).take 2 := by
  have hlt : littleEndianDecode ((raw.drop i).take 2) < 2 ^ 16 := littleEndianDecode_section_lt i 2
  rw [UInt16.toNat_ofNat', Nat.mod_eq_of_lt hlt, encode_littleEndian_section h]

theorem parseEnclaveReport_bytes (h : raw.length = 384) :
    ∃ report, parseEnclaveReport raw = .ok report ∧ report.bytes = raw := by
  have hraw : (raw.drop 0).take 384 = raw := by
    rw [List.drop_zero, ← h, List.take_length]
  refine ⟨_, by simp (disch := omega) only [parseEnclaveReport, substring_of_le, ok_bind]; rfl, ?_⟩
  simp (disch := omega) only [EnclaveReport.bytes, encode_section, encode_uint16_section]
  iterate 11 rw [section_append (by rfl)]
  exact hraw

theorem parseAndVerifyHeader_of_length (h : raw.length = 48) :
    (IsHeader raw → ∃ header, parseAndVerifyHeader raw = .ok (some header) ∧ header.bytes = raw) ∧
      (¬ IsHeader raw → parseAndVerifyHeader raw = .ok none) := by
  have hraw : (raw.drop 0).take 48 = raw := by
    rw [List.drop_zero, ← h, List.take_length]
  have hversion : bytesN 2 ((raw.drop 0).take 2) = supportedQuoteVersion ↔ raw.take 2 = [0x03, 0x00] :=
    bytesN_eq_iff (section_length (by omega)) _
  have hkeyType : bytesN 2 ((raw.drop 2).take 2) = supportedAttestationKeyType ↔
      (raw.drop 2).take 2 = [0x02, 0x00] := bytesN_eq_iff (section_length (by omega)) _
  have hteeType : bytesN 4 ((raw.drop 4).take 4) = supportedTeeType ↔
      (raw.drop 4).take 4 = [0x00, 0x00, 0x00, 0x00] := bytesN_eq_iff (section_length (by omega)) _
  have hvendor : bytesN 16 ((raw.drop 12).take 16) = validQeVendorId ↔
      (raw.drop 12).take 16 = BigEndian.encode 16 0x939a7233f79c4ca9940a0db3957f0607 :=
    bytesN_eq_iff (section_length (by omega)) _
  have hheader : IsHeader raw ↔ bytesN 2 ((raw.drop 0).take 2) = supportedQuoteVersion ∧
      bytesN 2 ((raw.drop 2).take 2) = supportedAttestationKeyType ∧
      bytesN 4 ((raw.drop 4).take 4) = supportedTeeType ∧
      bytesN 16 ((raw.drop 12).take 16) = validQeVendorId := by
    rw [hversion, hkeyType, hteeType, hvendor]
    rfl
  rw [hheader]
  simp (disch := omega) only [parseAndVerifyHeader, substring_of_le, map_ok, ok_bind]
  constructor
  · rintro ⟨h1, h2, h3, h4⟩
    rw [if_neg (not_not_intro h1), if_neg (not_not_intro h2), if_neg (not_not_intro h3),
      if_neg (not_not_intro h4)]
    refine ⟨_, rfl, ?_⟩
    simp (disch := omega) only [Header.bytes, encode_section]
    iterate 6 rw [section_append (by rfl)]
    exact hraw
  · intro hnot
    split_ifs with h1 h2 h3 h4
    · rfl
    · rfl
    · rfl
    · rfl
    · exact absurd ⟨not_not.mp h1, not_not.mp h2, not_not.mp h3, not_not.mp h4⟩ hnot

end Sections

/-! What the lengths inside the authentication data say. -/

def authDataSize (auth : Bytes) : ℕ := littleEndianDecode ((auth.drop 576).take 2)

def authCertType (auth : Bytes) : ℕ := littleEndianDecode ((auth.drop (578 + authDataSize auth)).take 2)

def authCertDataSize (auth : Bytes) : ℕ := littleEndianDecode ((auth.drop (578 + authDataSize auth + 2)).take 4)

def CertTypeKnown (auth : Bytes) : Prop := 1 ≤ authCertType auth ∧ authCertType auth ≤ 5

def authLength (auth : Bytes) : ℕ := 584 + authDataSize auth + authCertDataSize auth

section AuthData

variable {auth : Bytes}

theorem parseAuthData_of_le (hlen : 580 + authDataSize auth ≤ auth.length) :
    parseAuthDataAndVerifyCertType auth =
      if authCertType auth < 1 ∨ 5 < authCertType auth then .ok none
      else
        littleEndianDecode <$> substring auth (578 + authDataSize auth + 2) 4 >>= fun certDataSize =>
        substring auth (578 + authDataSize auth + 6) certDataSize >>= fun certData =>
          .ok (some ⟨(auth.drop 0).take 64, (auth.drop 64).take 64, (auth.drop 128).take 384,
            (auth.drop 512).take 64, ⟨authDataSize auth, (auth.drop 578).take (authDataSize auth)⟩,
            ⟨authCertType auth, certDataSize, certData⟩⟩) := by
  have hsizeAt := substring_of_le (b := auth) (show 576 + 2 ≤ auth.length by omega)
  have hdata := substring_of_le (b := auth) (show 578 + authDataSize auth ≤ auth.length by omega)
  have htypeAt := substring_of_le (b := auth) (show 578 + authDataSize auth + 2 ≤ auth.length by omega)
  unfold parseAuthDataAndVerifyCertType
  rw [hsizeAt, map_ok, ok_bind]
  change (substring auth 578 (authDataSize auth) >>= _) = _
  rw [hdata, ok_bind]
  change (littleEndianDecode <$> substring auth (578 + authDataSize auth) 2 >>= _) = _
  rw [htypeAt, map_ok, ok_bind]
  simp (disch := omega) only [substring_of_le, ok_bind]
  rfl

theorem parseAuthData_none (hlen : 580 + authDataSize auth ≤ auth.length) (htype : ¬ CertTypeKnown auth) :
    parseAuthDataAndVerifyCertType auth = .ok none := by
  unfold CertTypeKnown at htype
  rw [parseAuthData_of_le hlen, if_pos (by omega)]

theorem parseAuthData_short (hsize : 578 ≤ auth.length) (hlen : auth.length < 580 + authDataSize auth) :
    parseAuthDataAndVerifyCertType auth = .error (.reason "") := by
  have hsizeAt := substring_of_le (b := auth) (show 576 + 2 ≤ auth.length by omega)
  unfold parseAuthDataAndVerifyCertType
  rw [hsizeAt, map_ok, ok_bind]
  change (substring auth 578 (authDataSize auth) >>= _) = _
  by_cases hdata : 578 + authDataSize auth ≤ auth.length
  · rw [substring_of_le hdata, ok_bind]
    change (littleEndianDecode <$> substring auth (578 + authDataSize auth) 2 >>= _) = _
    rw [substring_of_lt (by omega)]
    rfl
  · rw [substring_of_lt (by omega), error_bind]

theorem parseAuthData_overrun (hlen : 580 + authDataSize auth ≤ auth.length) (htype : CertTypeKnown auth)
    (hover : auth.length < authLength auth) :
    parseAuthDataAndVerifyCertType auth = .error (.reason "") := by
  unfold CertTypeKnown at htype
  rw [parseAuthData_of_le hlen, if_neg (by omega)]
  by_cases hsize : 578 + authDataSize auth + 2 + 4 ≤ auth.length
  · rw [substring_of_le hsize, map_ok, ok_bind]
    change (substring auth (578 + authDataSize auth + 6) (authCertDataSize auth) >>= _) = _
    unfold authLength at hover
    rw [substring_of_lt (by omega), error_bind]
  · rw [substring_of_lt (by omega)]
    rfl

/-- The fields, one after the other, are the bytes that the lengths account for. -/
theorem authData_sections (hlen : authLength auth ≤ auth.length) :
    (auth.drop 0).take 64 ++ (auth.drop 64).take 64 ++ (auth.drop 128).take 384 ++ (auth.drop 512).take 64 ++
      LittleEndian.encode 2 (authDataSize auth) ++ (auth.drop 578).take (authDataSize auth) ++
      LittleEndian.encode 2 (authCertType auth) ++ LittleEndian.encode 4 (authCertDataSize auth) ++
      (auth.drop (578 + authDataSize auth + 6)).take (authCertDataSize auth) = auth.take (authLength auth) := by
  unfold authLength at hlen
  have hsize : LittleEndian.encode 2 (authDataSize auth) = (auth.drop 576).take 2 :=
    encode_littleEndian_section (by omega)
  have htype : LittleEndian.encode 2 (authCertType auth) = (auth.drop (578 + authDataSize auth)).take 2 :=
    encode_littleEndian_section (by omega)
  have hcertSize : LittleEndian.encode 4 (authCertDataSize auth) =
      (auth.drop (578 + authDataSize auth + 2)).take 4 := encode_littleEndian_section (by omega)
  have htotal : 64 + 64 + 384 + 64 + 2 + authDataSize auth + 2 + 4 + authCertDataSize auth = authLength auth := by
    unfold authLength
    omega
  rw [hsize, htype, hcertSize, section_append (by rfl), section_append (by rfl), section_append (by rfl),
    section_append (by rfl), section_append (by rfl), section_append (by omega), section_append (by omega),
    section_append (by omega), htotal, List.drop_zero]

theorem parseAuthData_some (hlen : authLength auth ≤ auth.length) (htype : CertTypeKnown auth) :
    ∃ data, parseAuthDataAndVerifyCertType auth = .ok (some data) ∧ data.bytes = auth.take (authLength auth) := by
  refine ⟨⟨(auth.drop 0).take 64, (auth.drop 64).take 64, (auth.drop 128).take 384, (auth.drop 512).take 64,
    ⟨authDataSize auth, (auth.drop 578).take (authDataSize auth)⟩,
    ⟨authCertType auth, authCertDataSize auth,
      (auth.drop (578 + authDataSize auth + 6)).take (authCertDataSize auth)⟩⟩, ?_, authData_sections hlen⟩
  unfold CertTypeKnown at htype
  unfold authLength at hlen
  rw [parseAuthData_of_le (by omega), if_neg (by omega), substring_of_le (by omega), map_ok, ok_bind]
  change (substring auth (578 + authDataSize auth + 6) (authCertDataSize auth) >>= _) = _
  rw [substring_of_le (by omega), ok_bind]
  rfl

theorem isAuthData_iff : IsAuthData auth ↔ CertTypeKnown auth ∧ authLength auth = auth.length := by
  constructor
  · rintro ⟨sig, key, qeReport, qeSig, data, certData, certType, h1, h2, h3, h4, hdata, htype, hcert, hauth⟩
    have hsize : authDataSize auth = data.length := by
      have hsplit : auth = (sig ++ key ++ qeReport ++ qeSig) ++ LittleEndian.encode 2 data.length ++
          (data ++ LittleEndian.encode 2 certType ++ LittleEndian.encode 4 certData.length ++ certData) := by
        simp [hauth]
      rw [authDataSize, hsplit, section_of_append (by simp [h1, h2, h3, h4]) (by simp), littleEndianDecode_eq,
        LittleEndian.decode_encode 2 _ hdata]
    have htypeAt : authCertType auth = certType := by
      have hsplit : auth = (sig ++ key ++ qeReport ++ qeSig ++ LittleEndian.encode 2 data.length ++ data) ++
          LittleEndian.encode 2 certType ++ (LittleEndian.encode 4 certData.length ++ certData) := by
        simp [hauth]
      rw [authCertType, hsize, hsplit, section_of_append (by simp [h1, h2, h3, h4]; omega) (by simp),
        littleEndianDecode_eq, LittleEndian.decode_encode 2 _ (by omega)]
    have hcertSize : authCertDataSize auth = certData.length := by
      have hsplit : auth = (sig ++ key ++ qeReport ++ qeSig ++ LittleEndian.encode 2 data.length ++ data ++
          LittleEndian.encode 2 certType) ++ LittleEndian.encode 4 certData.length ++ certData := by
        simp [hauth]
      rw [authCertDataSize, hsize, hsplit, section_of_append (by simp [h1, h2, h3, h4]; omega) (by simp),
        littleEndianDecode_eq, LittleEndian.decode_encode 4 _ hcert]
    refine ⟨by rwa [CertTypeKnown, htypeAt], ?_⟩
    rw [authLength, hsize, hcertSize, hauth]
    simp only [List.length_append, LittleEndian.encode_length, h1, h2, h3, h4]
    omega
  · rintro ⟨htype, hlen⟩
    have hsum := hlen
    unfold authLength at hsum
    refine ⟨(auth.drop 0).take 64, (auth.drop 64).take 64, (auth.drop 128).take 384, (auth.drop 512).take 64,
      (auth.drop 578).take (authDataSize auth),
      (auth.drop (578 + authDataSize auth + 6)).take (authCertDataSize auth), authCertType auth,
      section_length (by omega), section_length (by omega), section_length (by omega),
      section_length (by omega), ?_, htype, ?_, ?_⟩
    · rw [section_length (by omega)]
      exact littleEndianDecode_section_lt _ 2
    · rw [section_length (by omega)]
      exact littleEndianDecode_section_lt _ 4
    · rw [section_length (by omega), section_length (by omega), authData_sections hlen.le, hlen,
        List.take_length]

end AuthData

def OuterAccepted (quote : Bytes) : Prop :=
  minimumQuoteLength < quote.length ∧
    quote.length - 436 = littleEndianDecode ((quote.drop 432).take 4) ∧ IsHeader (quote.take 48)

section Quote

variable {quote : Bytes}

theorem isQuote_iff : IsQuote quote ↔ OuterAccepted quote ∧ IsAuthData (quote.drop 436) := by
  constructor
  · rintro ⟨header, report, auth, hheader, his, hreport, hsmall, hauth, hmin, hquote⟩
    have hhead : quote.take 48 = header := by
      rw [hquote, List.append_assoc, List.append_assoc]
      exact List.take_left' hheader
    have hsize : littleEndianDecode ((quote.drop 432).take 4) = auth.length := by
      rw [hquote, section_of_append (by simp [hheader, hreport]) (by simp), littleEndianDecode_eq,
        LittleEndian.decode_encode 4 _ hsmall]
    have hrest : quote.drop 436 = auth := by
      rw [hquote]
      exact List.drop_left' (by simp [hheader, hreport])
    have hlen : quote.length - 436 = auth.length := by
      rw [← hrest, List.length_drop]
    refine ⟨⟨hmin, by rw [hsize, hlen], by rwa [hhead]⟩, by rwa [hrest]⟩
  · rintro ⟨⟨hmin, hsize, his⟩, hauth⟩
    have hlen : 1020 < quote.length := hmin
    have hlength : (quote.drop 436).length = littleEndianDecode ((quote.drop 432).take 4) := by
      rw [List.length_drop, hsize]
    refine ⟨quote.take 48, (quote.drop 48).take 384, quote.drop 436, ?_, his, section_length (by omega), ?_, hauth,
      hmin, ?_⟩
    · rw [List.length_take]
      omega
    · rw [hlength]
      exact littleEndianDecode_section_lt _ 4
    · have hsigned : quote.take 48 ++ (quote.drop 48).take 384 = quote.take 432 := (List.take_add ..).symm
      have hsized : quote.take 432 ++ (quote.drop 432).take 4 = quote.take 436 := (List.take_add ..).symm
      rw [hlength, encode_littleEndian_section (by omega), hsigned, hsized, List.take_append_drop]

theorem parseInput_none (h : ¬ OuterAccepted quote) : parseInput quote = .ok none := by
  unfold parseInput
  by_cases hmin : minimumQuoteLength < quote.length
  · have hlen : 1020 < quote.length := hmin
    rw [if_neg (by omega), substring_of_le (by omega), map_ok, ok_bind]
    by_cases hsize : quote.length - 436 = littleEndianDecode ((quote.drop 432).take 4)
    · have hheader : ¬ IsHeader (quote.take 48) := fun hheader => h ⟨hmin, hsize, hheader⟩
      have hraw : ((quote.drop 0).take 48).length = 48 := section_length (by omega)
      rw [if_neg (not_not_intro hsize), substring_of_le (by omega), ok_bind,
        (parseAndVerifyHeader_of_length hraw).2 hheader]
      rfl
    · exact if_pos hsize
  · exact if_pos (by omega)

theorem parseInput_of_outer (h : OuterAccepted quote) :
    ∃ header report, header.bytes = quote.take 48 ∧ report.bytes = (quote.drop 48).take 384 ∧
      parseInput quote = parseAuthDataAndVerifyCertType (quote.drop 436) >>= fun authData =>
        .ok (authData.map fun authDataV3 => ⟨header, report, quote.take 432, authDataV3⟩) := by
  obtain ⟨hmin, hsize, hheader⟩ := h
  have hlen : 1020 < quote.length := hmin
  have hraw : ((quote.drop 0).take 48).length = 48 := section_length (by omega)
  have hreport : ((quote.drop 48).take 384).length = 384 := section_length (by omega)
  obtain ⟨header, hparsed, hheaderBytes⟩ := (parseAndVerifyHeader_of_length hraw).1 hheader
  obtain ⟨report, hreportParsed, hreportBytes⟩ := parseEnclaveReport_bytes hreport
  have hauth : (quote.drop 436).take (littleEndianDecode ((quote.drop 432).take 4)) = quote.drop 436 := by
    rw [← hsize, ← List.length_drop, List.take_length]
  have hsigned : (quote.drop 0).take 48 ++ (quote.drop 48).take 384 = quote.take 432 := (List.take_add ..).symm
  refine ⟨header, report, hheaderBytes, hreportBytes, ?_⟩
  unfold parseInput
  rw [if_neg (by omega), substring_of_le (by omega), map_ok, ok_bind, if_neg (not_not_intro hsize),
    substring_of_le (by omega), ok_bind, hparsed, ok_bind]
  simp only []
  rw [substring_of_le (by omega), ok_bind, hauth, substring_of_le (by omega)]
  simp only [ok_bind, hreportParsed, hsigned]
  refine congrArg (parseAuthDataAndVerifyCertType (quote.drop 436) >>= ·) ?_
  funext authData
  cases authData <;> rfl

end Quote

/-- The parser accepts the quotes of the grammar, with all their bytes, and refuses every other string. -/
structure ReadsGrammar (quote : Bytes) : Prop where
  accepts : IsQuote quote → ∃ parsed, parseInput quote = .ok (some parsed) ∧ parsed.bytes = quote ∧
    parsed.signedQuoteData = quote.take 432
  refuses : ¬ IsQuote quote → parseInput quote = .ok none

/-- The authentication data goes as far as the type of its certification, and where that type is known,
the two lengths inside account for all of it. -/
def AuthSettled (auth : Bytes) : Prop :=
  580 + authDataSize auth ≤ auth.length ∧ (CertTypeKnown auth → authLength auth = auth.length)

section Reads

variable {quote : Bytes}

theorem not_readsGrammar_of_error {e : Revert} (h : parseInput quote = .error e) : ¬ ReadsGrammar quote := by
  intro hreads
  by_cases hquote : IsQuote quote
  · obtain ⟨parsed, hparsed, -⟩ := hreads.accepts hquote
    rw [h] at hparsed
    cases hparsed
  · have hrefused := hreads.refuses hquote
    rw [h] at hrefused
    cases hrefused

theorem parseInput_error (houter : OuterAccepted quote)
    (h : parseAuthDataAndVerifyCertType (quote.drop 436) = .error (.reason "")) :
    parseInput quote = .error (.reason "") := by
  obtain ⟨_, _, -, -, heq⟩ := parseInput_of_outer houter
  rw [heq, h, error_bind]

theorem parseInput_some (houter : OuterAccepted quote) (htype : CertTypeKnown (quote.drop 436))
    (hlen : authLength (quote.drop 436) ≤ (quote.drop 436).length) :
    ∃ parsed, parseInput quote = .ok (some parsed) ∧ parsed.signedQuoteData = quote.take 432 ∧
      (authLength (quote.drop 436) = (quote.drop 436).length → parsed.bytes = quote) := by
  obtain ⟨header, report, hheader, hreport, heq⟩ := parseInput_of_outer houter
  obtain ⟨data, hdata, hbytes⟩ := parseAuthData_some hlen htype
  refine ⟨⟨header, report, quote.take 432, data⟩, by rw [heq, hdata]; rfl, rfl, ?_⟩
  intro hall
  obtain ⟨hmin, hsize, -⟩ := houter
  have hmin : 1020 < quote.length := hmin
  have hsigned : quote.take 48 ++ (quote.drop 48).take 384 = quote.take 432 := (List.take_add ..).symm
  have hsized : quote.take 432 ++ (quote.drop 432).take 4 = quote.take 436 := (List.take_add ..).symm
  rw [hall, List.take_length] at hbytes
  simp only [Parsed.bytes]
  rw [hbytes, List.length_drop, hsize, encode_littleEndian_section (by omega), hheader, hreport, hsigned, hsized,
    List.take_append_drop]

theorem readsGrammar_iff (quote : Bytes) :
    ReadsGrammar quote ↔ (OuterAccepted quote → AuthSettled (quote.drop 436)) := by
  constructor
  · intro hreads houter
    have hlen : 578 ≤ (quote.drop 436).length := by
      have hmin : 1020 < quote.length := houter.1
      rw [List.length_drop]
      omega
    have hreaches : 580 + authDataSize (quote.drop 436) ≤ (quote.drop 436).length := by
      by_contra hshort
      exact not_readsGrammar_of_error
        (parseInput_error houter (parseAuthData_short hlen (by omega))) hreads
    refine ⟨hreaches, fun htype => ?_⟩
    rcases Nat.lt_trichotomy (authLength (quote.drop 436)) (quote.drop 436).length with hless | hall | hover
    · -- bytes are left over: the string is no quote, and is accepted
      obtain ⟨parsed, hparsed, -, -⟩ := parseInput_some houter htype hless.le
      have hnot : ¬ IsQuote quote := fun hquote =>
        absurd (isAuthData_iff.mp (isQuote_iff.mp hquote).2).2 hless.ne
      have hrefused := hreads.refuses hnot
      rw [hparsed] at hrefused
      cases hrefused
    · exact hall
    · exact absurd hreads (not_readsGrammar_of_error
        (parseInput_error houter (parseAuthData_overrun hreaches htype hover)))
  · intro hsettled
    by_cases houter : OuterAccepted quote
    · obtain ⟨hreaches, hadds⟩ := hsettled houter
      by_cases htype : CertTypeKnown (quote.drop 436)
      · have hall := hadds htype
        have hquote : IsQuote quote := isQuote_iff.mpr ⟨houter, isAuthData_iff.mpr ⟨htype, hall⟩⟩
        obtain ⟨parsed, hparsed, hsigned, hbytes⟩ := parseInput_some houter htype hall.le
        exact ⟨fun _ => ⟨parsed, hparsed, hbytes hall, hsigned⟩, fun hnot => absurd hquote hnot⟩
      · have hnot : ¬ IsQuote quote := fun hquote =>
          htype (isAuthData_iff.mp (isQuote_iff.mp hquote).2).1
        obtain ⟨_, _, -, -, heq⟩ := parseInput_of_outer houter
        refine ⟨fun hquote => absurd hquote hnot, fun _ => ?_⟩
        rw [heq, parseAuthData_none hreaches htype]
        rfl
    · have hnot : ¬ IsQuote quote := fun hquote => houter (isQuote_iff.mp hquote).1
      exact ⟨fun hquote => absurd hquote hnot, fun _ => parseInput_none houter⟩

end Reads

def zeroQuote (tail : Bytes) : Bytes :=
  [3, 0, 2, 0] ++ List.replicate 8 0 ++ BigEndian.encode 16 0x939a7233f79c4ca9940a0db3957f0607 ++
    List.replicate 404 0 ++ LittleEndian.encode 4 (576 + tail.length) ++ List.replicate 576 0 ++ tail

/-- A byte after the certificates is dropped without a word, and a length that points past the end
makes the parser revert. -/
theorem readsGrammar_fails :
    ¬ ReadsGrammar (zeroQuote [0, 0, 5, 0, 0, 0, 0, 0, 9]) ∧
      ¬ ReadsGrammar (zeroQuote [0xff, 0xff, 5, 0, 0, 0, 0, 0, 9]) := by
  constructor
  · intro hreads
    have hnot : ¬ IsQuote (zeroQuote [0, 0, 5, 0, 0, 0, 0, 0, 9]) := by
      rw [isQuote_iff, isAuthData_iff]
      rintro ⟨-, -, hall⟩
      revert hall
      decide +kernel
    have hrefused := hreads.refuses hnot
    have haccepts : (parseInput (zeroQuote [0, 0, 5, 0, 0, 0, 0, 0, 9])).toOption.bind id ≠ none := by
      decide +kernel
    rw [hrefused] at haccepts
    exact haccepts rfl
  · apply not_readsGrammar_of_error (e := .reason "")
    decide +kernel

end V3Parser

end LineaSgxProver.Verifier
