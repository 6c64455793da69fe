import LineaSgxProver.Verifier.Certificate

namespace LineaSgxProver.Verifier.PEMCertChainLib

open Library Der Asn1Decode Calendar X509DateUtils

/-- An element is this date, written in one of the two ways. -/
def Writes (t : Tlv) (d : DateTime) : Prop :=
  (d.year < 2050 ∧ t = ⟨0x17, utcTime d⟩) ∨ (d.year < 10000 ∧ t = ⟨0x18, generalizedTime d⟩)

/-- The steps by which the issuer's name is read. -/
def issuerName (der : Bytes) : Checked Bytes := do
  let (_, tbsPtr) ← serialNumberPtrs der
  let tbsPtr ← nextSiblingOf der tbsPtr
  let tbsPtr ← nextSiblingOf der tbsPtr
  nameValue der tbsPtr

section Dates

variable {e : Tlv} {d : DateTime}

theorem Writes.year (h : Writes e d) : d.year < 10000 := by
  rcases h with ⟨hyear, -⟩ | ⟨hyear, -⟩ <;> omega

theorem Writes.isTime (h : Writes e d) : IsTime e := by
  rcases h with ⟨-, rfl⟩ | ⟨-, rfl⟩
  · exact Or.inl rfl
  · exact Or.inr rfl

theorem Writes.toTimestamp_eq (h : Writes e d) (hd : d.Valid) :
    toTimestamp e.content =
      if e.tag = 0x18 → d.year / 100 % 10 ≤ 2 then .ok (posixSeconds d) else .error .overflow := by
  rcases h with ⟨hyear, rfl⟩ | ⟨hyear, rfl⟩
  · rw [if_pos (fun htag => absurd htag (show (0x17 : UInt8) ≠ 0x18 by decide))]
    exact toTimestamp_utcTime hd hyear
  · have hgeneralized := toTimestamp_generalizedTime hd hyear
    by_cases hhundreds : d.year / 100 % 10 ≤ 2
    · rw [if_pos hhundreds] at hgeneralized
      rw [if_pos (fun _ => hhundreds)]
      exact hgeneralized
    · rw [if_neg hhundreds] at hgeneralized
      rw [if_neg (fun h => hhundreds (h rfl))]
      exact hgeneralized

variable {t : Certificate} {der : Bytes} {ptr stop : ℕ} {rest : List Tlv}

theorem decodeValidity_dates (hder : der.length < 2 ^ 64) (h : Points der ptr t.validity rest stop)
    {before after : DateTime} (hbefore : before.Valid) (hafter : after.Valid) (hwrites : Writes t.notBefore before)
    (hwrites' : Writes t.notAfter after) :
    decodeValidity der ptr =
      if t.notBefore.tag = 0x17 then
        if t.notAfter.tag = 0x18 → after.year / 100 % 10 ≤ 2 then
          .ok (some (posixSeconds before, posixSeconds after))
        else .error .overflow
      else .ok none := by
  rw [decodeValidity_eq hder h, hwrites.toTimestamp_eq hbefore, hwrites'.toTimestamp_eq hafter]
  rcases hwrites.isTime with htag | htag
  · have hnot18 : t.notBefore.tag ≠ 0x18 := by
      rw [htag]
      decide
    have hpasses := mt (refused_iff t.notBefore.tag t.notAfter.tag).mp (not_not.mpr ⟨hnot18, hwrites'.isTime⟩)
    rw [if_neg hpasses, if_pos htag, if_pos (fun h => absurd h hnot18), ok_bind]
    split_ifs <;> rfl
  · have hnot17 : t.notBefore.tag ≠ 0x17 := by
      rw [htag]
      decide
    rw [if_pos (Or.inl ⟨hnot17, htag⟩), if_neg hnot17]

end Dates

namespace Walk

variable {der : Bytes}

theorem issuerName_eq (w : Walk der) : issuerName der = nameValue der w.issuerPtr := by
  rw [issuerName]
  simp only [w.serial, w.algorithm, w.issuer, ok_bind]

theorem validityPtrs_unique (w : Walk der) {parent ptr : ℕ} (h : validityPtrs der = .ok (parent, ptr)) :
    ptr = w.validityPtr := by
  rw [w.validityPtrs_eq] at h
  cases h
  rfl

variable [LibString] {isPckCert : Bool} {passes : ℕ} {cert : ECSha256Certificate}

/-- A Validity that is refused makes the certificate refused, once its issuer is read. -/
theorem refused (w : Walk der) (hrefused : decodeValidity der w.validityPtr = .ok none)
    (hname : isPckCert = true → ∃ name, issuerName der = .ok name) :
    ∃ cert, decodeCert passes der isPckCert = some (.ok (false, cert)) := by
  obtain ⟨name, expected, hpck⟩ : ∃ name expected,
      pckName der w.issuerPtr isPckCert pckIssuerName = .ok (name, expected) := by
    unfold pckName
    cases isPckCert with
    | false => exact ⟨_, _, rfl⟩
    | true =>
      obtain ⟨name, hname⟩ := hname rfl
      rw [w.issuerName_eq] at hname
      exact ⟨_, _, by rw [if_pos rfl, hname]; rfl⟩
  have hfields : ∃ cert, decodeFields der isPckCert = .ok (.refused cert) := by
    rw [w.decodeFields_eq, hpck, ok_bind]
    cases expected with
    | false => exact ⟨_, rfl⟩
    | true =>
      simp only [decodeFromValidity, hrefused]
      exact ⟨_, rfl⟩
  obtain ⟨cert, hcert⟩ := hfields
  exact ⟨cert, by rw [decodeCert, hcert]⟩

end Walk

section Claim

variable [LibString] {t : Certificate}

structure TimesDecode (t : Certificate) : Prop where
  sets : ∀ before after : DateTime, before.Valid → after.Valid → Writes t.notBefore before →
    Writes t.notAfter after →
      (∃ parent ptr, validityPtrs t.bytes = .ok (parent, ptr) ∧
        decodeValidity t.bytes ptr = .ok (some (posixSeconds before, posixSeconds after))) ∧
      ∀ passes isPckCert cert, decodeCert passes t.bytes isPckCert = some (.ok (true, cert)) →
        cert.notBefore.toNat = posixSeconds before ∧ cert.notAfter.toNat = posixSeconds after ∧
          (cert.notBefore < cert.notAfter ↔ before.Before after)
  refuses : ¬ IsTime t.notBefore ∨ ¬ IsTime t.notAfter → ∀ passes isPckCert, ∃ cert,
    decodeCert passes t.bytes isPckCert = some (.ok (false, cert))

/-- Of two dates the first is a UTCTime and the second one, as a GeneralizedTime, has at most a 2 for its
hundreds, and the certificate has a version. Of two elements that are not both dates it is the second that is
none; or else, without a version, they can be read as a name. -/
structure TimesReadable (t : Certificate) : Prop where
  dates : ∀ before after : DateTime, before.Valid → after.Valid → Writes t.notBefore before →
    Writes t.notAfter after →
      t.version.isSome = true ∧ t.notBefore.tag = 0x17 ∧ (t.notAfter.tag = 0x18 → after.year / 100 % 10 ≤ 2)
  others : ¬ IsTime t.notBefore ∨ ¬ IsTime t.notAfter →
    (t.version.isSome = true ∧ ¬ IsTime t.notAfter) ∨ (t.version = none ∧ ∃ name, issuerName t.bytes = .ok name)

theorem TimesReadable.decodes (hder : t.bytes.length < 2 ^ 64) (h : TimesReadable t) : TimesDecode t := by
  constructor
  · intro before after hbefore hafter hwrites hwrites'
    obtain ⟨hversion, htag, hhundreds⟩ := h.dates before after hbefore hafter hwrites hwrites'
    obtain ⟨w, -, -, hpoints⟩ := Certificate.walk hder hversion
    have hdecode := decodeValidity_dates hder hpoints hbefore hafter hwrites hwrites'
    rw [if_pos htag, if_pos hhundreds] at hdecode
    refine ⟨⟨w.parent, w.validityPtr, w.validityPtrs_eq, hdecode⟩, ?_⟩
    intro passes isPckCert cert hcert
    obtain ⟨parent₁, ptr₁, notBefore, notAfter, hptrs₁, hdecode₁, hcertBefore, hcertAfter, -⟩ :=
      decodeCert_success hcert
    rw [w.validityPtrs_unique hptrs₁, hdecode] at hdecode₁
    cases hdecode₁
    have hboundBefore := posixSeconds_bound hbefore hwrites.year
    have hboundAfter := posixSeconds_bound hafter hwrites'.year
    have hnatBefore : cert.notBefore.toNat = posixSeconds before := by
      rw [hcertBefore, BitVec.toNat_ofNat, Nat.mod_eq_of_lt (by omega)]
    have hnatAfter : cert.notAfter.toNat = posixSeconds after := by
      rw [hcertAfter, BitVec.toNat_ofNat, Nat.mod_eq_of_lt (by omega)]
    refine ⟨hnatBefore, hnatAfter, ?_⟩
    rw [BitVec.lt_def, hnatBefore, hnatAfter]
    exact posixSeconds_lt_iff hbefore hafter
  · intro hnot passes isPckCert
    rcases h.others hnot with ⟨hversion, hafter⟩ | ⟨hversion, hname⟩
    · obtain ⟨w, -, hissuer, hpoints⟩ := Certificate.walk hder hversion
      have hrefused : decodeValidity t.bytes w.validityPtr = .ok none := by
        rw [decodeValidity_eq hder hpoints, if_pos (Or.inr (not_or.mp hafter))]
      exact w.refused hrefused fun _ => ⟨_, w.issuerName_eq.trans hissuer⟩
    · obtain ⟨w, hrefused⟩ := Certificate.decodeValidity_subject hder hversion
      exact w.refused hrefused fun _ => hname

end Claim

section Sample

end Sample

end LineaSgxProver.Verifier.PEMCertChainLib
