import LineaSgxProver.Verifier.PEMCertChainLib

namespace LineaSgxProver.Verifier.PEMCertChainLib

open Library Der Asn1Decode NodePtr BytesUtils

structure Attribute where
  type : Tlv
  value : Tlv

/-- A set of attributes of a name. -/
structure RelativeName where
  first : Attribute
  rest : List Attribute

/-- A distinguished name that is not empty. -/
structure Name where
  first : RelativeName
  rest : List RelativeName

def Attribute.tlv (a : Attribute) : Tlv := sequenceOf [a.type, a.value]

def RelativeName.tlv (r : RelativeName) : Tlv := node 0x31 (r.first.tlv :: r.rest.map Attribute.tlv)

namespace Name

def tlvs (n : Name) : List Tlv := n.first.tlv :: n.rest.map RelativeName.tlv

def value (n : Name) : Tlv := n.first.first.value

end Name

/-- A certificate. The subject may be the empty name, and only with a version is there anything behind the
public key: unique identifiers and extensions. -/
structure Certificate where
  version : Option Tlv
  serialNumber : Tlv
  algorithm : Tlv
  issuer : Name
  notBefore : Tlv
  notAfter : Tlv
  subject : Option Name
  keyAlgorithm : Tlv
  keyParameters : List Tlv
  publicKey : Tlv
  afterKey : List Tlv
  signatureAlgorithm : List Tlv
  signature : Tlv
  afterKey_of_version : version = none → afterKey = []

namespace Certificate

variable (t : Certificate)

def issuerTlv : Tlv := sequenceOf t.issuer.tlvs

def validity : Tlv := sequenceOf [t.notBefore, t.notAfter]

def subjectTlv : Tlv := sequenceOf ((t.subject.map Name.tlvs).getD [])

def publicKeyInfo : Tlv := sequenceOf [sequenceOf (t.keyAlgorithm :: t.keyParameters), t.publicKey]

def fields : List Tlv :=
  t.version.toList ++
    [t.serialNumber, t.algorithm, t.issuerTlv, t.validity, t.subjectTlv, t.publicKeyInfo] ++ t.afterKey

def tbs : Tlv := sequenceOf t.fields

def bytes : Bytes := (sequenceOf [t.tbs, sequenceOf t.signatureAlgorithm, t.signature]).bytes

/-- What is read as the subject's name: with the empty name it is taken from the public key. -/
def subjectValue : Tlv :=
  match t.subject with
  | some n => n.value
  | none => t.keyParameters.headD t.publicKey

end Certificate

section Walk

variable {der : Bytes} {ptr stop : ℕ}

theorem nameValue_eq {n : Name} {rest : List Tlv} (hder : der.length < 2 ^ 64)
    (h : Points der ptr (sequenceOf n.tlvs) rest stop) : nameValue der ptr = .ok n.value.content := by
  obtain ⟨rdnPtr, hrdn, hpoints⟩ := h.child hder (sequenceOf_constructed _) rfl
  have hset : (0x31 : UInt8) &&& 0x20 = 0x20 := by decide
  obtain ⟨attributePtr, hattribute, hpoints⟩ := hpoints.child hder hset rfl
  obtain ⟨typePtr, htype, hpoints⟩ := hpoints.child hder (sequenceOf_constructed _) rfl
  obtain ⟨valuePtr, hvalue, hpoints⟩ := hpoints.next hder
  rw [nameValue]
  simp only [hrdn, hattribute, htype, hvalue, hpoints.bytesAt_eq hder, ok_bind]
  rfl

/-- The pointers that `decodeCert` goes along as far as the Validity. -/
structure Walk (der : Bytes) where
  parent : ℕ
  serialPtr : ℕ
  algorithmPtr : ℕ
  issuerPtr : ℕ
  validityPtr : ℕ
  number : Bytes
  serial : serialNumberPtrs der = .ok (parent, serialPtr)
  bytes : bytesAt der serialPtr = .ok number
  algorithm : nextSiblingOf der serialPtr = .ok algorithmPtr
  issuer : nextSiblingOf der algorithmPtr = .ok issuerPtr
  validity : nextSiblingOf der issuerPtr = .ok validityPtr

theorem Walk.validityPtrs_eq (w : Walk der) : validityPtrs der = .ok (w.parent, w.validityPtr) := by
  rw [validityPtrs]
  simp only [w.serial, w.algorithm, w.issuer, w.validity, ok_bind]

theorem Walk.decodeFields_eq [LibString] (w : Walk der) (isPckCert : Bool) :
    decodeFields der isPckCert =
      pckName der w.issuerPtr isPckCert pckIssuerName >>= fun found =>
        let cert := { emptyCert with
          serialNumber := w.number, pck := { emptyCert.pck with issuerName := found.1 } }
        if ! found.2 then .ok (.refused cert)
        else decodeFromValidity der isPckCert cert w.validityPtr w.parent := by
  rw [decodeFields]
  simp only [w.serial, w.bytes, w.algorithm, w.issuer, w.validity, ok_bind]

theorem Walk.fields_names [LibString] (w : Walk der) {isPckCert : Bool} {cert : ECSha256Certificate} {parent : ℕ}
    (h : decodeFields der isPckCert = .ok (.fields cert ptr parent)) :
    (∃ name, pckName der w.issuerPtr isPckCert pckIssuerName = .ok (name, true)) ∧
      ∃ subjectPtr name, nextSiblingOf der w.validityPtr = .ok subjectPtr ∧
        pckName der subjectPtr isPckCert pckCommonName = .ok (name, true) := by
  rw [w.decodeFields_eq] at h
  obtain ⟨⟨issuerName, expected⟩, hissuer, h⟩ := bind_eq_ok.mp h
  cases expected with
  | false => cases h
  | true =>
    refine ⟨⟨issuerName, hissuer⟩, ?_⟩
    obtain ⟨times, -, h⟩ := bind_eq_ok.mp h
    cases times with
    | none => cases h
    | some times =>
      obtain ⟨subjectPtr, hsubjectPtr, h⟩ := bind_eq_ok.mp h
      obtain ⟨⟨commonName, expected⟩, hsubject, h⟩ := bind_eq_ok.mp h
      cases expected with
      | false => cases h
      | true => exact ⟨subjectPtr, commonName, hsubjectPtr, hsubject⟩

theorem pckName_iff [LibString] {namePtr : ℕ} {value : Bytes} (h : nameValue der namePtr = .ok value)
    (isPckCert : Bool) (expected : Bytes) :
    (∃ name, pckName der namePtr isPckCert expected = .ok (name, true)) ↔
      (isPckCert = true → LibString.eq value expected = true) := by
  unfold pckName
  cases isPckCert with
  | false => exact iff_of_true ⟨[], rfl⟩ fun h => nomatch h
  | true =>
    rw [if_pos rfl, h, ok_bind]
    constructor
    · rintro ⟨name, hname⟩ -
      exact (Prod.mk.inj (Except.ok.inj hname)).2
    · intro heq
      exact ⟨value, by rw [heq rfl]⟩

theorem exists_walk {a b c d e : Tlv} {rest certRest : List Tlv} (hder : der.length < 2 ^ 64)
    (h : der = (sequenceOf (sequenceOf (a :: b :: c :: d :: e :: rest) :: certRest)).bytes) :
    ∃ w : Walk der, (∃ stop, Points der w.parent (sequenceOf (a :: b :: c :: d :: e :: rest)) certRest stop) ∧
      Points der w.issuerPtr d (e :: rest) (ixl w.parent + 1) ∧
      Points der w.validityPtr e rest (ixl w.parent + 1) := by
  obtain ⟨rootPtr, hroot, hpoints⟩ := root_points hder h
  obtain ⟨parent, hparent, htbs⟩ := hpoints.child hder (sequenceOf_constructed _) rfl
  obtain ⟨firstPtr, hfirst, hpoints⟩ := htbs.child hder (sequenceOf_constructed _) rfl
  obtain ⟨serialPtr, hserial, hpoints⟩ := hpoints.next hder
  have hnumber := hpoints.bytesAt_eq hder
  obtain ⟨algorithmPtr, halgorithm, hpoints⟩ := hpoints.next hder
  obtain ⟨issuerPtr, hissuer, hpoints⟩ := hpoints.next hder
  obtain ⟨validityPtr, hvalidity, hvalidityPoints⟩ := hpoints.next hder
  have hptrs : serialNumberPtrs der = .ok (parent, serialPtr) := by
    rw [serialNumberPtrs]
    simp only [hroot, hparent, hfirst, hserial, ok_bind]
  exact ⟨⟨parent, serialPtr, algorithmPtr, issuerPtr, validityPtr, b.content, hptrs, hnumber, halgorithm, hissuer,
    hvalidity⟩, ⟨_, htbs⟩, hpoints, hvalidityPoints⟩

end Walk

namespace Certificate

variable {t : Certificate}

theorem tbs_of_version {v : Tlv} (hversion : t.version = some v) :
    t.tbs = sequenceOf (v :: t.serialNumber :: t.algorithm :: t.issuerTlv :: t.validity :: t.subjectTlv ::
      t.publicKeyInfo :: t.afterKey) := by
  rw [tbs, fields, hversion]
  rfl

theorem tbs_of_none (hversion : t.version = none) :
    t.tbs = sequenceOf [t.serialNumber, t.algorithm, t.issuerTlv, t.validity, t.subjectTlv, t.publicKeyInfo] := by
  rw [tbs, fields, hversion, t.afterKey_of_version hversion]
  rfl

theorem walk (hder : t.bytes.length < 2 ^ 64) (hversion : t.version.isSome = true) :
    ∃ w : Walk t.bytes,
      (∃ stop, Points t.bytes w.parent t.tbs [sequenceOf t.signatureAlgorithm, t.signature] stop) ∧
      nameValue t.bytes w.issuerPtr = .ok t.issuer.value.content ∧
      Points t.bytes w.validityPtr t.validity (t.subjectTlv :: t.publicKeyInfo :: t.afterKey) (ixl w.parent + 1) := by
  obtain ⟨v, hv⟩ := Option.isSome_iff_exists.mp hversion
  have htbs := tbs_of_version hv
  have hbytes : t.bytes = (sequenceOf [t.tbs, sequenceOf t.signatureAlgorithm, t.signature]).bytes := rfl
  rw [htbs] at hbytes
  obtain ⟨w, hparent, hissuer, hvalidity⟩ := exists_walk hder hbytes
  rw [← htbs] at hparent
  exact ⟨w, hparent, nameValue_eq hder hissuer, hvalidity⟩

/-- Without a version every element is taken for the one before it. -/
theorem walk_of_none (hder : t.bytes.length < 2 ^ 64) (hversion : t.version = none) :
    ∃ w : Walk t.bytes,
      (∃ stop, Points t.bytes w.parent t.tbs [sequenceOf t.signatureAlgorithm, t.signature] stop) ∧
      Points t.bytes w.validityPtr t.subjectTlv [t.publicKeyInfo] (ixl w.parent + 1) := by
  have htbs := tbs_of_none hversion
  have hbytes : t.bytes = (sequenceOf [t.tbs, sequenceOf t.signatureAlgorithm, t.signature]).bytes := rfl
  rw [htbs] at hbytes
  obtain ⟨w, hparent, -, hsubject⟩ := exists_walk hder hbytes
  rw [← htbs] at hparent
  exact ⟨w, hparent, hsubject⟩

theorem subject_nameValue (hder : t.bytes.length < 2 ^ 64) {ptr stop : ℕ} {rest : List Tlv}
    (h : Points t.bytes ptr t.subjectTlv (t.publicKeyInfo :: rest) stop) :
    nameValue t.bytes ptr = .ok t.subjectValue.content := by
  unfold subjectTlv at h
  unfold subjectValue
  cases hsubject : t.subject with
  | some n =>
    rw [hsubject] at h
    exact nameValue_eq hder h
  | none =>
    -- the first child of the empty name is the element behind it
    rw [hsubject] at h
    obtain ⟨keyPtr, hkey, hkeyPoints⟩ := h.next hder
    have hfirst : firstChildOf t.bytes ptr = .ok keyPtr := by
      rw [h.firstChildOf_empty hder (sequenceOf_constructed _) rfl, hkey]
    obtain ⟨algorithmPtr, halgorithm, halgorithmPoints⟩ := hkeyPoints.child hder (sequenceOf_constructed _) rfl
    obtain ⟨oidPtr, hoid, hoidPoints⟩ := halgorithmPoints.child hder (sequenceOf_constructed _) rfl
    obtain ⟨valuePtr, hvalue, us, stop', hvaluePoints⟩ : ∃ valuePtr, nextSiblingOf t.bytes oidPtr = .ok valuePtr ∧
        ∃ us stop', Points t.bytes valuePtr (t.keyParameters.headD t.publicKey) us stop' := by
      cases hparameters : t.keyParameters with
      | nil =>
        rw [hparameters] at hoidPoints
        obtain ⟨publicKeyPtr, hpublicKey, hpoints⟩ := halgorithmPoints.next hder
        exact ⟨publicKeyPtr, (hoidPoints.leave hder).trans hpublicKey, _, _, hpoints⟩
      | cons p ps =>
        rw [hparameters] at hoidPoints
        obtain ⟨valuePtr, hvalue, hpoints⟩ := hoidPoints.next hder
        exact ⟨valuePtr, hvalue, _, _, hpoints⟩
    rw [nameValue]
    simp only [hfirst, halgorithm, hoid, hvalue, hvaluePoints.bytesAt_eq hder, ok_bind]

end Certificate

section Validity

open X509DateUtils

def IsTime (t : Tlv) : Prop := t.tag = 0x17 ∨ t.tag = 0x18

variable {t : Certificate} {der : Bytes} {ptr stop : ℕ} {rest : List Tlv}

theorem decodeValidity_eq (hder : der.length < 2 ^ 64) (h : Points der ptr t.validity rest stop) :
    decodeValidity der ptr =
      if (t.notBefore.tag ≠ 0x17 ∧ t.notBefore.tag = 0x18) ∨ (t.notAfter.tag ≠ 0x17 ∧ t.notAfter.tag ≠ 0x18) then
        .ok none
      else
        toTimestamp t.notBefore.content >>= fun notBefore =>
          toTimestamp t.notAfter.content >>= fun notAfter => .ok (some (notBefore, notAfter)) := by
  obtain ⟨beforePtr, hbefore, hbeforePoints⟩ := h.child hder (sequenceOf_constructed _) rfl
  obtain ⟨afterPtr, hafter, hafterPoints⟩ := hbeforePoints.next hder
  rw [decodeValidity]
  simp only [hbefore, hafter, hbeforePoints.tagAt_eq hder, hafterPoints.tagAt_eq hder,
    hbeforePoints.bytesAt_eq hder, hafterPoints.bytesAt_eq hder, ok_bind]

theorem refused_iff (a b : UInt8) :
    ((a ≠ 0x17 ∧ a = 0x18) ∨ (b ≠ 0x17 ∧ b ≠ 0x18)) ↔ ¬ (a ≠ 0x18 ∧ (b = 0x17 ∨ b = 0x18)) := by
  have hne : (0x18 : UInt8) ≠ 0x17 := by decide
  constructor
  · rintro (⟨-, h⟩ | ⟨h17, h18⟩) ⟨ha, hb⟩
    · exact ha h
    · exact hb.elim h17 h18
  · intro h
    by_cases ha : a = 0x18
    · exact Or.inl ⟨ha ▸ hne, ha⟩
    · exact Or.inr (not_or.mp fun hb => h ⟨ha, hb⟩)

theorem decodeValidity_some_iff (hder : der.length < 2 ^ 64) (h : Points der ptr t.validity rest stop) :
    (∃ times, decodeValidity der ptr = .ok (some times)) ↔
      (t.notBefore.tag ≠ 0x18 ∧ ∃ time, toTimestamp t.notBefore.content = .ok time) ∧
        IsTime t.notAfter ∧ ∃ time, toTimestamp t.notAfter.content = .ok time := by
  rw [decodeValidity_eq hder h]
  constructor
  · rintro ⟨times, heq⟩
    split_ifs at heq with hrefused
    · cases heq
    · obtain ⟨hbefore, hafter⟩ := not_not.mp (mt (refused_iff _ _).mpr hrefused)
      obtain ⟨notBefore, hnotBefore, heq⟩ := bind_eq_ok.mp heq
      obtain ⟨notAfter, hnotAfter, -⟩ := bind_eq_ok.mp heq
      exact ⟨⟨hbefore, notBefore, hnotBefore⟩, hafter, notAfter, hnotAfter⟩
  · rintro ⟨⟨hbefore, notBefore, hnotBefore⟩, hafter, notAfter, hnotAfter⟩
    have hrefused := mt (refused_iff t.notBefore.tag t.notAfter.tag).mp (not_not.mpr ⟨hbefore, hafter⟩)
    rw [if_neg hrefused, hnotBefore, hnotAfter]
    exact ⟨(notBefore, notAfter), rfl⟩

end Validity

section Refused

variable {der : Bytes} {ptr beforePtr afterPtr : ℕ} {before after : UInt8}

theorem decodeValidity_none (hbefore : firstChildOf der ptr = .ok beforePtr)
    (hafter : nextSiblingOf der beforePtr = .ok afterPtr) (hbeforeTag : tagAt der beforePtr = .ok before)
    (hafterTag : tagAt der afterPtr = .ok after) (h : after ≠ 0x17 ∧ after ≠ 0x18) :
    decodeValidity der ptr = .ok none := by
  rw [decodeValidity]
  simp only [hbefore, hafter, hbeforeTag, hafterTag, ok_bind]
  rw [if_pos (Or.inr h)]

end Refused

namespace Certificate

variable {t : Certificate}

/-- Without a version the subject is read as the Validity, and refused. -/
theorem decodeValidity_subject (hder : t.bytes.length < 2 ^ 64) (hversion : t.version = none) :
    ∃ w : Walk t.bytes, decodeValidity t.bytes w.validityPtr = .ok none := by
  obtain ⟨w, ⟨stop, hparent⟩, hpoints⟩ := walk_of_none hder hversion
  refine ⟨w, ?_⟩
  obtain ⟨keyPtr, hkey, hkeyPoints⟩ := hpoints.next hder
  have hset : (0x31 : UInt8) ≠ 0x17 ∧ (0x31 : UInt8) ≠ 0x18 := by decide
  have hsequence : (0x30 : UInt8) ≠ 0x17 ∧ (0x30 : UInt8) ≠ 0x18 := by decide
  unfold subjectTlv at hpoints
  cases hsubject : t.subject with
  | none =>
    rw [hsubject] at hpoints
    have hfirst := (hpoints.firstChildOf_empty hder (sequenceOf_constructed _) rfl).trans hkey
    obtain ⟨algorithmPtr, halgorithm, halgorithmPoints⟩ := hparent.next hder
    have hafter := (hkeyPoints.leave hder).trans halgorithm
    exact decodeValidity_none hfirst hafter (hkeyPoints.tagAt_eq hder) (halgorithmPoints.tagAt_eq hder) hsequence
  | some n =>
    rw [hsubject] at hpoints
    obtain ⟨firstPtr, hfirst, hfirstPoints⟩ := hpoints.child hder (sequenceOf_constructed _) rfl
    cases hrest : n.rest with
    | nil =>
      rw [hrest] at hfirstPoints
      have hafter := (hfirstPoints.leave hder).trans hkey
      exact decodeValidity_none hfirst hafter (hfirstPoints.tagAt_eq hder) (hkeyPoints.tagAt_eq hder) hsequence
    | cons r rs =>
      rw [hrest] at hfirstPoints
      obtain ⟨nextPtr, hnext, hnextPoints⟩ := hfirstPoints.next hder
      exact decodeValidity_none hfirst hnext (hfirstPoints.tagAt_eq hder) (hnextPoints.tagAt_eq hder) hset

end Certificate

section Sample

def sampleName (value : Bytes) : Name := ⟨⟨⟨⟨0x06, [0x55, 0x04, 0x03]⟩, ⟨0x0C, value⟩⟩, []⟩, []⟩

/-- The first second of 2020, as `YYMMDDHHMMSSZ`. -/
def sampleTime : Tlv := ⟨0x17, [0x32, 0x30, 0x30, 0x31, 0x30, 0x31, 0x30, 0x30, 0x30, 0x30, 0x30, 0x30, 0x5A]⟩

def sampleCertificate (notBefore notAfter : Tlv) (afterKey : List Tlv) (signature : Tlv) : Certificate where
  version := some (node 0xA0 [integer 2])
  serialNumber := integer 1
  algorithm := sequenceOf [⟨0x06, [0x2A]⟩]
  issuer := sampleName pckIssuerName
  notBefore := notBefore
  notAfter := notAfter
  subject := some (sampleName pckCommonName)
  keyAlgorithm := ⟨0x06, [0x2A]⟩
  keyParameters := []
  publicKey := ⟨0x03, 0x00 :: List.replicate 64 7⟩
  afterKey := afterKey
  signatureAlgorithm := [⟨0x06, [0x2A]⟩]
  signature := signature
  afterKey_of_version h := by cases h

end Sample

end LineaSgxProver.Verifier.PEMCertChainLib
