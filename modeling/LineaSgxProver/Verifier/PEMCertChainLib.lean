import LineaSgxProver.Verifier.AutomataDcapV3Attestation
import LineaSgxProver.Verifier.SplitCertificateChain
import LineaSgxProver.Verifier.X509DateUtils
import LineaSgxProver.Library.Loop

namespace LineaSgxProver.Verifier.PEMCertChainLib

open Library Asn1Decode BytesUtils NodePtr

/-- `Intel SGX PCK Certificate` -/
def pckCommonName : Bytes :=
  [0x49, 0x6e, 0x74, 0x65, 0x6c, 0x20, 0x53, 0x47, 0x58, 0x20, 0x50, 0x43, 0x4b, 0x20, 0x43, 0x65, 0x72, 0x74,
    0x69, 0x66, 0x69, 0x63, 0x61, 0x74, 0x65]

/-- `Intel SGX PCK Platform CA` -/
def pckIssuerName : Bytes :=
  [0x49, 0x6e, 0x74, 0x65, 0x6c, 0x20, 0x53, 0x47, 0x58, 0x20, 0x50, 0x43, 0x4b, 0x20, 0x50, 0x6c, 0x61, 0x74,
    0x66, 0x6f, 0x72, 0x6d, 0x20, 0x43, 0x41]

def sgxExtensionOid : Bytes := [0x2A, 0x86, 0x48, 0x86, 0xF8, 0x4D, 0x01, 0x0D, 0x01]

def tcbOid : Bytes := [0x2A, 0x86, 0x48, 0x86, 0xF8, 0x4D, 0x01, 0x0D, 0x01, 0x02]

def pcesvnOid : Bytes := [0x2A, 0x86, 0x48, 0x86, 0xF8, 0x4D, 0x01, 0x0D, 0x01, 0x02, 0x11]

def pceidOid : Bytes := [0x2A, 0x86, 0x48, 0x86, 0xF8, 0x4D, 0x01, 0x0D, 0x01, 0x03]

def fmspcOid : Bytes := [0x2A, 0x86, 0x48, 0x86, 0xF8, 0x4D, 0x01, 0x0D, 0x01, 0x04]

def sgxTcbCpusvnSize : ℕ := 16

def trimBytes (input : Bytes) (expectedLength : ℕ) : Checked Bytes :=
  if input.length ≤ expectedLength then .ok input
  else substring input (input.length - expectedLength) expectedLength

/-! `_findTcb` -/

/-- `uint16(bytes2(b))`, or the half of it that a single byte fills. -/
def svnValue (svnValueBytes : Bytes) : ℕ :=
  if svnValueBytes.length < 2 then BigEndian.decode ((svnValueBytes ++ [0, 0]).take 2) / 256
  else BigEndian.decode ((svnValueBytes ++ [0, 0]).take 2)

def findTcbFrom (der : Bytes) : ℕ → ℕ → ℕ → ℕ → List ℕ → Checked (ℕ × List ℕ)
  | 0, _, _, pcesvn, cpusvns => .ok (pcesvn, cpusvns)
  | passes + 1, i, svnParentPtr, pcesvn, cpusvns => do
    let svnPtr ← firstChildOf der svnParentPtr
    let svnValuePtr ← nextSiblingOf der svnPtr
    let svnValueBytes ← bytesAt der svnValuePtr
    let svn := svnValue svnValueBytes
    let oid ← bytesAt der svnPtr
    if compareBytes oid pcesvnOid then do
      let svnParentPtr ← nextSiblingOf der svnParentPtr
      findTcbFrom der passes (i + 1) svnParentPtr svn cpusvns
    else do
      let _ ← index cpusvns i
      let svnParentPtr ← nextSiblingOf der svnParentPtr
      findTcbFrom der passes (i + 1) svnParentPtr pcesvn (cpusvns.set i svn)

def findTcb (der : Bytes) (oidPtr : ℕ) : Checked (ℕ × List ℕ) := do
  let tcbPtr ← nextSiblingOf der oidPtr
  let svnParentPtr ← firstChildOf der tcbPtr
  findTcbFrom der (sgxTcbCpusvnSize + 1) 0 svnParentPtr 0 (List.replicate sgxTcbCpusvnSize 0)

/-! `_findPckTcbInfo` -/

structure PckTcbInfo where
  success : Bool
  pcesvn : ℕ
  cpusvns : List ℕ
  fmspcBytes : Bytes
  pceidBytes : Bytes
  deriving DecidableEq

structure PCKTCBFlags where
  fmspcFound : Bool
  pceidFound : Bool
  tcbFound : Bool
  deriving DecidableEq

def PCKTCBFlags.all (flags : PCKTCBFlags) : Bool := flags.fmspcFound && flags.pceidFound && flags.tcbFound

/-- Between two passes over the entries of the SGX extension. -/
structure EntryState where
  extnValuePtr : ℕ
  flags : PCKTCBFlags
  pcesvn : ℕ
  cpusvns : List ℕ
  fmspcBytes : Bytes
  pceidBytes : Bytes

def EntryState.result (s : EntryState) (success : Bool) : PckTcbInfo :=
  ⟨success, s.pcesvn, s.cpusvns, s.fmspcBytes, s.pceidBytes⟩

def readTcb (der : Bytes) (oid : Bytes) (oidPtr : ℕ) (s : EntryState) : Checked EntryState :=
  if compareBytes oid tcbOid then do
    let (pcesvn, cpusvns) ← findTcb der oidPtr
    .ok { s with flags := { s.flags with tcbFound := true }, pcesvn := pcesvn, cpusvns := cpusvns }
  else .ok s

def readPceid (der : Bytes) (oid : Bytes) (oidPtr : ℕ) (s : EntryState) : Checked EntryState :=
  if compareBytes oid pceidOid then do
    let pceidPtr ← nextSiblingOf der oidPtr
    let pceidBytes ← bytesAt der pceidPtr
    .ok { s with flags := { s.flags with pceidFound := true }, pceidBytes := pceidBytes }
  else .ok s

def readFmspc (der : Bytes) (oid : Bytes) (oidPtr : ℕ) (s : EntryState) : Checked EntryState :=
  if compareBytes oid fmspcOid then do
    let fmspcPtr ← nextSiblingOf der oidPtr
    let fmspcBytes ← bytesAt der fmspcPtr
    .ok { s with flags := { s.flags with fmspcFound := true }, fmspcBytes := fmspcBytes }
  else .ok s

def entryPass (der : Bytes) (extnValueParentPtr : ℕ) (s : EntryState) : Checked (Pass EntryState PckTcbInfo) :=
  if s.flags.all then .ok (.done (s.result true))
  else do
    let extnValueOidPtr ← firstChildOf der s.extnValuePtr
    let tag ← tagAt der extnValueOidPtr
    if tag ≠ 0x06 then .ok (.done (s.result false))
    else do
      let oid ← bytesAt der extnValueOidPtr
      let s ← readTcb der oid extnValueOidPtr s
      let s ← readPceid der oid extnValueOidPtr s
      let s ← readFmspc der oid extnValueOidPtr s
      if ixl s.extnValuePtr < ixl extnValueParentPtr then do
        let extnValuePtr ← nextSiblingOf der s.extnValuePtr
        .ok (.next { s with extnValuePtr := extnValuePtr })
      else .ok (.done (s.result s.flags.all))

/-- A pass over the extensions: it finds no SGX extension, or the pointers to one's value and to its first
entry, or it goes on. -/
def extensionPass (der : Bytes) (tbsParentPtr tbsPtr : ℕ) : Checked (Pass ℕ (Option (ℕ × ℕ))) :=
  if tbsPtr = 0 then .ok (.done none)
  else do
    let internalPtr ← firstChildOf der tbsPtr
    let tag ← tagAt der internalPtr
    if tag ≠ 0x06 then .ok (.done none)
    else do
      let oid ← bytesAt der internalPtr
      if compareBytes oid sgxExtensionOid then do
        let internalPtr ← nextSiblingOf der internalPtr
        let extnValueParentPtr ← rootOfOctetStringAt der internalPtr
        let extnValuePtr ← firstChildOf der extnValueParentPtr
        .ok (.done (some (extnValueParentPtr, extnValuePtr)))
      else if ixl tbsPtr < ixl tbsParentPtr then do
        let tbsPtr ← nextSiblingOf der tbsPtr
        .ok (.next tbsPtr)
      else .ok (.done none)

/-- `_findPckTcbInfo`, or `none` where so many passes of a loop do not end it. -/
def findPckTcbInfo (passes : ℕ) (der : Bytes) (tbsPtr tbsParentPtr : ℕ) : Option (Checked PckTcbInfo) :=
  match Loop.run (extensionPass der tbsParentPtr) passes tbsPtr with
  | none => none
  | some (.error e) => some (.error e)
  | some (.ok none) => some (.ok ⟨false, 0, [], [], []⟩)
  | some (.ok (some (extnValueParentPtr, extnValuePtr))) =>
    Loop.run (entryPass der extnValueParentPtr) passes ⟨extnValuePtr, ⟨false, false, false⟩, 0, [], [], []⟩

/-! `decodeCert` -/

def nameValue (der : Bytes) (namePtr : ℕ) : Checked Bytes := do
  let ptr ← firstChildOf der namePtr
  let ptr ← firstChildOf der ptr
  let ptr ← firstChildOf der ptr
  let ptr ← nextSiblingOf der ptr
  bytesAt der ptr

def decodeValidity (der : Bytes) (tbsPtr : ℕ) : Checked (Option (ℕ × ℕ)) := do
  let notBeforePtr ← firstChildOf der tbsPtr
  let notAfterPtr ← nextSiblingOf der notBeforePtr
  let notBeforeTag ← tagAt der notBeforePtr
  let notAfterTag ← tagAt der notAfterPtr
  if (notBeforeTag ≠ 0x17 ∧ notBeforeTag = 0x18) ∨ (notAfterTag ≠ 0x17 ∧ notAfterTag ≠ 0x18) then .ok none
  else do
    let notBeforeBytes ← bytesAt der notBeforePtr
    let notBefore ← X509DateUtils.toTimestamp notBeforeBytes
    let notAfterBytes ← bytesAt der notAfterPtr
    let notAfter ← X509DateUtils.toTimestamp notAfterBytes
    .ok (some (notBefore, notAfter))

def decodeSignature (der : Bytes) (tbsParentPtr : ℕ) : Checked Bytes := do
  let sigPtr ← nextSiblingOf der tbsParentPtr
  let sigPtr ← nextSiblingOf der sigPtr
  -- past the tag, the length and the count of unused bits
  let sigPtr := getPtr (ixs sigPtr + 3) (ixf sigPtr + 3) (ixl sigPtr)
  let sigPtr ← firstChildOf der sigPtr
  let r ← bytesAt der sigPtr
  let sigX ← trimBytes r 32
  let sigPtr ← nextSiblingOf der sigPtr
  let s ← bytesAt der sigPtr
  let sigY ← trimBytes s 32
  .ok (sigX ++ sigY)

def decodeKey (der : Bytes) (tbsPtr tbsParentPtr : ℕ) : Checked (Bytes × Bytes × Bytes) := do
  let subjectPublicKeyInfoPtr ← firstChildOf der tbsPtr
  let subjectPublicKeyInfoPtr ← nextSiblingOf der subjectPublicKeyInfoPtr
  let signature ← decodeSignature der tbsParentPtr
  let tbsCertificate ← allBytesAt der tbsParentPtr
  let key ← bytesAt der subjectPublicKeyInfoPtr
  let pubKey ← trimBytes key 64
  .ok (tbsCertificate, pubKey, signature)

def emptyCert : ECSha256Certificate := ⟨0, 0, [], [], [], [], false, ⟨[], [], ⟨[], [], 0, []⟩⟩⟩

/-- What `decodeCert` has where it reaches the extensions, or where it returns before. -/
inductive Decoded where
  | refused (cert : ECSha256Certificate)
  | fields (cert : ECSha256Certificate) (tbsPtr tbsParentPtr : ℕ)

section Decode

variable [LibString]

def pckName (der : Bytes) (namePtr : ℕ) (isPckCert : Bool) (expected : Bytes) : Checked (Bytes × Bool) :=
  if isPckCert then do
    let name ← nameValue der namePtr
    .ok (name, LibString.eq name expected)
  else .ok ([], true)

def decodeFromValidity (der : Bytes) (isPckCert : Bool) (cert : ECSha256Certificate)
    (tbsPtr tbsParentPtr : ℕ) : Checked Decoded := do
  match ← decodeValidity der tbsPtr with
  | none => .ok (.refused cert)
  | some (notBefore, notAfter) => do
    let cert := { cert with notBefore := BitVec.ofNat 256 notBefore, notAfter := BitVec.ofNat 256 notAfter }
    let tbsPtr ← nextSiblingOf der tbsPtr
    let (commonName, expected) ← pckName der tbsPtr isPckCert pckCommonName
    let cert := { cert with pck := { cert.pck with commonName := commonName } }
    if ! expected then .ok (.refused cert)
    else do
      let tbsPtr ← nextSiblingOf der tbsPtr
      let (tbsCertificate, pubKey, signature) ← decodeKey der tbsPtr tbsParentPtr
      .ok (.fields { cert with tbsCertificate := tbsCertificate, pubKey := pubKey, signature := signature }
        tbsPtr tbsParentPtr)

def serialNumberPtrs (der : Bytes) : Checked (ℕ × ℕ) := do
  let root ← root der
  let tbsParentPtr ← firstChildOf der root
  let tbsPtr ← firstChildOf der tbsParentPtr
  let tbsPtr ← nextSiblingOf der tbsPtr
  .ok (tbsParentPtr, tbsPtr)

def decodeFields (der : Bytes) (isPckCert : Bool) : Checked Decoded := do
  let (tbsParentPtr, tbsPtr) ← serialNumberPtrs der
  let serialNumber ← bytesAt der tbsPtr
  let cert := { emptyCert with serialNumber := serialNumber }
  let tbsPtr ← nextSiblingOf der tbsPtr
  let tbsPtr ← nextSiblingOf der tbsPtr
  let (issuerName, expected) ← pckName der tbsPtr isPckCert pckIssuerName
  let cert := { cert with pck := { cert.pck with issuerName := issuerName } }
  if ! expected then .ok (.refused cert)
  else do
    let tbsPtr ← nextSiblingOf der tbsPtr
    decodeFromValidity der isPckCert cert tbsPtr tbsParentPtr

def firstExtension (der : Bytes) (tbsPtr : ℕ) : Checked (Option ℕ) := do
  let tbsPtr ← nextSiblingOf der tbsPtr
  let tag ← tagAt der tbsPtr
  if tag ≠ 0xA3 then .ok none
  else do
    let tbsPtr ← firstChildOf der tbsPtr
    let tbsPtr ← firstChildOf der tbsPtr
    .ok (some tbsPtr)

def withTcbInfo (cert : ECSha256Certificate) (info : PckTcbInfo) : Bool × ECSha256Certificate :=
  if ! info.success then (false, cert)
  else
    (true, { cert with
      pck := { cert.pck with
        sgxExtension :=
          { pceid := LibString.toHexStringNoPrefix info.pceidBytes
            fmspc := LibString.toHexStringNoPrefix info.fmspcBytes
            pcesvn := BitVec.ofNat 256 info.pcesvn
            sgxTcbCompSvnArr := info.cpusvns.map (BitVec.ofNat 256) } }
      isPck := true })

def decodeExtensions (passes : ℕ) (der : Bytes) (cert : ECSha256Certificate) (tbsPtr tbsParentPtr : ℕ) :
    Option (Checked (Bool × ECSha256Certificate)) :=
  match firstExtension der tbsPtr with
  | .error e => some (.error e)
  | .ok none => some (.ok (false, cert))
  | .ok (some tbsPtr) =>
    (findPckTcbInfo passes der tbsPtr tbsParentPtr).map (Except.map (withTcbInfo cert))

/-- `none` where so many passes of a loop do not end it. -/
def decodeCert (passes : ℕ) (der : Bytes) (isPckCert : Bool) : Option (Checked (Bool × ECSha256Certificate)) :=
  match decodeFields der isPckCert with
  | .error e => some (.error e)
  | .ok (.refused cert) => some (.ok (false, cert))
  | .ok (.fields cert tbsPtr tbsParentPtr) =>
    if isPckCert then decodeExtensions passes der cert tbsPtr tbsParentPtr else some (.ok (true, cert))

def validityPtrs (der : Bytes) : Checked (ℕ × ℕ) := do
  let (tbsParentPtr, tbsPtr) ← serialNumberPtrs der
  let tbsPtr ← nextSiblingOf der tbsPtr
  let tbsPtr ← nextSiblingOf der tbsPtr
  let tbsPtr ← nextSiblingOf der tbsPtr
  .ok (tbsParentPtr, tbsPtr)

variable {der : Bytes} {isPckCert : Bool} {cert c : ECSha256Certificate} {passes tbsPtr tbsParentPtr : ℕ}

theorem withTcbInfo_keeps {info : PckTcbInfo} (h : withTcbInfo cert info = (true, c)) :
    c.notBefore = cert.notBefore ∧ c.notAfter = cert.notAfter ∧ c.signature = cert.signature := by
  unfold withTcbInfo at h
  split_ifs at h
  · cases h
  · cases h
    exact ⟨rfl, rfl, rfl⟩

theorem decodeExtensions_keeps (h : decodeExtensions passes der cert tbsPtr tbsParentPtr = some (.ok (true, c))) :
    c.notBefore = cert.notBefore ∧ c.notAfter = cert.notAfter ∧ c.signature = cert.signature := by
  unfold decodeExtensions at h
  cases hfirst : firstExtension der tbsPtr with
  | error e => simp [hfirst] at h
  | ok first =>
    rw [hfirst] at h
    cases first with
    | none => simp at h
    | some ptr =>
      obtain ⟨found, -, hfound⟩ := Option.map_eq_some_iff.mp h
      cases found with
      | error e => cases hfound
      | ok info => exact withTcbInfo_keeps (Except.ok.inj hfound)

theorem decodeFromValidity_fields {tbsPtr' : ℕ}
    (h : decodeFromValidity der isPckCert cert tbsPtr tbsParentPtr = .ok (.fields c tbsPtr' tbsParentPtr)) :
    ∃ notBefore notAfter, decodeValidity der tbsPtr = .ok (some (notBefore, notAfter)) ∧
      c.notBefore = BitVec.ofNat 256 notBefore ∧ c.notAfter = BitVec.ofNat 256 notAfter ∧
      decodeSignature der tbsParentPtr = .ok c.signature ∧
      nextSiblingOf der tbsPtr >>= nextSiblingOf der = .ok tbsPtr' := by
  unfold decodeFromValidity at h
  obtain ⟨times, htimes, h⟩ := bind_eq_ok.mp h
  cases times with
  | none => cases h
  | some times =>
    obtain ⟨notBefore, notAfter⟩ := times
    obtain ⟨subjectPtr, hsubject, h⟩ := bind_eq_ok.mp h
    obtain ⟨⟨commonName, expected⟩, -, h⟩ := bind_eq_ok.mp h
    cases expected with
    | false => cases h
    | true =>
      obtain ⟨keyPtr, hkeyPtr, h⟩ := bind_eq_ok.mp h
      obtain ⟨⟨tbsCertificate, pubKey, signature⟩, hkey, h⟩ := bind_eq_ok.mp h
      cases h
      unfold decodeKey at hkey
      obtain ⟨_, -, hkey⟩ := bind_eq_ok.mp hkey
      obtain ⟨_, -, hkey⟩ := bind_eq_ok.mp hkey
      obtain ⟨signature', hsignature, hkey⟩ := bind_eq_ok.mp hkey
      obtain ⟨_, -, hkey⟩ := bind_eq_ok.mp hkey
      obtain ⟨_, -, hkey⟩ := bind_eq_ok.mp hkey
      obtain ⟨_, -, hkey⟩ := bind_eq_ok.mp hkey
      cases hkey
      exact ⟨notBefore, notAfter, htimes, rfl, rfl, hsignature, bind_eq_ok.mpr ⟨subjectPtr, hsubject, hkeyPtr⟩⟩

theorem decodeFields_fields (h : decodeFields der isPckCert = .ok (.fields c tbsPtr tbsParentPtr)) :
    ∃ ptr notBefore notAfter, validityPtrs der = .ok (tbsParentPtr, ptr) ∧
      decodeValidity der ptr = .ok (some (notBefore, notAfter)) ∧ c.notBefore = BitVec.ofNat 256 notBefore ∧
      c.notAfter = BitVec.ofNat 256 notAfter ∧ decodeSignature der tbsParentPtr = .ok c.signature ∧
      nextSiblingOf der ptr >>= nextSiblingOf der = .ok tbsPtr := by
  unfold decodeFields at h
  obtain ⟨⟨parent, serialPtr⟩, hserial, h⟩ := bind_eq_ok.mp h
  obtain ⟨serialNumber, -, h⟩ := bind_eq_ok.mp h
  obtain ⟨algorithmPtr, halgorithm, h⟩ := bind_eq_ok.mp h
  obtain ⟨issuerPtr, hissuer, h⟩ := bind_eq_ok.mp h
  obtain ⟨⟨issuerName, expected⟩, -, h⟩ := bind_eq_ok.mp h
  cases expected with
  | false => cases h
  | true =>
    obtain ⟨ptr, hptr, h⟩ := bind_eq_ok.mp h
    have hparent : parent = tbsParentPtr := by
      obtain ⟨times, -, h⟩ := bind_eq_ok.mp h
      cases times with
      | none => cases h
      | some times =>
        obtain ⟨_, -, h⟩ := bind_eq_ok.mp h
        obtain ⟨⟨_, expected⟩, -, h⟩ := bind_eq_ok.mp h
        cases expected with
        | false => cases h
        | true =>
          obtain ⟨_, -, h⟩ := bind_eq_ok.mp h
          obtain ⟨_, -, h⟩ := bind_eq_ok.mp h
          cases h
          rfl
    subst hparent
    obtain ⟨notBefore, notAfter, hrest⟩ := decodeFromValidity_fields h
    refine ⟨ptr, notBefore, notAfter, ?_, hrest⟩
    rw [validityPtrs, hserial, ok_bind]
    simp only [halgorithm, hissuer, hptr, ok_bind]

theorem decodeCert_success (h : decodeCert passes der isPckCert = some (.ok (true, c))) :
    ∃ parent ptr notBefore notAfter, validityPtrs der = .ok (parent, ptr) ∧
      decodeValidity der ptr = .ok (some (notBefore, notAfter)) ∧ c.notBefore = BitVec.ofNat 256 notBefore ∧
      c.notAfter = BitVec.ofNat 256 notAfter ∧ decodeSignature der parent = .ok c.signature := by
  unfold decodeCert at h
  cases hfields : decodeFields der isPckCert with
  | error e => simp [hfields] at h
  | ok decoded =>
    rw [hfields] at h
    cases decoded with
    | refused cert => simp at h
    | fields cert tbsPtr parent =>
      obtain ⟨ptr, notBefore, notAfter, hptr, htimes, hbefore, hafter, hsignature, -⟩ := decodeFields_fields hfields
      refine ⟨parent, ptr, notBefore, notAfter, hptr, htimes, ?_⟩
      cases isPckCert with
      | false =>
        obtain rfl : cert = c := by simpa using h
        exact ⟨hbefore, hafter, hsignature⟩
      | true =>
        obtain ⟨hb, ha, hs⟩ := decodeExtensions_keeps h
        rw [hb, ha, hs]
        exact ⟨hbefore, hafter, hsignature⟩

end Decode

end LineaSgxProver.Verifier.PEMCertChainLib
