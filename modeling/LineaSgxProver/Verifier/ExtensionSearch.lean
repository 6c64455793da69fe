import LineaSgxProver.Verifier.SgxExtension

namespace LineaSgxProver.Verifier.PEMCertChainLib

open Library Der Asn1Decode NodePtr BytesUtils

section ExtensionLoop

variable {der : Bytes} {ptr ptr' parent stop : ℕ} {r : Checked PckTcbInfo}

def Finds (der : Bytes) (tbsPtr tbsParentPtr : ℕ) (r : Checked PckTcbInfo) : Prop :=
  ∃ passes, findPckTcbInfo passes der tbsPtr tbsParentPtr = some r

theorem finds_none (h : extensionPass der parent ptr = .ok (.done none)) :
    Finds der ptr parent (.ok ⟨false, 0, [], [], []⟩) := by
  refine ⟨1, ?_⟩
  rw [findPckTcbInfo, Loop.run_done h]

theorem finds_some {valueParent value : ℕ}
    (h : extensionPass der parent ptr = .ok (.done (some (valueParent, value))))
    (hends : Loop.Ends (entryPass der valueParent) ⟨value, ⟨false, false, false⟩, 0, [], [], []⟩ r) :
    Finds der ptr parent r := by
  obtain ⟨passes, hrun⟩ := hends
  refine ⟨passes + 1, ?_⟩
  rw [findPckTcbInfo, Loop.run_done h]
  exact Loop.run_mono hrun 1

theorem finds_next (h : Loop.Continues (extensionPass der parent) ptr ptr') (hfinds : Finds der ptr' parent r) :
    Finds der ptr parent r := by
  obtain ⟨passes, hrun⟩ := hfinds
  refine ⟨passes + 1, ?_⟩
  unfold findPckTcbInfo at hrun ⊢
  rw [Loop.run_next h]
  cases hloop : Loop.run (extensionPass der parent) passes ptr' with
  | none =>
    rw [hloop] at hrun
    cases hrun
  | some found =>
    rw [hloop] at hrun
    cases found with
    | error e => exact hrun
    | ok found =>
      cases found with
      | none => exact hrun
      | some ptrs => exact Loop.run_mono hrun 1

theorem findPckTcbInfo_mono {passes : ℕ} (h : findPckTcbInfo passes der ptr parent = some r) (k : ℕ) :
    findPckTcbInfo (passes + k) der ptr parent = some r := by
  unfold findPckTcbInfo at h ⊢
  cases hloop : Loop.run (extensionPass der parent) passes ptr with
  | none =>
    rw [hloop] at h
    cases h
  | some found =>
    rw [hloop] at h
    rw [Loop.run_mono hloop k]
    cases found with
    | error e => exact h
    | ok found =>
      cases found with
      | none => exact h
      | some ptrs => exact Loop.run_mono h k

theorem finds_unique {r' : Checked PckTcbInfo} (h : Finds der ptr parent r) (h' : Finds der ptr parent r') :
    r = r' := by
  obtain ⟨passes, hrun⟩ := h
  obtain ⟨passes', hrun'⟩ := h'
  have hsum := findPckTcbInfo_mono hrun passes'
  rw [Nat.add_comm, findPckTcbInfo_mono hrun' passes] at hsum
  exact (Option.some.inj hsum).symm

theorem strayPass_done {s : EntryState} {oid : Bytes} {us ws : List Tlv} (hder : der.length < 2 ^ 64)
    (h : Points der s.extnValuePtr (sequenceOf (⟨0x06, oid⟩ :: us)) ws stop) (hoid : oid ≠ tcbOid)
    (hus : us ≠ [] ∨ (oid ≠ pceidOid ∧ oid ≠ fmspcOid)) (hflags : s.flags.tcbFound = false)
    (hafter : ¬ ixl s.extnValuePtr < ixl parent) :
    ∃ info, entryPass der parent s = .ok (.done info) ∧ info.success = false := by
  obtain ⟨oidPtr, hoidPtr, hpoints⟩ := h.child hder (sequenceOf_constructed _) rfl
  have hall : s.flags.all = false := by rw [PCKTCBFlags.all, hflags, Bool.and_false]
  have htag : ¬ (0x06 : UInt8) ≠ 0x06 := by decide
  have htcb : readTcb der oid oidPtr s = .ok s := by
    rw [readTcb, compareBytes_false hoid]
    rfl
  have hpceid : ∃ s', readPceid der oid oidPtr s = .ok s' ∧ s'.flags.tcbFound = false := by
    unfold readPceid
    cases us with
    | nil =>
      rw [compareBytes_false (hus.resolve_left (by simp)).1]
      exact ⟨s, rfl, hflags⟩
    | cons u us =>
      obtain ⟨valuePtr, hvalue, hvaluePoints⟩ := hpoints.next hder
      rw [hvalue, ok_bind, hvaluePoints.bytesAt_eq hder, ok_bind]
      split_ifs
      · exact ⟨_, rfl, hflags⟩
      · exact ⟨s, rfl, hflags⟩
  obtain ⟨s', hpceid, hflags'⟩ := hpceid
  have hfmspc : ∃ s'', readFmspc der oid oidPtr s' = .ok s'' ∧ s''.flags.tcbFound = false := by
    unfold readFmspc
    cases us with
    | nil =>
      rw [compareBytes_false (hus.resolve_left (by simp)).2]
      exact ⟨s', rfl, hflags'⟩
    | cons u us =>
      obtain ⟨valuePtr, hvalue, hvaluePoints⟩ := hpoints.next hder
      rw [hvalue, ok_bind, hvaluePoints.bytesAt_eq hder, ok_bind]
      split_ifs
      · exact ⟨_, rfl, hflags'⟩
      · exact ⟨s', rfl, hflags'⟩
  obtain ⟨s'', hfmspc, hflags''⟩ := hfmspc
  have hptr : s''.extnValuePtr = s.extnValuePtr := by rw [readFmspc_ptr hfmspc, readPceid_ptr hpceid]
  refine ⟨s''.result s''.flags.all, ?_, ?_⟩
  · unfold entryPass
    rw [hall]
    simp only [hoidPtr, hpoints.tagAt_eq hder, hpoints.bytesAt_eq hder, htcb, hpceid, hfmspc, hptr, ok_bind,
      Bool.false_eq_true, if_false, if_neg htag, if_neg hafter]
  · change s''.flags.all = false
    rw [PCKTCBFlags.all, hflags'', Bool.and_false]

/-- An extension is no TCB entry: its value is not constructed. -/
theorem strayPass_error (parent : ℕ) {s : EntryState} {e : Extension} {ws : List Tlv} (hder : der.length < 2 ^ 64)
    (h : Points der s.extnValuePtr e.tlv ws stop) (hoid : e.extnId = tcbOid) (hflags : s.flags.tcbFound = false) :
    ∃ revert, entryPass der parent s = .error revert := by
  obtain ⟨oidPtr, hoidPtr, hpoints⟩ := h.child hder (sequenceOf_constructed _) rfl
  have hall : s.flags.all = false := by rw [PCKTCBFlags.all, hflags, Bool.and_false]
  have htag : ¬ (0x06 : UInt8) ≠ 0x06 := by decide
  have hprimitive : ∃ u us, e.afterId = u :: us ∧ ¬ u.tag &&& 0x20 = 0x20 := by
    have hboolean : ¬ (0x01 : UInt8) &&& 0x20 = 0x20 := by decide
    have hoctets : ¬ (0x04 : UInt8) &&& 0x20 = 0x20 := by decide
    unfold Extension.afterId
    split_ifs
    · exact ⟨_, _, rfl, hboolean⟩
    · exact ⟨_, _, rfl, hoctets⟩
  obtain ⟨u, us, hus, hu⟩ := hprimitive
  rw [hus] at hpoints
  obtain ⟨valuePtr, hvalue, hvaluePoints⟩ := hpoints.next hder
  have hchild : ∃ revert, firstChildOf der valuePtr = .error revert := by
    rw [firstChildOf, hvaluePoints.tagAt_eq hder, ok_bind, require, if_neg hu]
    exact ⟨_, rfl⟩
  obtain ⟨revert, hchild⟩ := hchild
  have htcb : readTcb der e.extnId oidPtr s = .error revert := by
    have hsame : compareBytes tcbOid tcbOid = true := by decide
    rw [readTcb, hoid, hsame, if_pos rfl, findTcb, hvalue, ok_bind, hchild, error_bind, error_bind]
  refine ⟨revert, ?_⟩
  unfold entryPass
  rw [hall]
  simp only [hoidPtr, hpoints.tagAt_eq hder, hpoints.bytesAt_eq hder, htcb, ok_bind, error_bind, Bool.false_eq_true,
    if_false, if_neg htag]

theorem extensionPass_other {e : Extension} {us : List Tlv} (hder : der.length < 2 ^ 64)
    (h : Points der ptr e.tlv us stop) (hid : e.extnId ≠ sgxExtensionOid) (parent : ℕ) :
    extensionPass der parent ptr =
      if ixl ptr < ixl parent then nextSiblingOf der ptr >>= fun ptr => .ok (.next ptr) else .ok (.done none) := by
  obtain ⟨oidPtr, hoidPtr, hpoints⟩ := h.child hder (sequenceOf_constructed _) rfl
  have htag : ¬ (0x06 : UInt8) ≠ 0x06 := by decide
  unfold extensionPass
  rw [if_neg (h.ne_zero hder)]
  simp only [hoidPtr, hpoints.tagAt_eq hder, hpoints.bytesAt_eq hder, compareBytes_false hid, ok_bind,
    Bool.false_eq_true, if_false, if_neg htag]

theorem extensionPass_sgx {entries : SgxEntries} {us : List Tlv} (hder : der.length < 2 ^ 64)
    (h : Points der ptr (Extension.sgx entries).tlv us stop) (parent : ℕ) :
    ∃ valueParent, Points der valueParent (sequenceOf (entries.list.map SgxEntry.tlv)) [] (ixl ptr + 1) ∧
      extensionPass der parent ptr =
        firstChildOf der valueParent >>= fun value => .ok (.done (some (valueParent, value))) := by
  obtain ⟨oidPtr, hoidPtr, hpoints⟩ := h.child hder (sequenceOf_constructed _) rfl
  obtain ⟨octetPtr, hoctet, hoctetPoints⟩ := hpoints.next hder
  obtain ⟨valueParent, hvalue, hvaluePoints⟩ := hoctetPoints.octets hder rfl
    (show (Extension.sgx entries).extnValue = encodeAll [sequenceOf (entries.list.map SgxEntry.tlv)] by
      simp [Extension.extnValue])
  have htag : ¬ (0x06 : UInt8) ≠ 0x06 := by decide
  have hsame : compareBytes sgxExtensionOid sgxExtensionOid = true := by decide
  refine ⟨valueParent, ?_, ?_⟩
  · rw [← hoctetPoints.ixl_last hder]
    exact hvaluePoints
  · unfold extensionPass
    rw [if_neg (h.ne_zero hder)]
    simp only [hoidPtr, hpoints.tagAt_eq hder, hpoints.bytesAt_eq hder, Extension.extnId, hsame, hoctet, hvalue,
      ok_bind, if_true, if_neg htag]

end ExtensionLoop

/-- An SGX extension without entries stands before an extension that is named as the TCB is. -/
def MisreadsNext : List Extension → Prop
  | [] => False
  | .sgx entries :: rest => entries.list = [] ∧ ∃ e, rest.head? = some e ∧ e.extnId = tcbOid
  | .other _ _ _ _ :: rest => MisreadsNext rest

section Extensions

variable {der : Bytes} {ptr parent stop : ℕ}

theorem sgx_finds {entries : SgxEntries} {us : List Tlv} (hder : der.length < 2 ^ 64)
    (h : Points der ptr (Extension.sgx entries).tlv us stop) (hentries : entries.list ≠ []) (parent : ℕ) :
    ∃ info, Finds der ptr parent (.ok info) ∧ Reports (entriesInfo entries.list) info := by
  obtain ⟨valueParent, hparent, hpass⟩ := extensionPass_sgx hder h parent
  obtain ⟨e, rest, hlist⟩ := List.exists_cons_of_ne_nil hentries
  rw [hlist, List.map_cons] at hparent
  obtain ⟨value, hvalue, hpoints⟩ := hparent.child hder (sequenceOf_constructed _) rfl
  rw [hvalue, ok_bind] at hpass
  have hstart : EntryState.Seen ⟨value, ⟨false, false, false⟩, 0, [], [], []⟩ [] := ⟨rfl, rfl, rfl⟩
  obtain ⟨info, hends, hreports⟩ := entries_end hder hpoints hstart hlist
  exact ⟨info, finds_some hpass hends, hreports⟩

theorem empty_sgx_pass {entries : SgxEntries} {us : List Tlv} (hder : der.length < 2 ^ 64)
    (h : Points der ptr (Extension.sgx entries).tlv us stop) (hentries : entries.list = []) (parent : ℕ) :
    ∃ valueParent, ixl valueParent = ixl ptr ∧
      extensionPass der parent ptr =
        nextSiblingOf der ptr >>= fun value => .ok (.done (some (valueParent, value))) := by
  obtain ⟨valueParent, hparent, hpass⟩ := extensionPass_sgx hder h parent
  have hlast := hparent.ixl_last hder
  have hchild : firstChildOf der valueParent = nextSiblingOf der ptr :=
    (hparent.firstChildOf_empty hder (sequenceOf_constructed _) (by rw [hentries]; rfl)).trans (hparent.leave hder)
  refine ⟨valueParent, by omega, ?_⟩
  rw [hpass, hchild]

theorem after_ixl {t : Tlv} {us : List Tlv} {next : ℕ} (hder : der.length < 2 ^ 64)
    (hnext : nextSiblingOf der ptr = .ok next) (h : Points der next t us stop) : ixl ptr < ixl next := by
  have hixs : ixs next = ixl ptr + 1 := ixs_readNodeLength hder hnext
  have hlt := h.ixs_lt hder
  omega

theorem empty_sgx_finds {entries : SgxEntries} {us vs ws : List Tlv} {next stop' : ℕ} {oid : Bytes}
    (hder : der.length < 2 ^ 64) (h : Points der ptr (Extension.sgx entries).tlv us stop)
    (hentries : entries.list = []) (hnext : nextSiblingOf der ptr = .ok next)
    (hpoints : Points der next (sequenceOf (⟨0x06, oid⟩ :: vs)) ws stop') (hoid : oid ≠ tcbOid)
    (hvs : vs ≠ [] ∨ (oid ≠ pceidOid ∧ oid ≠ fmspcOid)) (parent : ℕ) :
    ∃ info, Finds der ptr parent (.ok info) ∧ Reports (entriesInfo entries.list) info := by
  obtain ⟨valueParent, hixl, hpass⟩ := empty_sgx_pass hder h hentries parent
  rw [hnext, ok_bind] at hpass
  have hless := after_ixl hder hnext hpoints
  have hafter : ¬ ixl next < ixl valueParent := by omega
  obtain ⟨info, hdone, hfail⟩ := strayPass_done
    (s := ⟨next, ⟨false, false, false⟩, 0, [], [], []⟩) hder hpoints hoid hvs rfl hafter
  refine ⟨info, finds_some hpass (Loop.ends_done hdone), ?_⟩
  rw [hentries, Reports, hfail]
  rfl

theorem afterId_ne_nil (e : Extension) : e.afterId ≠ [] := by
  unfold Extension.afterId
  split_ifs <;> exact List.cons_ne_nil _ _

theorem extensions_find {e : Extension} {rest : List Extension} {vs ws : List Tlv} {algorithmPtr : ℕ}
    (hder : der.length < 2 ^ 64) (h : Points der ptr e.tlv (rest.map Extension.tlv) (ixl parent + 1))
    (halgorithm : nextSiblingOf der parent = .ok algorithmPtr)
    (hpoints : Points der algorithmPtr (sequenceOf (⟨0x06, ecdsaWithSha256⟩ :: vs)) ws stop) :
    (¬ MisreadsNext (e :: rest) →
      ∃ info, Finds der ptr parent (.ok info) ∧ Reports (extensionsInfo (e :: rest)) info) ∧
      (MisreadsNext (e :: rest) → ∃ revert, Finds der ptr parent (.error revert)) := by
  induction rest generalizing ptr e with
  | nil =>
    have hlast := h.ixl_last hder
    cases e with
    | other extnId critical extnValue ne =>
      have hpass := extensionPass_other hder h ne parent
      rw [if_neg (by omega)] at hpass
      exact ⟨fun _ => ⟨_, finds_none hpass, rfl⟩, fun hmisreads => hmisreads.elim⟩
    | sgx entries =>
      constructor
      · intro _
        by_cases hentries : entries.list = []
        · have hixl : ixl ptr = ixl parent := by omega
          have hnext : nextSiblingOf der ptr = .ok algorithmPtr := by
            rw [← halgorithm, nextSiblingOf, hixl]
            rfl
          exact empty_sgx_finds hder h hentries hnext hpoints (by decide) (Or.inr (by decide)) parent
        · exact sgx_finds hder h hentries parent
      · rintro ⟨-, e, he, -⟩
        cases he
  | cons u rest ih =>
    have hless := h.ixl_lt hder
    obtain ⟨next, hnext, hnextPoints⟩ := h.next hder
    cases e with
    | other extnId critical extnValue ne =>
      have hpass := extensionPass_other hder h ne parent
      rw [if_pos (by omega), hnext, ok_bind] at hpass
      obtain ⟨hread, hmisread⟩ := ih hnextPoints
      constructor
      · intro hmisreads
        obtain ⟨info, hfinds, hreports⟩ := hread hmisreads
        exact ⟨info, finds_next hpass hfinds, hreports⟩
      · intro hmisreads
        obtain ⟨revert, hfinds⟩ := hmisread hmisreads
        exact ⟨revert, finds_next hpass hfinds⟩
    | sgx entries =>
      constructor
      · intro hmisreads
        by_cases hentries : entries.list = []
        · have hid : u.extnId ≠ tcbOid := fun hid => hmisreads ⟨hentries, u, rfl, hid⟩
          exact empty_sgx_finds hder h hentries hnext hnextPoints hid (Or.inl (afterId_ne_nil u)) parent
        · exact sgx_finds hder h hentries parent
      · rintro ⟨hentries, _, hu, hid⟩
        cases hu
        obtain ⟨valueParent, -, hpass⟩ := empty_sgx_pass hder h hentries parent
        rw [hnext, ok_bind] at hpass
        obtain ⟨revert, herror⟩ := strayPass_error valueParent
          (s := ⟨next, ⟨false, false, false⟩, 0, [], [], []⟩) hder hnextPoints hid rfl
        exact ⟨revert, finds_some hpass (Loop.ends_error herror)⟩

end Extensions

section Claim

def siblingAfter (der : Bytes) : ℕ → ℕ → Checked ℕ
  | 0, ptr => .ok ptr
  | n + 1, ptr => do
    let ptr ← nextSiblingOf der ptr
    siblingAfter der n ptr

/-- The tbsCertificate and the first of the extensions, which stand after so many of its fields. -/
def extensionPtrs (der : Bytes) (fields : ℕ) : Checked (ℕ × ℕ) := do
  let root ← root der
  let tbsParentPtr ← firstChildOf der root
  let tbsPtr ← firstChildOf der tbsParentPtr
  let tbsPtr ← siblingAfter der fields tbsPtr
  let tbsPtr ← firstChildOf der tbsPtr
  let tbsPtr ← firstChildOf der tbsPtr
  .ok (tbsParentPtr, tbsPtr)

/-- From the first extension on, the three fields are found, or it is found that one is not there. -/
def FieldsFound (t : PckCert) : Prop :=
  ∃ tbsParentPtr tbsPtr info, extensionPtrs t.bytes t.fields.length = .ok (tbsParentPtr, tbsPtr) ∧
    Finds t.bytes tbsPtr tbsParentPtr (.ok info) ∧ Reports (extensionsInfo t.extensions) info

theorem siblingAfter_points {der : Bytes} {ptr stop : ℕ} {t u : Tlv} {ts rest us : List Tlv}
    (hder : der.length < 2 ^ 64) (h : Points der ptr t rest stop) (hts : t :: rest = ts ++ u :: us) :
    ∃ ptr', siblingAfter der ts.length ptr = .ok ptr' ∧ Points der ptr' u us stop := by
  induction ts generalizing ptr t rest with
  | nil =>
    cases hts
    exact ⟨ptr, rfl, h⟩
  | cons v ts ih =>
    obtain ⟨rfl, hrest⟩ := List.cons.inj hts
    obtain ⟨w, ws, hws⟩ : ∃ w ws, ts ++ u :: us = w :: ws := by
      cases ts with
      | nil => exact ⟨u, us, rfl⟩
      | cons w ts => exact ⟨w, ts ++ u :: us, rfl⟩
    have hrest' : rest = w :: ws := hrest.trans hws
    rw [hrest'] at h
    obtain ⟨next, hnext, hpoints⟩ := h.next hder
    obtain ⟨ptr', hptr', hpoints'⟩ := ih hpoints hws.symm
    refine ⟨ptr', ?_, hpoints'⟩
    rw [List.length_cons, siblingAfter, hnext, ok_bind, hptr']

theorem extensionPtrs_points (t : PckCert) (hder : t.bytes.length < 2 ^ 64) {e : Extension} {rest : List Extension}
    (hextensions : t.extensions = e :: rest) :
    ∃ tbsParentPtr tbsPtr algorithmPtr stop, extensionPtrs t.bytes t.fields.length = .ok (tbsParentPtr, tbsPtr) ∧
      Points t.bytes tbsPtr e.tlv (rest.map Extension.tlv) (ixl tbsParentPtr + 1) ∧
      nextSiblingOf t.bytes tbsParentPtr = .ok algorithmPtr ∧
      Points t.bytes algorithmPtr (sequenceOf (⟨0x06, ecdsaWithSha256⟩ :: t.parameters)) [t.signature] stop := by
  obtain ⟨rootPtr, hroot, hpoints⟩ := root_points hder rfl
  obtain ⟨tbsParentPtr, hparent, hpoints⟩ := hpoints.child hder (sequenceOf_constructed _) rfl
  obtain ⟨algorithmPtr, halgorithm, halgorithmPoints⟩ := hpoints.next hder
  obtain ⟨u, us, hus⟩ : ∃ u us, t.fields ++ [node 0xA3 [sequenceOf (t.extensions.map Extension.tlv)]] = u :: us :=
    List.exists_cons_of_ne_nil (by simp)
  have htbs : t.tbs.content = encodeAll (u :: us) := by
    rw [← hus]
    rfl
  obtain ⟨fieldPtr, hfield, hfieldPoints⟩ := hpoints.child hder (sequenceOf_constructed _) htbs
  obtain ⟨markedPtr, hmarked, hmarkedPoints⟩ := siblingAfter_points hder hfieldPoints hus.symm
  have hconstructed : (0xA3 : UInt8) &&& 0x20 = 0x20 := by decide
  obtain ⟨listPtr, hlist, hlistPoints⟩ := hmarkedPoints.child hder hconstructed rfl
  have hcontent : (sequenceOf (t.extensions.map Extension.tlv)).content =
      encodeAll (e.tlv :: rest.map Extension.tlv) := by
    rw [hextensions]
    rfl
  obtain ⟨tbsPtr, htbsPtr, htbsPoints⟩ := hlistPoints.child hder (sequenceOf_constructed _) hcontent
  refine ⟨tbsParentPtr, tbsPtr, algorithmPtr, _, ?_, ?_, halgorithm, halgorithmPoints⟩
  · rw [extensionPtrs]
    simp only [hroot, hparent, hfield, hmarked, hlist, htbsPtr, ok_bind]
  · rw [← hmarkedPoints.ixl_last hder, ← hlistPoints.ixl_last hder]
    exact htbsPoints

theorem fieldsFound_iff (t : PckCert) (hder : t.bytes.length < 2 ^ 64) :
    FieldsFound t ↔ ¬ MisreadsNext t.extensions := by
  obtain ⟨e, rest, hextensions⟩ := List.exists_cons_of_ne_nil t.extensions_ne
  obtain ⟨tbsParentPtr, tbsPtr, algorithmPtr, stop, hptrs, hpoints, halgorithm, halgorithmPoints⟩ :=
    extensionPtrs_points t hder hextensions
  obtain ⟨hread, hmisread⟩ := extensions_find hder hpoints halgorithm halgorithmPoints
  constructor
  · rintro ⟨tbsParentPtr', tbsPtr', info, hptrs', hfinds, -⟩ hmisreads
    rw [hptrs] at hptrs'
    cases hptrs'
    rw [hextensions] at hmisreads
    obtain ⟨revert, herror⟩ := hmisread hmisreads
    cases finds_unique hfinds herror
  · intro hmisreads
    rw [hextensions] at hmisreads
    obtain ⟨info, hfinds, hreports⟩ := hread hmisreads
    exact ⟨tbsParentPtr, tbsPtr, info, hptrs, hfinds, hextensions ▸ hreports⟩

/-- In a certificate with these extensions `decodeCert` finds the fields where no extension is misread and
they are there. -/
theorem tcbInfoFound_iff {t : Certificate} (hder : t.bytes.length < 2 ^ 64) (hversion : t.version.isSome = true)
    {e : Extension} {rest : List Extension} {parameters : List Tlv}
    (hafter : t.afterKey = [node 0xA3 [sequenceOf ((e :: rest).map Extension.tlv)]])
    (halgorithm : t.signatureAlgorithm = ⟨0x06, ecdsaWithSha256⟩ :: parameters) :
    TcbInfoFound t.bytes ↔ ¬ MisreadsNext (e :: rest) ∧ (extensionsInfo (e :: rest)).isSome = true := by
  obtain ⟨w, ⟨stop, hparent⟩, -, hpoints⟩ := Certificate.walk hder hversion
  rw [halgorithm] at hparent
  rw [hafter] at hpoints
  obtain ⟨algorithmPtr, halgorithmPtr, halgorithmPoints⟩ := hparent.next hder
  obtain ⟨subjectPtr, hsubject, hpoints⟩ := hpoints.next hder
  obtain ⟨keyPtr, hkey, hpoints⟩ := hpoints.next hder
  obtain ⟨markedPtr, hmarked, hmarkedPoints⟩ := hpoints.next hder
  have hconstructed : (0xA3 : UInt8) &&& 0x20 = 0x20 := by decide
  obtain ⟨listPtr, hlist, hlistPoints⟩ := hmarkedPoints.child hder hconstructed rfl
  obtain ⟨tbsPtr, htbs, htbsPoints⟩ := hlistPoints.child hder (sequenceOf_constructed _) rfl
  rw [hlistPoints.ixl_last hder, hmarkedPoints.ixl_last hder] at htbsPoints
  have hptrs : keyPtrs t.bytes = .ok (w.parent, keyPtr) := by
    rw [keyPtrs, w.validityPtrs_eq]
    simp only [hsubject, hkey, ok_bind]
  have hfirst : firstExtension t.bytes keyPtr = .ok (some tbsPtr) := by
    have htag : ¬ (0xA3 : UInt8) ≠ 0xA3 := by decide
    rw [firstExtension]
    simp only [hmarked, hmarkedPoints.tagAt_eq hder, node, if_neg htag, hlist, htbs, ok_bind]
  obtain ⟨hread, hmisread⟩ := extensions_find hder htbsPoints halgorithmPtr halgorithmPoints
  constructor
  · rintro ⟨parent', keyPtr', tbsPtr', passes, info, hptrs', hfirst', hfound, hsuccess⟩
    obtain ⟨rfl, rfl⟩ := Prod.mk.inj (Except.ok.inj (hptrs.symm.trans hptrs'))
    obtain rfl := Option.some.inj (Except.ok.inj (hfirst.symm.trans hfirst'))
    have hnot : ¬ MisreadsNext (e :: rest) := by
      intro hmisreads
      obtain ⟨revert, herror⟩ := hmisread hmisreads
      cases finds_unique ⟨passes, hfound⟩ herror
    obtain ⟨info', hfinds, hreports⟩ := hread hnot
    obtain rfl := Except.ok.inj (finds_unique ⟨passes, hfound⟩ hfinds)
    rw [Reports, if_pos hsuccess] at hreports
    exact ⟨hnot, by rw [hreports]; rfl⟩
  · rintro ⟨hnot, hsome⟩
    obtain ⟨info, ⟨passes, hfound⟩, hreports⟩ := hread hnot
    refine ⟨w.parent, keyPtr, tbsPtr, passes, info, hptrs, hfirst, hfound, ?_⟩
    by_contra hfail
    rw [Reports, if_neg hfail] at hreports
    rw [hreports] at hsome
    cases hsome

end Claim

section Sample

def sampleLevel : TcbLevel where
  compSvns := [0, 1, 127, 128, 255, 256, 32767, 7, 8, 9, 10, 11, 12, 13, 14, 15]
  pcesvn := 300
  cpusvn := ⟨0x04, List.replicate 16 7⟩
  compSvns_length := rfl
  compSvns_lt := by decide
  pcesvn_lt := by decide

def sampleEntries : SgxEntries where
  list := [.fmspc [0, 1, 2, 3, 4, 5], .other [0x2A] [] (by decide), .tcb sampleLevel, .pceid [6, 7]]
  svns_unique := by decide
  pceid_unique := by decide
  fmspc_unique := by decide

def samplePckCert (extensions : List Extension) (h : extensions ≠ []) : PckCert where
  fields := (sampleCertificate sampleTime sampleTime [] (signatureValue (2 ^ 247) (2 ^ 255))).fields
  extensions := extensions
  parameters := []
  signature := signatureValue (2 ^ 247) (2 ^ 255)
  extensions_ne := h

def sampleFound : PckCert :=
  samplePckCert [.other [0x55, 0x1D, 0x0F] true [] (by decide), .sgx sampleEntries,
    .other tcbOid false [] (by decide)] (by simp)

theorem fieldsFound_iff_sample : FieldsFound sampleFound := by
  have hder : sampleFound.bytes.length < 2 ^ 64 := by
    decide +kernel
  refine (fieldsFound_iff sampleFound hder).mpr ?_
  rintro ⟨hempty, -⟩
  cases hempty

def sampleMisread : PckCert :=
  samplePckCert [.sgx ⟨[], by decide, by decide, by decide⟩, .other tcbOid false [] (by decide)] (by simp)

theorem fieldsFound_fails : ¬ FieldsFound sampleMisread := by
  have hptrs : extensionPtrs sampleMisread.bytes sampleMisread.fields.length =
      .ok (getPtr 4 7 238, getPtr 206 208 222) := by
    decide +kernel
  have hrun : findPckTcbInfo 3 sampleMisread.bytes (getPtr 206 208 222) (getPtr 4 7 238) =
      some (.error (.reason "Not a constructed type")) := by
    decide +kernel
  rintro ⟨tbsParentPtr, tbsPtr, info, hptrs', hfinds, -⟩
  rw [hptrs] at hptrs'
  cases hptrs'
  cases finds_unique ⟨3, hrun⟩ hfinds

end Sample

end LineaSgxProver.Verifier.PEMCertChainLib
