import LineaSgxProver.Verifier.CertTraversal

namespace LineaSgxProver.Verifier.PEMCertChainLib

open Library Der Asn1Decode NodePtr BytesUtils

/-! The SGX extension of a certificate. -/

structure TcbLevel where
  compSvns : List ℕ
  pcesvn : ℕ
  cpusvn : Tlv
  compSvns_length : compSvns.length = sgxTcbCpusvnSize
  compSvns_lt : ∀ n ∈ compSvns, n < 2 ^ 15
  pcesvn_lt : pcesvn < 2 ^ 15

def componentSvn (i n : ℕ) : Tlv := sequenceOf [⟨0x06, tcbOid ++ [UInt8.ofNat (i + 1)]⟩, integer n]

def cpusvnOid : Bytes := [0x2A, 0x86, 0x48, 0x86, 0xF8, 0x4D, 0x01, 0x0D, 0x01, 0x02, 0x12]

def svnElements (pcesvn : ℕ) (cpusvn : Tlv) : ℕ → List ℕ → List Tlv
  | _, [] => [sequenceOf [⟨0x06, pcesvnOid⟩, integer pcesvn], sequenceOf [⟨0x06, cpusvnOid⟩, cpusvn]]
  | i, n :: ns => componentSvn i n :: svnElements pcesvn cpusvn (i + 1) ns

def TcbLevel.tlv (l : TcbLevel) : Tlv := sequenceOf (svnElements l.pcesvn l.cpusvn 0 l.compSvns)

inductive SgxEntry where
  | tcb (level : TcbLevel)
  | pceid (bytes : Bytes)
  | fmspc (bytes : Bytes)
  | other (oid : Bytes) (value : List Tlv) (ne : oid ≠ tcbOid ∧ oid ≠ pceidOid ∧ oid ≠ fmspcOid)

namespace SgxEntry

def oid : SgxEntry → Bytes
  | tcb _ => tcbOid
  | pceid _ => pceidOid
  | fmspc _ => fmspcOid
  | other oid _ _ => oid

def value : SgxEntry → List Tlv
  | tcb level => [level.tlv]
  | pceid bytes => [⟨0x04, bytes⟩]
  | fmspc bytes => [⟨0x04, bytes⟩]
  | other _ value _ => value

def tlv (e : SgxEntry) : Tlv := sequenceOf (⟨0x06, e.oid⟩ :: e.value)

def svns? : SgxEntry → Option (ℕ × List ℕ)
  | tcb level => some (level.pcesvn, level.compSvns)
  | _ => none

def pceid? : SgxEntry → Option Bytes
  | pceid bytes => some bytes
  | _ => none

def fmspc? : SgxEntry → Option Bytes
  | fmspc bytes => some bytes
  | _ => none

end SgxEntry

/-- Entries of which no two are the TCB, the PCEID or the FMSPC. -/
structure SgxEntries where
  list : List SgxEntry
  svns_unique : (list.filterMap SgxEntry.svns?).length ≤ 1
  pceid_unique : (list.filterMap SgxEntry.pceid?).length ≤ 1
  fmspc_unique : (list.filterMap SgxEntry.fmspc?).length ≤ 1

inductive Extension where
  | sgx (entries : SgxEntries)
  | other (extnId : Bytes) (critical : Bool) (extnValue : Bytes) (ne : extnId ≠ sgxExtensionOid)

namespace Extension

def extnId : Extension → Bytes
  | sgx _ => sgxExtensionOid
  | other extnId _ _ _ => extnId

def critical : Extension → Bool
  | sgx _ => false
  | other _ critical _ _ => critical

def extnValue : Extension → Bytes
  | sgx entries => (sequenceOf (entries.list.map SgxEntry.tlv)).bytes
  | other _ _ extnValue _ => extnValue

/-- `BOOLEAN DEFAULT FALSE` and the value. -/
def afterId (e : Extension) : List Tlv :=
  if e.critical then [⟨0x01, [0xFF]⟩, ⟨0x04, e.extnValue⟩] else [⟨0x04, e.extnValue⟩]

def tlv (e : Extension) : Tlv := sequenceOf (⟨0x06, e.extnId⟩ :: e.afterId)

def entries? : Extension → Option SgxEntries
  | sgx entries => some entries
  | other _ _ _ _ => none

end Extension

/-- `ecdsa-with-SHA256` -/
def ecdsaWithSha256 : Bytes := [0x2A, 0x86, 0x48, 0xCE, 0x3D, 0x04, 0x03, 0x02]

structure PckCert where
  /-- The fields before the extensions. -/
  fields : List Tlv
  extensions : List Extension
  parameters : List Tlv
  signature : Tlv
  extensions_ne : extensions ≠ []

namespace PckCert

def tbs (t : PckCert) : Tlv :=
  sequenceOf (t.fields ++ [node 0xA3 [sequenceOf (t.extensions.map Extension.tlv)]])

def bytes (t : PckCert) : Bytes :=
  (sequenceOf [t.tbs, sequenceOf (⟨0x06, ecdsaWithSha256⟩ :: t.parameters), t.signature]).bytes

end PckCert

/-! What is to be found in it. -/

def foundInfo (svns? : Option (ℕ × List ℕ)) (pceid? fmspc? : Option Bytes) : Option PckTcbInfo := do
  let svns ← svns?
  let pceid ← pceid?
  let fmspc ← fmspc?
  some ⟨true, svns.1, svns.2, fmspc, pceid⟩

def entriesInfo (entries : List SgxEntry) : Option PckTcbInfo :=
  foundInfo (entries.findSome? SgxEntry.svns?) (entries.findSome? SgxEntry.pceid?) (entries.findSome? SgxEntry.fmspc?)

def extensionsInfo (extensions : List Extension) : Option PckTcbInfo :=
  (extensions.findSome? Extension.entries?).bind fun entries => entriesInfo entries.list

/-- Success with these fields, or no success. -/
def Reports (expected : Option PckTcbInfo) (info : PckTcbInfo) : Prop :=
  if info.success then expected = some info else expected = none

section Entries

variable {s : EntryState} {e : SgxEntry} {past rest : List SgxEntry}

def SgxEntry.found (e : SgxEntry) (s : EntryState) : EntryState :=
  match e with
  | tcb level =>
    { s with flags := { s.flags with tcbFound := true }, pcesvn := level.pcesvn, cpusvns := level.compSvns }
  | pceid bytes => { s with flags := { s.flags with pceidFound := true }, pceidBytes := bytes }
  | fmspc bytes => { s with flags := { s.flags with fmspcFound := true }, fmspcBytes := bytes }
  | other _ _ _ => s

namespace EntryState

def svns? (s : EntryState) : Option (ℕ × List ℕ) := if s.flags.tcbFound then some (s.pcesvn, s.cpusvns) else none

def pceid? (s : EntryState) : Option Bytes := if s.flags.pceidFound then some s.pceidBytes else none

def fmspc? (s : EntryState) : Option Bytes := if s.flags.fmspcFound then some s.fmspcBytes else none

structure Seen (s : EntryState) (past : List SgxEntry) : Prop where
  svns : s.svns? = past.findSome? SgxEntry.svns?
  pceid : s.pceid? = past.findSome? SgxEntry.pceid?
  fmspc : s.fmspc? = past.findSome? SgxEntry.fmspc?

theorem reports_result (s : EntryState) : Reports (foundInfo s.svns? s.pceid? s.fmspc?) (s.result s.flags.all) := by
  unfold Reports foundInfo svns? pceid? fmspc? result PCKTCBFlags.all
  cases s.flags.tcbFound <;> cases s.flags.pceidFound <;> cases s.flags.fmspcFound <;> rfl

theorem Seen.reports (h : s.Seen past) : Reports (entriesInfo past) (s.result s.flags.all) := by
  rw [entriesInfo, ← h.svns, ← h.pceid, ← h.fmspc]
  exact reports_result s

theorem Seen.append (h : s.Seen past) (hall : s.flags.all = true) (more : List SgxEntry) : s.Seen (past ++ more) := by
  simp only [PCKTCBFlags.all, Bool.and_eq_true] at hall
  obtain ⟨⟨hfmspc, hpceid⟩, htcb⟩ := hall
  constructor
  · rw [List.findSome?_append, ← h.svns, svns?, if_pos htcb, Option.some_or]
  · rw [List.findSome?_append, ← h.pceid, pceid?, if_pos hpceid, Option.some_or]
  · rw [List.findSome?_append, ← h.fmspc, fmspc?, if_pos hfmspc, Option.some_or]

theorem Seen.keeps (h : s.Seen past) (ptr : ℕ) : EntryState.Seen { s with extnValuePtr := ptr } past :=
  ⟨h.svns, h.pceid, h.fmspc⟩

end EntryState

theorem findSome?_concat {β : Type} {f : SgxEntry → Option β}
    (hunique : ((past ++ e :: rest).filterMap f).length ≤ 1) :
    (past ++ [e]).findSome? f = (f e).or (past.findSome? f) := by
  rw [List.findSome?_append, List.findSome?_singleton]
  cases he : f e with
  | none => simp
  | some b =>
    rw [List.filterMap_append, List.filterMap_cons_some he, List.length_append, List.length_cons] at hunique
    have hpast : past.filterMap f = [] := List.eq_nil_of_length_eq_zero (by omega)
    have hnone : past.findSome? f = none := List.findSome?_eq_none_iff.mpr (List.filterMap_eq_nil_iff.mp hpast)
    rw [hnone, Option.none_or, Option.or_none]

theorem EntryState.Seen.found (h : s.Seen past) {entries : SgxEntries} (hlist : entries.list = past ++ e :: rest) :
    (e.found s).Seen (past ++ [e]) := by
  constructor
  · rw [findSome?_concat (hlist ▸ entries.svns_unique), ← h.svns]
    cases e <;> rfl
  · rw [findSome?_concat (hlist ▸ entries.pceid_unique), ← h.pceid]
    cases e <;> rfl
  · rw [findSome?_concat (hlist ▸ entries.fmspc_unique), ← h.fmspc]
    cases e <;> rfl

end Entries

/-! The walk over the bytes. -/

section Svns

variable {der : Bytes} {ptr stop pcesvn : ℕ} {cpusvn : Tlv}

theorem svnValue_integer {n : ℕ} (hn : n < 2 ^ 15) : svnValue (integer n).content = n := by
  have hwidth : integerWidth n ≤ 2 := (integerWidth_le_iff n (by decide)).mpr (by omega)
  have hlen : (integer n).content.length = integerWidth n := BigEndian.encode_length _ _
  have hpos : 1 ≤ integerWidth n := Nat.le_max_left 1 _
  have hdecode : BigEndian.decode (integer n).content = n := BigEndian.decode_encode _ n (lt_integerWidth n)
  unfold svnValue
  rw [hlen]
  split_ifs with hshort
  · obtain ⟨b, hb⟩ := List.length_eq_one_iff.mp (show (integer n).content.length = 1 by omega)
    rw [hb] at hdecode ⊢
    change BigEndian.decode ([b] ++ [0]) / 256 = n
    rw [BigEndian.decode_concat, hdecode]
    change (n * 256 + 0) / 256 = n
    omega
  · rw [List.take_left' (by omega), hdecode]

theorem svnElements_eq_cons (pcesvn : ℕ) (cpusvn : Tlv) (i : ℕ) (ns : List ℕ) :
    ∃ t ts, svnElements pcesvn cpusvn i ns = t :: ts := by
  cases ns with
  | nil => exact ⟨_, _, rfl⟩
  | cons n ns => exact ⟨_, _, rfl⟩

theorem componentOid_ne {i : ℕ} (hi : i < 16) : compareBytes (tcbOid ++ [UInt8.ofNat (i + 1)]) pcesvnOid = false := by
  interval_cases i <;> rfl

theorem findTcbFrom_eq {t : Tlv} {rest : List Tlv} {i : ℕ} {ns done : List ℕ} (hder : der.length < 2 ^ 64)
    (hpcesvn : pcesvn < 2 ^ 15) (hns : ∀ n ∈ ns, n < 2 ^ 15) (hi : i + ns.length = 16) (hdone : done.length = i)
    (h : Points der ptr t rest stop) (hts : t :: rest = svnElements pcesvn cpusvn i ns) :
    findTcbFrom der (ns.length + 1) i ptr 0 (done ++ List.replicate ns.length 0) = .ok (pcesvn, done ++ ns) := by
  induction ns generalizing ptr t rest i done with
  | nil =>
    cases hts
    obtain ⟨oidPtr, hoid, hpoints⟩ := h.child hder (sequenceOf_constructed _) rfl
    obtain ⟨valuePtr, hvalue, hvaluePoints⟩ := hpoints.next hder
    obtain ⟨next, hnext, -⟩ := h.next hder
    have hsame : compareBytes pcesvnOid pcesvnOid = true := by decide
    rw [findTcbFrom]
    simp only [hoid, hvalue, hvaluePoints.bytesAt_eq hder, hpoints.bytesAt_eq hder, svnValue_integer hpcesvn, hsame,
      hnext, ok_bind, if_true]
    rfl
  | cons n ns ih =>
    obtain ⟨rfl, hrest⟩ := List.cons.inj hts
    obtain ⟨u, us, hus⟩ := svnElements_eq_cons pcesvn cpusvn (i + 1) ns
    have hrest' : rest = u :: us := hrest.trans hus
    subst hrest'
    obtain ⟨oidPtr, hoid, hpoints⟩ := h.child hder (sequenceOf_constructed _) rfl
    obtain ⟨valuePtr, hvalue, hvaluePoints⟩ := hpoints.next hder
    obtain ⟨next, hnext, hnextPoints⟩ := h.next hder
    have hlen : i + (ns.length + 1) = 16 := by simpa using hi
    have hread : index (done ++ List.replicate (ns.length + 1) 0) i = .ok 0 := by
      rw [index_eq_ok, ← hdone, List.getElem?_append_right le_rfl]
      simp
    have hset : (done ++ List.replicate (ns.length + 1) 0).set i n = done ++ [n] ++ List.replicate ns.length 0 := by
      rw [← hdone, List.set_append_right _ _ le_rfl]
      simp [List.replicate_succ]
    have hgoal : findTcbFrom der (ns.length + 1) (i + 1) next 0 (done ++ [n] ++ List.replicate ns.length 0) =
        .ok (pcesvn, done ++ [n] ++ ns) :=
      ih (fun m hm => hns m (List.mem_cons_of_mem n hm)) (by omega) (by simp [hdone]) hnextPoints hrest
    rw [List.length_cons, findTcbFrom]
    simp only [hoid, hvalue, hvaluePoints.bytesAt_eq hder, hpoints.bytesAt_eq hder,
      svnValue_integer (hns n List.mem_cons_self), componentOid_ne (show i < 16 by omega), hnext, ok_bind,
      Bool.false_eq_true, if_false]
    rw [hread, ok_bind, hset, hgoal, List.append_assoc, List.singleton_append]

theorem findTcb_eq {level : TcbLevel} {oid : Tlv} (hder : der.length < 2 ^ 64)
    (h : Points der ptr oid [level.tlv] stop) : findTcb der ptr = .ok (level.pcesvn, level.compSvns) := by
  obtain ⟨tcbPtr, htcb, hpoints⟩ := h.next hder
  obtain ⟨u, us, hus⟩ := svnElements_eq_cons level.pcesvn level.cpusvn 0 level.compSvns
  have hcontent : level.tlv.content = encodeAll (u :: us) := by
    rw [← hus]
    rfl
  obtain ⟨svnPtr, hsvn, hsvns⟩ := hpoints.child hder (sequenceOf_constructed _) hcontent
  have hlen : level.compSvns.length = 16 := level.compSvns_length
  have hfrom : findTcbFrom der (level.compSvns.length + 1) 0 svnPtr 0
      ([] ++ List.replicate level.compSvns.length 0) = .ok (level.pcesvn, [] ++ level.compSvns) :=
    findTcbFrom_eq hder level.pcesvn_lt level.compSvns_lt (by omega) rfl hsvns hus.symm
  rw [hlen] at hfrom
  rw [findTcb, htcb, ok_bind, hsvn, ok_bind]
  exact hfrom

end Svns

section EntryLoop

variable {der : Bytes} {oidPtr parent stop : ℕ} {e : SgxEntry} {s : EntryState} {past rest : List SgxEntry}

theorem compareBytes_false {a b : Bytes} (h : a ≠ b) : compareBytes a b = false := by
  simpa [compareBytes] using h

theorem reads_eq (hder : der.length < 2 ^ 64) (h : Points der oidPtr ⟨0x06, e.oid⟩ e.value stop) (s : EntryState) :
    (do
      let s ← readTcb der e.oid oidPtr s
      let s ← readPceid der e.oid oidPtr s
      readFmspc der e.oid oidPtr s) = .ok (e.found s) := by
  unfold readTcb readPceid readFmspc
  cases e with
  | tcb level =>
    have htcb : compareBytes tcbOid tcbOid = true := by decide
    have hpceid : compareBytes tcbOid pceidOid = false := by decide
    have hfmspc : compareBytes tcbOid fmspcOid = false := by decide
    simp only [SgxEntry.oid, htcb, hpceid, hfmspc, findTcb_eq hder h, ok_bind, if_true, Bool.false_eq_true, if_false,
      SgxEntry.found]
  | pceid bytes =>
    have htcb : compareBytes pceidOid tcbOid = false := by decide
    have hpceid : compareBytes pceidOid pceidOid = true := by decide
    have hfmspc : compareBytes pceidOid fmspcOid = false := by decide
    obtain ⟨valuePtr, hvalue, hpoints⟩ := h.next hder
    simp only [SgxEntry.oid, htcb, hpceid, hfmspc, hvalue, hpoints.bytesAt_eq hder, ok_bind, if_true,
      Bool.false_eq_true, if_false, SgxEntry.found]
  | fmspc bytes =>
    have htcb : compareBytes fmspcOid tcbOid = false := by decide
    have hpceid : compareBytes fmspcOid pceidOid = false := by decide
    have hfmspc : compareBytes fmspcOid fmspcOid = true := by decide
    obtain ⟨valuePtr, hvalue, hpoints⟩ := h.next hder
    simp only [SgxEntry.oid, htcb, hpceid, hfmspc, hvalue, hpoints.bytesAt_eq hder, ok_bind, if_true,
      Bool.false_eq_true, if_false, SgxEntry.found]
  | other oid value ne =>
    obtain ⟨htcb, hpceid, hfmspc⟩ := ne
    simp only [SgxEntry.oid, compareBytes_false htcb, compareBytes_false hpceid, compareBytes_false hfmspc, ok_bind,
      Bool.false_eq_true, if_false, SgxEntry.found]

theorem found_extnValuePtr (e : SgxEntry) (s : EntryState) : (e.found s).extnValuePtr = s.extnValuePtr := by
  cases e <;> rfl

theorem entryPass_eq (parent : ℕ) {us : List Tlv} (hder : der.length < 2 ^ 64)
    (h : Points der s.extnValuePtr e.tlv us stop) (hall : s.flags.all = false) :
    entryPass der parent s =
      if ixl s.extnValuePtr < ixl parent then
        nextSiblingOf der s.extnValuePtr >>= fun ptr => .ok (.next { e.found s with extnValuePtr := ptr })
      else .ok (.done ((e.found s).result (e.found s).flags.all)) := by
  obtain ⟨oidPtr, hoid, hpoints⟩ := h.child hder (sequenceOf_constructed _) rfl
  have htag : ¬ (0x06 : UInt8) ≠ 0x06 := by decide
  have hreads := reads_eq hder hpoints s
  obtain ⟨s1, htcb, hreads⟩ := bind_eq_ok.mp hreads
  obtain ⟨s2, hpceid, hfmspc⟩ := bind_eq_ok.mp hreads
  unfold entryPass
  rw [hall]
  simp only [hoid, hpoints.tagAt_eq hder, hpoints.bytesAt_eq hder, htcb, hpceid, hfmspc, ok_bind, Bool.false_eq_true,
    if_false, if_neg htag, found_extnValuePtr]

theorem all_end (hseen : s.Seen past) (hall : s.flags.all = true) (more : List SgxEntry) :
    ∃ info, Loop.Ends (entryPass der parent) s (.ok info) ∧ Reports (entriesInfo (past ++ more)) info := by
  refine ⟨s.result true, Loop.ends_done (by rw [entryPass, hall]; rfl), ?_⟩
  rw [← hall]
  exact (hseen.append hall more).reports

theorem entries_end {entries : SgxEntries} (hder : der.length < 2 ^ 64)
    (h : Points der s.extnValuePtr e.tlv (rest.map SgxEntry.tlv) (ixl parent + 1)) (hseen : s.Seen past)
    (hlist : entries.list = past ++ e :: rest) :
    ∃ info, Loop.Ends (entryPass der parent) s (.ok info) ∧ Reports (entriesInfo entries.list) info := by
  induction rest generalizing s e past with
  | nil =>
    cases hall : s.flags.all with
    | true =>
      rw [hlist]
      exact all_end hseen hall _
    | false =>
      have hlast := h.ixl_last hder
      have hpass := entryPass_eq parent hder h hall
      rw [if_neg (by omega)] at hpass
      refine ⟨_, Loop.ends_done hpass, ?_⟩
      rw [hlist]
      exact (hseen.found hlist).reports
  | cons u rest ih =>
    cases hall : s.flags.all with
    | true =>
      rw [hlist]
      exact all_end hseen hall _
    | false =>
      have hless := h.ixl_lt hder
      obtain ⟨ptr, hptr, hpoints⟩ := h.next hder
      have hpass := entryPass_eq parent hder h hall
      rw [if_pos (by omega), hptr, ok_bind] at hpass
      have hlist' : entries.list = (past ++ [e]) ++ u :: rest := by
        rw [hlist, List.append_assoc, List.singleton_append]
      obtain ⟨info, hends, hreports⟩ := ih (s := { e.found s with extnValuePtr := ptr }) hpoints
        ((hseen.found hlist).keeps ptr) hlist'
      exact ⟨info, Loop.ends_next hpass hends, hreports⟩

end EntryLoop

end LineaSgxProver.Verifier.PEMCertChainLib
