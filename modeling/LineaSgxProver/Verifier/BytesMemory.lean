import LineaSgxProver.Library.Memory
import LineaSgxProver.Verifier.Asn1Decode
import Mathlib.Data.List.Forall2

namespace LineaSgxProver.Verifier.BytesUtils.InMemory

open Library

section Copy

/-- The bytes that are left, over what the last word of the destination has behind them. -/
def copyLast (m : Memory) (dest src len : ℕ) : Memory :=
  let mask : SU256 := if len = 0 then BitVec.allOnes 256 else BitVec.ofNat 256 (256 ^ (32 - len)) - 1
  let srcpart := m.mload src &&& ~~~mask
  let destpart := m.mload dest &&& mask
  m.mstore dest (destpart ||| srcpart)

def memcpy (m : Memory) (dest src len : ℕ) : Memory :=
  if 32 ≤ len then memcpy (m.mstore dest (m.mload src)) (dest + 32) (src + 32) (len - 32)
  else copyLast m dest src len
termination_by len

theorem copyLast_byte (m : Memory) {dest src len : ℕ} (hlen : len < 32) (a : ℕ) : (copyLast m dest src len).byte a =
    if dest ≤ a ∧ a < dest + len then m.byte (src + (a - dest)) else m.byte a := by
  by_cases hin : dest ≤ a ∧ a < dest + 32
  · obtain ⟨p, rfl⟩ : ∃ p, a = dest + p := ⟨a - dest, by omega⟩
    have hp : p < 32 := by omega
    rw [copyLast, Memory.mstore_at _ _ _ hp, byteAt_or, Nat.add_sub_cancel_left]
    by_cases hzero : len = 0
    · have hout : ¬ (dest ≤ dest + p ∧ dest + p < dest + len) := by omega
      rw [if_pos hzero, if_neg hout, BitVec.and_allOnes, BitVec.not_allOnes, BitVec.and_zero,
        Memory.byteAt_mload _ _ hp]
      simp [byteAt]
    · have hcut : 32 - (32 - len) = len := by omega
      rw [if_neg hzero, byteAt_and_low _ (by omega) hp, byteAt_and_mask _ (by omega) hp, hcut,
        Memory.byteAt_mload _ _ hp, Memory.byteAt_mload _ _ hp]
      by_cases hlow : p < len
      · have hin' : dest ≤ dest + p ∧ dest + p < dest + len := by omega
        rw [if_pos hlow, if_pos hlow, if_pos hin', UInt8.zero_or]
      · have hout : ¬ (dest ≤ dest + p ∧ dest + p < dest + len) := by omega
        rw [if_neg hlow, if_neg hlow, if_neg hout, UInt8.or_zero]
  · have hout : ¬ (dest ≤ a ∧ a < dest + len) := by omega
    rw [if_neg hout, copyLast, Memory.mstore_outside _ _ _ (by omega)]

/-- What is copied is not written over before it is read. -/
theorem memcpy_byte (m : Memory) {dest src len : ℕ} (h : src + len ≤ dest) (a : ℕ) : (memcpy m dest src len).byte a =
    if dest ≤ a ∧ a < dest + len then m.byte (src + (a - dest)) else m.byte a := by
  induction len using Nat.strong_induction_on generalizing m dest src with
  | h len ih =>
    rw [memcpy]
    by_cases hlen : 32 ≤ len
    · rw [if_pos hlen, ih (len - 32) (by omega) _ (by omega)]
      by_cases hrest : dest + 32 ≤ a ∧ a < dest + 32 + (len - 32)
      · have hin : dest ≤ a ∧ a < dest + len := by omega
        have hindex : src + 32 + (a - (dest + 32)) = src + (a - dest) := by omega
        rw [if_pos hrest, if_pos hin, hindex, Memory.mstore_outside _ _ _ (by omega)]
      · rw [if_neg hrest]
        by_cases hfirst : dest ≤ a ∧ a < dest + 32
        · obtain ⟨p, rfl⟩ : ∃ p, a = dest + p := ⟨a - dest, by omega⟩
          have hin : dest ≤ dest + p ∧ dest + p < dest + len := by omega
          rw [if_pos hin, Memory.mstore_at _ _ _ (by omega), Memory.byteAt_mload _ _ (by omega),
            Nat.add_sub_cancel_left]
        · have hout : ¬ (dest ≤ a ∧ a < dest + len) := by omega
          rw [if_neg hout, Memory.mstore_outside _ _ _ (by omega)]
    · rw [if_neg hlen, copyLast_byte _ (by omega)]

end Copy

section Arrays

/-- An array in the part of the memory that is in use. -/
structure HoldsArray (m : Memory) (p : ℕ) (b : Bytes) : Prop where
  length : (m.mload p).toNat = b.length
  bytes : ∀ i < b.length, m.byte (p + 32 + i) = b.getD i 0
  heap : 0x60 ≤ p
  allocated : p + 32 + b.length ≤ (m.mload 0x40).toNat

def rounded (len : ℕ) : ℕ := (len + 31) / 32 * 32

def allocate (m : Memory) (ret len : ℕ) : Memory :=
  let m := (m.mstore 0x40 (BitVec.ofNat 256 (ret + 32 + rounded len))).mstore ret (BitVec.ofNat 256 len)
  ⟨fun a => if ret + 32 ≤ a ∧ a < ret + 32 + rounded len then 0 else m.byte a⟩

/-- `new bytes(len)` -/
def newBytes (m : Memory) (len : ℕ) : Checked (ℕ × Memory) :=
  let ret := (m.mload 0x40).toNat
  if len < 2 ^ 64 ∧ ret + 32 + rounded len < 2 ^ 64 then .ok (ret, allocate m ret len) else .error .outOfMemory

def substring (m : Memory) (self : ℕ) (offset len : SU256) : Checked (ℕ × Memory) := do
  let stop ← checkedAdd offset len
  require (stop ≤ m.mload self) ""
  let (ret, m) ← newBytes m len.toNat
  .ok (ret, memcpy m (ret + 32) (self + 32 + offset.toNat) len.toNat)

variable {m : Memory} {p : ℕ} {b : Bytes}

theorem HoldsArray.congr {m' : Memory} (h : HoldsArray m p b)
    (hm : ∀ a, 0x60 ≤ a → a < (m.mload 0x40).toNat → m'.byte a = m.byte a)
    (hfree : (m.mload 0x40).toNat ≤ (m'.mload 0x40).toNat) : HoldsArray m' p b := by
  have hheap := h.heap
  have hallocated := h.allocated
  have hlength : m'.mload p = m.mload p := by
    apply Memory.mload_congr
    intro i hi
    exact hm _ (by omega) (by omega)
  refine ⟨by rw [hlength, h.length], ?_, h.heap, by omega⟩
  intro i hi
  rw [hm _ (by omega) (by omega), h.bytes i hi]

/-- An array in memory, with the free memory behind it. -/
def memoryOf (data : Bytes) : Memory :=
  let m : Memory := ⟨fun a => data.getD (a - 0xa0) 0⟩
  (m.mstore 0x80 (BitVec.ofNat 256 data.length)).mstore 0x40
    (BitVec.ofNat 256 (0xa0 + rounded data.length))

theorem memoryOf_holds {data : Bytes} (h : data.length < 2 ^ 62) : HoldsArray (memoryOf data) 0x80 data := by
  have hlen : (memoryOf data).mload 0x80 = BitVec.ofNat 256 data.length := by
    rw [memoryOf, Memory.mload_mstore_outside _ _ (by decide), Memory.mload_mstore]
  have hfree : (memoryOf data).mload 0x40 = BitVec.ofNat 256 (0xa0 + rounded data.length) := Memory.mload_mstore _ _ _
  have hround : data.length ≤ rounded data.length ∧ rounded data.length ≤ data.length + 31 := by
    unfold rounded
    omega
  constructor
  · rw [hlen, BitVec.toNat_ofNat]
    omega
  · intro i hi
    have hindex : 0x80 + 32 + i - 0xa0 = i := by omega
    rw [memoryOf, Memory.mstore_outside _ _ _ (by omega), Memory.mstore_outside _ _ _ (by omega)]
    simp only [hindex]
  · decide
  · rw [hfree, BitVec.toNat_ofNat]
    omega

section Allocate

variable (m : Memory) {ret len : ℕ}

theorem allocate_free (hret : 0x60 ≤ ret) (hroom : ret + (len + 63) < 2 ^ 64) :
    ((allocate m ret len).mload 0x40).toNat = ret + 32 + rounded len := by
  have hround : rounded len ≤ len + 31 := Nat.div_mul_le_self _ _
  have hfree : (allocate m ret len).mload 0x40 = BitVec.ofNat 256 (ret + 32 + rounded len) := by
    apply eq_of_byteAt
    intro i hi
    have hout : ¬ (ret + 32 ≤ 0x40 + i ∧ 0x40 + i < ret + 32 + rounded len) := by omega
    rw [Memory.byteAt_mload _ _ hi, allocate]
    simp only [hout, if_false]
    rw [Memory.mstore_outside _ _ _ (by omega), Memory.mstore_at _ _ _ hi]
  rw [hfree, BitVec.toNat_ofNat]
  omega

theorem allocate_length (hroom : ret + (len + 63) < 2 ^ 64) : ((allocate m ret len).mload ret).toNat = len := by
  have hlength : (allocate m ret len).mload ret = BitVec.ofNat 256 len := by
    apply eq_of_byteAt
    intro i hi
    have hout : ¬ (ret + 32 ≤ ret + i ∧ ret + i < ret + 32 + rounded len) := by omega
    rw [Memory.byteAt_mload _ _ hi, allocate]
    simp only [hout, if_false]
    rw [Memory.mstore_at _ _ _ hi]
  rw [hlength, BitVec.toNat_ofNat]
  omega

theorem allocate_below {a : ℕ} (ha : 0x60 ≤ a) (hlt : a < ret) : (allocate m ret len).byte a = m.byte a := by
  have hout : ¬ (ret + 32 ≤ a ∧ a < ret + 32 + rounded len) := by omega
  rw [allocate]
  simp only [hout, if_false]
  rw [Memory.mstore_outside _ _ _ (by omega), Memory.mstore_outside _ _ _ (by omega)]

end Allocate

section Range

variable {α : Type} {offset len : SU256} {f : Unit → Checked α}

theorem range_ok (h : HoldsArray m p b) (hin : offset.toNat + len.toNat ≤ b.length) :
    (checkedAdd offset len >>= fun stop => require (stop ≤ m.mload p) "" >>= f) = f () := by
  have hlength := h.length
  have hbound := (m.mload p).isLt
  have hadd : checkedAdd offset len = .ok (offset + len) := if_pos (by omega)
  have hstop : (offset + len).toNat = offset.toNat + len.toNat := by
    rw [BitVec.toNat_add]
    omega
  have hfits : offset + len ≤ m.mload p := by
    rw [BitVec.le_def, hstop, hlength]
    exact hin
  have hrequire : require (offset + len ≤ m.mload p) "" = .ok () := if_pos hfits
  rw [hadd, ok_bind, hrequire, ok_bind]

theorem range_error (f : Unit → Checked α) (h : HoldsArray m p b) (hout : b.length < offset.toNat + len.toNat) :
    ∃ e, (checkedAdd offset len >>= fun stop => require (stop ≤ m.mload p) "" >>= f) = .error e := by
  have hlength := h.length
  rw [checkedAdd]
  split_ifs with hadd
  · have hstop : (offset + len).toNat = offset.toNat + len.toNat := by
      rw [BitVec.toNat_add, Nat.mod_eq_of_lt hadd]
    have hfits : ¬ offset + len ≤ m.mload p := by
      rw [BitVec.le_def, hstop, hlength]
      omega
    have hrequire : require (offset + len ≤ m.mload p) "" = .error (.reason "") := if_neg hfits
    rw [ok_bind, hrequire]
    exact ⟨_, rfl⟩
  · exact ⟨_, rfl⟩

end Range

/-- What a step of the memory does to it: an array is added and the ones before stay. -/
structure Extends (m m' : Memory) (p : ℕ) (b : Bytes) : Prop where
  added : HoldsArray m' p b
  kept : ∀ q c, HoldsArray m q c → HoldsArray m' q c
  free : (m'.mload 0x40).toNat ≤ (m.mload 0x40).toNat + (b.length + 63)

theorem substring_ok (h : HoldsArray m p b) {offset len : SU256} (hin : offset.toNat + len.toNat ≤ b.length)
    (hroom : (m.mload 0x40).toNat + (len.toNat + 63) < 2 ^ 64) :
    ∃ ret m', substring m p offset len = .ok (ret, m') ∧
      Extends m m' ret ((b.drop offset.toNat).take len.toNat) := by
  have hheap : 0x60 ≤ (m.mload 0x40).toNat := (h.heap.trans (by omega)).trans h.allocated
  have hallocated := h.allocated
  have hround : rounded len.toNat ≤ len.toNat + 31 := Nat.div_mul_le_self _ _
  have hup : len.toNat ≤ rounded len.toNat := by
    unfold rounded
    omega
  have hblen := h.length
  have hp := h.heap
  generalize hret : (m.mload 0x40).toNat = ret at *
  have hnew : newBytes m len.toNat = .ok (ret, allocate m ret len.toNat) := by
    rw [newBytes]
    simp only [hret]
    exact if_pos ⟨by omega, by omega⟩
  have hcopy := memcpy_byte (allocate m ret len.toNat)
    (show p + 32 + offset.toNat + len.toNat ≤ ret + 32 by omega)
  refine ⟨ret, memcpy (allocate m ret len.toNat) (ret + 32) (p + 32 + offset.toNat) len.toNat, ?_, ?_⟩
  · rw [substring, range_ok h hin, hnew, ok_bind]
  generalize memcpy (allocate m ret len.toNat) (ret + 32) (p + 32 + offset.toNat) len.toNat = m' at hcopy
  have hword (q : ℕ) (hq : q + 32 ≤ ret + 32) : m'.mload q = (allocate m ret len.toNat).mload q := by
    apply Memory.mload_congr
    intro i hi
    rw [hcopy, if_neg (by omega)]
  have hbelow (a : ℕ) (ha : 0x60 ≤ a) (hlt : a < ret) : m'.byte a = m.byte a := by
    rw [hcopy, if_neg (by omega), allocate_below m ha hlt]
  have hfree : (m'.mload 0x40).toNat = ret + 32 + rounded len.toNat := by
    rw [hword _ (by omega), allocate_free m hheap hroom]
  have hlen : ((b.drop offset.toNat).take len.toNat).length = len.toNat := by
    rw [List.length_take, List.length_drop]
    omega
  constructor
  · constructor
    · rw [hword _ le_rfl, allocate_length m hroom, hlen]
    · intro i hi
      rw [hlen] at hi
      have hdata := h.bytes (offset.toNat + i) (by omega)
      have hindex : p + 32 + offset.toNat + (ret + 32 + i - (ret + 32)) = p + 32 + (offset.toNat + i) := by omega
      have hbyte : m'.byte (ret + 32 + i) = b.getD (offset.toNat + i) 0 := by
        rw [hcopy, if_pos (by omega), hindex, allocate_below m (by omega) (by omega), hdata]
      rw [hbyte, List.getD_eq_getElem _ _ (by omega), List.getD_eq_getElem _ _ (by omega), List.getElem_take,
        List.getElem_drop]
    · exact hheap
    · rw [hfree, hlen]
      omega
  · intro q c hc
    apply hc.congr
    · rw [hret]
      exact hbelow
    · rw [hret, hfree]
      omega
  · rw [hfree, hlen, hret]
    omega

theorem substring_error (h : HoldsArray m p b) {offset len : SU256} (hout : b.length < offset.toNat + len.toNat) :
    ∃ e, substring m p offset len = .error e := range_error _ h hout

end Arrays

section Run

/-- A part of one of the arrays before it. -/
structure Request where
  array : ℕ
  offset : SU256
  len : SU256

def cut (arrays : List Bytes) (r : Request) : Checked (List Bytes) := do
  let b ← index arrays r.array
  let w ← Verifier.substring b r.offset.toNat r.len.toNat
  .ok (arrays ++ [w])

def cutInMemory (s : Memory × List ℕ) (r : Request) : Checked (Memory × List ℕ) := do
  let self ← index s.2 r.array
  let (ret, m) ← substring s.1 self r.offset r.len
  .ok (m, s.2 ++ [ret])

/-- The memory that the cuts take, as far as they are made. -/
def room : List Bytes → List Request → ℕ
  | _, [] => 0
  | arrays, r :: requests =>
    match cut arrays r with
    | .ok arrays => r.len.toNat + 63 + room arrays requests
    | .error _ => 0

theorem index_getElem {α : Type} {a : List α} {i : ℕ} (h : i < a.length) : index a i = .ok (a.get ⟨i, h⟩) :=
  index_eq_ok.mpr (List.getElem?_eq_getElem h)

theorem index_error {α : Type} {a : List α} {i : ℕ} (h : a.length ≤ i) : index a i = .error .outOfBounds := by
  rw [index, List.getElem?_eq_none h]

theorem cut_simulates {s : Memory × List ℕ} {arrays : List Bytes} (h : List.Forall₂ (HoldsArray s.1) s.2 arrays)
    (r : Request) (hroom : (cut arrays r).isOk = true → (s.1.mload 0x40).toNat + (r.len.toNat + 63) < 2 ^ 64) :
    (∃ s' arrays', cutInMemory s r = .ok s' ∧ cut arrays r = .ok arrays' ∧
      List.Forall₂ (HoldsArray s'.1) s'.2 arrays' ∧
      (s'.1.mload 0x40).toNat ≤ (s.1.mload 0x40).toNat + (r.len.toNat + 63)) ∨
    (∃ e e', cutInMemory s r = .error e ∧ cut arrays r = .error e') := by
  have hlen := h.length_eq
  rw [cut] at hroom
  rw [cutInMemory, cut]
  by_cases hi : r.array < arrays.length
  · have hi' : r.array < s.2.length := by omega
    have hholds : HoldsArray s.1 (s.2.get ⟨r.array, hi'⟩) (arrays.get ⟨r.array, hi⟩) := h.get hi' hi
    rw [index_getElem hi, ok_bind] at hroom
    rw [index_getElem hi, index_getElem hi', ok_bind, ok_bind]
    generalize arrays.get ⟨r.array, hi⟩ = b at hholds hroom ⊢
    generalize s.2.get ⟨r.array, hi'⟩ = p at hholds
    by_cases hin : r.offset.toNat + r.len.toNat ≤ b.length
    · rw [substring_of_le hin] at hroom
      obtain ⟨ret, m', hsubstring, hextends⟩ := substring_ok hholds hin (hroom rfl)
      rw [hsubstring, ok_bind, substring_of_le hin, ok_bind]
      refine Or.inl ⟨_, _, rfl, rfl, ?_, ?_⟩
      · exact List.rel_append (h.imp hextends.kept) (List.Forall₂.cons hextends.added List.Forall₂.nil)
      · have hw : ((b.drop r.offset.toNat).take r.len.toNat).length = r.len.toNat := by
          rw [List.length_take, List.length_drop]
          omega
        have hfree := hextends.free
        rwa [hw] at hfree
    · obtain ⟨e, herror⟩ := substring_error hholds (not_le.mp hin)
      have hfails : require (r.offset.toNat + r.len.toNat ≤ b.length) "" = .error (.reason "") := if_neg hin
      rw [herror, Verifier.substring, hfails]
      exact Or.inr ⟨e, _, rfl, rfl⟩
  · rw [index_error (by omega), index_error (by omega)]
    exact Or.inr ⟨_, _, rfl, rfl⟩

/-- Nothing that is cut out of an array is changed by what is cut out later. -/
theorem cuts_simulate (m : Memory) (pointers : List ℕ) (arrays : List Bytes) (requests : List Request)
    (h : List.Forall₂ (HoldsArray m) pointers arrays)
    (hroom : (m.mload 0x40).toNat + room arrays requests < 2 ^ 64) :
    (∃ m' pointers' arrays', requests.foldlM cutInMemory (m, pointers) = .ok (m', pointers') ∧
      requests.foldlM cut arrays = .ok arrays' ∧ List.Forall₂ (HoldsArray m') pointers' arrays') ∨
    (∃ e e', requests.foldlM cutInMemory (m, pointers) = .error e ∧ requests.foldlM cut arrays = .error e') := by
  induction requests generalizing m pointers arrays with
  | nil => exact Or.inl ⟨m, pointers, arrays, rfl, rfl, h⟩
  | cons r requests ih =>
    rw [room] at hroom
    rw [List.foldlM_cons, List.foldlM_cons]
    have hfits : (cut arrays r).isOk = true → (m.mload 0x40).toNat + (r.len.toNat + 63) < 2 ^ 64 := by
      intro hok
      obtain ⟨arrays', hcut⟩ := isOk_iff.mp hok
      rw [hcut] at hroom
      change (m.mload 0x40).toNat + (r.len.toNat + 63 + room arrays' requests) < 2 ^ 64 at hroom
      omega
    obtain ⟨⟨m', pointers'⟩, arrays', hmemory, hlist, h', hfree⟩ | ⟨e, e', hmemory, hlist⟩ :=
      cut_simulates (s := (m, pointers)) h r hfits
    · rw [hmemory, hlist, ok_bind, ok_bind]
      rw [hlist] at hroom
      change (m.mload 0x40).toNat + (r.len.toNat + 63 + room arrays' requests) < 2 ^ 64 at hroom
      change (m'.mload 0x40).toNat ≤ (m.mload 0x40).toNat + _ at hfree
      exact ih m' pointers' arrays' h' (by omega)
    · rw [hmemory, hlist]
      exact Or.inr ⟨e, e', rfl, rfl⟩

theorem cuts_simulate_sample : ∃ m' pointers',
    [⟨0, 1, 2⟩, ⟨1, 1, 1⟩].foldlM cutInMemory (memoryOf [0x61, 0x62, 0x63], [0x80]) = .ok (m', pointers') ∧
      List.Forall₂ (HoldsArray m') pointers' [[0x61, 0x62, 0x63], [0x62, 0x63], [0x63]] := by
  have hcut : [⟨0, 1, 2⟩, ⟨1, 1, 1⟩].foldlM cut [[0x61, 0x62, 0x63]] =
      .ok [[0x61, 0x62, 0x63], [0x62, 0x63], [0x63]] := rfl
  obtain ⟨m', pointers', arrays', hmemory, hlist, h⟩ | ⟨e, e', hmemory, hlist⟩ :=
    cuts_simulate (memoryOf [0x61, 0x62, 0x63]) [0x80] [[0x61, 0x62, 0x63]] [⟨0, 1, 2⟩, ⟨1, 1, 1⟩]
      (List.Forall₂.cons (memoryOf_holds (by decide)) List.Forall₂.nil) (by decide +kernel)
  · rw [hcut] at hlist
    cases hlist
    exact ⟨m', pointers', hmemory, h⟩
  · rw [hcut] at hlist
    cases hlist

end Run

section Reads

variable (m : Memory) (self : ℕ)

def readUint8 (idx : SU256) : Checked SU256 :=
  if idx < m.mload self then .ok ((m.byte (self + 32 + idx.toNat)).toBitVec.setWidth 256) else .error .outOfBounds

def readUint16 (idx : SU256) : Checked SU256 := do
  let stop ← checkedAdd idx 2
  require (stop ≤ m.mload self) ""
  .ok (m.mload (self + 2 + idx.toNat) &&& 0xFFFF)

def readBytesN (idx len : SU256) : Checked SU256 := do
  require (len ≤ 32) ""
  let stop ← checkedAdd idx len
  require (stop ≤ m.mload self) ""
  let mask := ~~~(BitVec.ofNat 256 (256 ^ (32 - len).toNat) - 1)
  .ok (m.mload (self + 32 + idx.toNat) &&& mask)

variable {m self} {b : Bytes}

theorem HoldsArray.read (h : HoldsArray m self b) {i k : ℕ} (hik : i + k ≤ b.length) :
    m.read (self + 32 + i) k = (b.drop i).take k := by
  apply List.ext_getElem
  · rw [Memory.read_length, List.length_take, List.length_drop]
    omega
  · intro j hj hj'
    rw [Memory.read_length] at hj
    have hbyte := h.bytes (i + j) (by omega)
    rw [List.getD_eq_getElem _ _ (by omega)] at hbyte
    simp only [Memory.read, List.getElem_map, List.getElem_range, List.getElem_take, List.getElem_drop]
    rw [Nat.add_assoc (self + 32), hbyte]

theorem and_low_toNat (x : SU256) : (x &&& (0xFFFF : SU256)).toNat = x.toNat % 2 ^ 16 := by
  have hmask : (0xFFFF : SU256).toNat = 2 ^ 16 - 1 := rfl
  rw [BitVec.toNat_and, hmask, Nat.and_two_pow_sub_one_eq_mod]

theorem and_mask_toNat (x : SU256) {n : ℕ} (hn : n ≤ 32) :
    (x &&& ~~~(BitVec.ofNat 256 (256 ^ n) - 1)).toNat = x.toNat / 256 ^ n * 256 ^ n := by
  have hx := x.isLt
  have hpow : 256 ^ n = 2 ^ (8 * n) := by
    rw [pow_mul]
    rfl
  by_cases h32 : n = 32
  · have hmask : ~~~(BitVec.ofNat 256 (256 ^ 32) - 1) = 0 := by decide
    have hzero : x.toNat / 256 ^ 32 = 0 := Nat.div_eq_of_lt (by omega)
    have hand : x &&& (0 : SU256) = 0 := BitVec.and_zero
    rw [h32, hmask, hand, hzero, Nat.zero_mul]
    rfl
  · have hshift : x &&& ~~~(BitVec.ofNat 256 (256 ^ n) - 1) = (x >>> (8 * n)) <<< (8 * n) := by
      apply BitVec.eq_of_getLsbD_eq
      intro i hi
      rw [BitVec.getLsbD_and, getLsbD_mask (by omega) hi, BitVec.getLsbD_shiftLeft, BitVec.getLsbD_ushiftRight]
      by_cases hlow : 8 * n ≤ i
      · have hback : 8 * n + (i - 8 * n) = i := by omega
        simp [hlow, hback, hi]
      · have hlt : i < 8 * n := by omega
        simp [hlow, hlt]
    rw [hshift, BitVec.toNat_shiftLeft, BitVec.toNat_ushiftRight, Nat.shiftRight_eq_div_pow, Nat.shiftLeft_eq,
      ← hpow]
    exact Nat.mod_eq_of_lt ((Nat.div_mul_le_self _ _).trans_lt hx)

theorem neither_ok {α β γ : Type} {f : α → β} {x : β} {e e' : γ} :
    f <$> (.error e : Except γ α) = .ok x ↔ (.error e' : Except γ β) = .ok x := by
  constructor
  · intro h
    cases h
  · intro h
    cases h

theorem HoldsArray.readUint8 (h : HoldsArray m self b) (idx : SU256) (x : ℕ) :
    BitVec.toNat <$> InMemory.readUint8 m self idx = .ok x ↔ BytesUtils.readUint8 b idx.toNat = .ok x := by
  have hlt : idx < m.mload self ↔ idx.toNat < b.length := by rw [BitVec.lt_def, h.length]
  rw [InMemory.readUint8, BytesUtils.readUint8]
  by_cases hin : idx.toNat < b.length
  · have hbyte := h.bytes idx.toNat hin
    rw [List.getD_eq_getElem _ _ hin] at hbyte
    have hvalue : ((m.byte (self + 32 + idx.toNat)).toBitVec.setWidth 256).toNat = (b.get ⟨idx.toNat, hin⟩).toNat := by
      rw [hbyte, BitVec.toNat_setWidth]
      exact Nat.mod_eq_of_lt ((UInt8.toNat_lt _).trans (by decide))
    rw [if_pos (hlt.mpr hin), index_getElem hin, map_ok, map_ok, hvalue]
  · rw [if_neg (fun hidx => hin (hlt.mp hidx)), index_error (by omega)]
    exact neither_ok

theorem HoldsArray.readUint16 (h : HoldsArray m self b) (idx : SU256) (x : ℕ) :
    BitVec.toNat <$> InMemory.readUint16 m self idx = .ok x ↔ BytesUtils.readUint16 b idx.toNat = .ok x := by
  have h2 : (2 : SU256).toNat = 2 := rfl
  rw [InMemory.readUint16, BytesUtils.readUint16]
  by_cases hin : idx.toNat + 2 ≤ b.length
  · have hsplit := (m.mload_split (self + 2 + idx.toNat) (k := 30) (l := 2) rfl)
    have haddress : self + 2 + idx.toNat + 30 = self + 32 + idx.toNat := by omega
    have hrequire : require (idx.toNat + 2 ≤ b.length) "" = .ok () := if_pos hin
    rw [haddress, h.read hin] at hsplit
    have hvalue : (m.mload (self + 2 + idx.toNat) &&& 0xFFFF).toNat =
        BigEndian.decode ((b.drop idx.toNat).take 2) := by
      rw [and_low_toNat]
      omega
    rw [range_ok h (by rw [h2]; exact hin), map_ok, hvalue, hrequire, ok_bind]
  · have hout : b.length < idx.toNat + (2 : SU256).toNat := not_le.mp hin
    obtain ⟨e, he⟩ := range_error (fun _ => .ok (m.mload (self + 2 + idx.toNat) &&& 0xFFFF)) h hout
    have hrequire : require (idx.toNat + 2 ≤ b.length) "" = .error (.reason "") := if_neg hin
    rw [he, hrequire]
    exact neither_ok

theorem HoldsArray.readBytesN (h : HoldsArray m self b) (idx len : SU256) (x : ℕ) :
    BitVec.toNat <$> InMemory.readBytesN m self idx len = .ok x ↔
      BytesUtils.readBytesN b idx.toNat len.toNat = .ok x := by
  have h32 : (32 : SU256).toNat = 32 := rfl
  rw [InMemory.readBytesN, BytesUtils.readBytesN]
  by_cases hlen : len.toNat ≤ 32
  · have hle : len ≤ 32 := by rwa [BitVec.le_def, h32]
    have hrequire : require (len ≤ 32) "" = .ok () := if_pos hle
    have hrequire' : require (len.toNat ≤ 32) "" = .ok () := if_pos hlen
    have hrest : (32 - len).toNat = 32 - len.toNat := by rw [BitVec.toNat_sub_of_le hle, h32]
    rw [hrequire, hrequire', ok_bind, ok_bind]
    by_cases hin : idx.toNat + len.toNat ≤ b.length
    · obtain ⟨hsplit, hlt⟩ := m.mload_split (self + 32 + idx.toNat) (k := len.toNat) (l := 32 - len.toNat) (by omega)
      rw [h.read hin] at hsplit
      have hpos : 0 < 256 ^ (32 - len.toNat) := Nat.pow_pos (by decide)
      have hvalue : (m.mload (self + 32 + idx.toNat) &&& ~~~(BitVec.ofNat 256 (256 ^ (32 - len).toNat) - 1)).toNat =
          BigEndian.decode ((b.drop idx.toNat).take len.toNat) * 256 ^ (32 - len.toNat) := by
        rw [hrest, and_mask_toNat _ (by omega), hsplit, Nat.add_comm (_ * _), Nat.add_mul_div_right _ _ hpos,
          Nat.div_eq_of_lt hlt, Nat.zero_add]
      have hrequire : require (idx.toNat + len.toNat ≤ b.length) "" = .ok () := if_pos hin
      rw [range_ok h hin, map_ok, hvalue, hrequire, ok_bind]
    · obtain ⟨e, he⟩ := range_error (fun _ =>
        .ok (m.mload (self + 32 + idx.toNat) &&& ~~~(BitVec.ofNat 256 (256 ^ (32 - len).toNat) - 1))) h
        (not_le.mp hin)
      have hrequire : require (idx.toNat + len.toNat ≤ b.length) "" = .error (.reason "") := if_neg hin
      rw [he, hrequire]
      exact neither_ok
  · have hle : ¬ len ≤ 32 := by rwa [BitVec.le_def, h32]
    have hrequire : require (len ≤ 32) "" = .error (.reason "") := if_neg hle
    have hrequire' : require (len.toNat ≤ 32) "" = .error (.reason "") := if_neg hlen
    rw [hrequire, hrequire']
    exact neither_ok

/-- The loads of whole words, masked, read what is asked for and nothing that lies behind it. -/
theorem reads_agree (m : Memory) (self : ℕ) (b : Bytes) (h : HoldsArray m self b) (idx len : SU256) (x : ℕ) :
    (BitVec.toNat <$> InMemory.readUint8 m self idx = .ok x ↔ BytesUtils.readUint8 b idx.toNat = .ok x) ∧
      (BitVec.toNat <$> InMemory.readUint16 m self idx = .ok x ↔ BytesUtils.readUint16 b idx.toNat = .ok x) ∧
      (BitVec.toNat <$> InMemory.readBytesN m self idx len = .ok x ↔
        BytesUtils.readBytesN b idx.toNat len.toNat = .ok x) :=
  ⟨h.readUint8 idx x, h.readUint16 idx x, h.readBytesN idx len x⟩

theorem reads_agree_sample :
    BitVec.toNat <$> InMemory.readUint16 (memoryOf [0x61, 0x62, 0x63]) 0x80 1 = .ok 0x6263 := by
  have h := reads_agree (memoryOf [0x61, 0x62, 0x63]) 0x80 [0x61, 0x62, 0x63] (memoryOf_holds (by decide)) 1 2 0x6263
  exact h.2.1.mpr rfl

end Reads

end LineaSgxProver.Verifier.BytesUtils.InMemory
