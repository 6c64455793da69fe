import LineaSgxProver.Zktrie.Node

namespace LineaSgxProver.Linea

open Library Zktrie

class KeccakHash where
  hash : Bytes → SH256

/-- `&buf[off..off + 32]`; `none` where the slice is out of range. -/
def word (buf : Bytes) (off : ℕ) : Option Bytes :=
  if off + 32 ≤ buf.length then some ((buf.drop off).take 32) else none

theorem word_append_right {pre buf : Bytes} {off : ℕ} (h : pre.length = off) (n : ℕ) :
    word (pre ++ buf) (off + n) = word buf n := by
  subst h
  unfold word
  rw [List.length_append, List.drop_append]
  by_cases hle : n + 32 ≤ buf.length
  · rw [if_pos hle, if_pos (by omega), List.drop_eq_nil_of_le (by omega), List.nil_append,
      Nat.add_sub_cancel_left]
  · rw [if_neg hle, if_neg (by omega)]

theorem exists_words {buf : Bytes} (h : buf.length = 192) :
    ∃ w₀ w₁ w₂ w₃ w₄ w₅ : Bytes, buf = w₀ ++ (w₁ ++ (w₂ ++ (w₃ ++ (w₄ ++ w₅)))) ∧ w₀.length = 32 ∧
      w₁.length = 32 ∧ w₂.length = 32 ∧ w₃.length = 32 ∧ w₄.length = 32 ∧ w₅.length = 32 := by
  obtain ⟨w₀, buf, rfl, h₀, h⟩ := exists_word (n := 160) h
  obtain ⟨w₁, buf, rfl, h₁, h⟩ := exists_word (n := 128) h
  obtain ⟨w₂, buf, rfl, h₂, h⟩ := exists_word (n := 96) h
  obtain ⟨w₃, buf, rfl, h₃, h⟩ := exists_word (n := 64) h
  obtain ⟨w₄, w₅, rfl, h₄, h₅⟩ := exists_word (n := 32) h
  exact ⟨w₀, w₁, w₂, w₃, w₄, w₅, rfl, h₀, h₁, h₂, h₃, h₄, h₅⟩

theorem word_append_left {w buf : Bytes} (h : w.length = 32) : word (w ++ buf) 0 = some w := by
  unfold word
  rw [List.length_append, if_pos (by omega), List.drop_zero, List.take_left' h]

structure ZkStateAccount where
  nonce : UInt64
  balance : SU256
  root : SH256
  mimcCodeHash : SH256
  keccakCodeHash : SH256
  codeSize : SU256
  deriving DecidableEq

namespace ZkStateAccount

section Default

variable [TrieHash] [KeccakHash]

/-- `EMPTY_MIMC_CODE_HASH`, whose `unwrap` never fails on a whole block. -/
def emptyMimcCodeHash : SH256 :=
  (TrieHash.sum (SH256.bytes 0)).toOption.get
    (sum_isSome (List.ne_nil_of_length_pos (by simp)) (by simp))

def emptyKeccakCodeHash : SH256 := KeccakHash.hash []

def default : ZkStateAccount := ⟨0, 0, 0, emptyMimcCodeHash, emptyKeccakCodeHash, 0⟩

end Default

def layout (a : ZkStateAccount) : Bytes :=
  BigEndian.encode 32 a.nonce.toNat ++ (SH256.bytes a.balance ++ (SH256.bytes a.root ++
    (SH256.bytes a.mimcCodeHash ++ (SH256.bytes a.keccakCodeHash ++ SH256.bytes a.codeSize))))

@[simp] theorem layout_length (a : ZkStateAccount) : a.layout.length = 192 := by
  simp [layout]

def setNonce (a : ZkStateAccount) (val : UInt64) : ZkStateAccount × Bool :=
  if a.nonce ≠ val then ({ a with nonce := val }, true) else (a, false)

section Codec

variable [TrieHash] [KeccakHash]

def isExist (a : ZkStateAccount) : Bool := decide (a = default)

def toBytes (a : ZkStateAccount) : Bytes := if a = default then [] else a.layout

def fromBytes (buf : Bytes) : Option ZkStateAccount :=
  if buf.length = 0 then some default
  else do
    let nonce ← word buf 0
    let balance ← word buf 32
    let root ← word buf 64
    let mimcCodeHash ← word buf 96
    let keccakCodeHash ← word buf 128
    let codeSize ← word buf 160
    let nonce ← SU256.asU64 (SH256.ofBytes nonce)
    some ⟨nonce, SH256.ofBytes balance, SH256.ofBytes root, SH256.ofBytes mimcCodeHash,
      SH256.ofBytes keccakCodeHash, SH256.ofBytes codeSize⟩

def encode (a : ZkStateAccount) : Bytes := a.toBytes

def decode (buf : Bytes) : Except (Fault String) ZkStateAccount := do
  let a ← orPanic (fromBytes buf)
  .ok a

theorem fromBytes_words {w₀ w₁ w₂ w₃ w₄ w₅ : Bytes} (h₀ : w₀.length = 32) (h₁ : w₁.length = 32)
    (h₂ : w₂.length = 32) (h₃ : w₃.length = 32) (h₄ : w₄.length = 32) (h₅ : w₅.length = 32) :
    fromBytes (w₀ ++ (w₁ ++ (w₂ ++ (w₃ ++ (w₄ ++ w₅))))) =
      (SU256.asU64 (SH256.ofBytes w₀)).map fun nonce => ⟨nonce, SH256.ofBytes w₁, SH256.ofBytes w₂,
        SH256.ofBytes w₃, SH256.ofBytes w₄, SH256.ofBytes w₅⟩ := by
  have hne : (w₀ ++ (w₁ ++ (w₂ ++ (w₃ ++ (w₄ ++ w₅))))).length ≠ 0 := by
    rw [List.length_append]
    omega
  have next {w rest : Bytes} (h : w.length = 32) (n : ℕ) : word (w ++ rest) (32 + n) = word rest n :=
    word_append_right h n
  have last : word w₅ 0 = some w₅ := by
    have hlast : word (w₅ ++ []) 0 = some w₅ := word_append_left h₅
    rwa [List.append_nil] at hlast
  rw [fromBytes, if_neg hne, word_append_left h₀, next h₀ 0, next h₀ 32, next h₀ 64, next h₀ 96,
    next h₀ 128, word_append_left h₁, next h₁ 0, next h₁ 32, next h₁ 64, next h₁ 96,
    word_append_left h₂, next h₂ 0, next h₂ 32, next h₂ 64, word_append_left h₃, next h₃ 0,
    next h₃ 32, word_append_left h₄, next h₄ 0, last, Option.map_eq_bind]
  rfl

theorem fromBytes_layout (a : ZkStateAccount) : fromBytes a.layout = some a := by
  have hnonce : a.nonce.toNat < 256 ^ 32 := a.nonce.toNat_lt.trans (by decide)
  have hword : SU256.asU64 (SH256.ofBytes (BigEndian.encode 32 a.nonce.toNat)) = some a.nonce := by
    rw [SU256.asU64_eq_some, SH256.ofBytes, BigEndian.decode_encode 32 _ hnonce, BitVec.toNat_ofNat,
      Nat.mod_eq_of_lt (by simpa using hnonce)]
  rw [layout, fromBytes_words (by simp) (by simp) (by simp) (by simp) (by simp) (by simp), hword]
  simp

theorem fromBytes_eq_some_iff {buf : Bytes} (hlen : buf.length = 192) {a : ZkStateAccount} :
    fromBytes buf = some a ↔ buf = a.layout := by
  constructor
  · intro h
    obtain ⟨w₀, w₁, w₂, w₃, w₄, w₅, rfl, h₀, h₁, h₂, h₃, h₄, h₅⟩ := exists_words hlen
    rw [fromBytes_words h₀ h₁ h₂ h₃ h₄ h₅] at h
    obtain ⟨nonce, hnonce, rfl⟩ := Option.map_eq_some_iff.mp h
    have hword : BigEndian.encode 32 nonce.toNat = w₀ := by
      rw [← SU256.asU64_eq_some.mp hnonce]
      have hbytes := SH256.bytes_ofBytes w₀ h₀
      rwa [SH256.bytes] at hbytes
    rw [layout, hword, SH256.bytes_ofBytes w₁ h₁, SH256.bytes_ofBytes w₂ h₂,
      SH256.bytes_ofBytes w₃ h₃, SH256.bytes_ofBytes w₄ h₄, SH256.bytes_ofBytes w₅ h₅]
  · rintro rfl
    exact fromBytes_layout a

theorem fromBytes_encode (a : ZkStateAccount) : fromBytes a.encode = some a := by
  unfold encode toBytes
  split_ifs with ha
  · rw [ha]
    rfl
  · exact fromBytes_layout a

/-- What was decoded is what was given: the account's encoding, or the default account in full. -/
def Canonical (buf : Bytes) : Prop :=
  (∃ a, decode buf = .ok a ∧ (buf = a.encode ∨ buf = layout default)) ∨
    ∃ e, decode buf = .error (.error e)

theorem decode_eq_ok {buf : Bytes} {a : ZkStateAccount} : decode buf = .ok a ↔ fromBytes buf = some a := by
  unfold decode
  cases fromBytes buf <;> simp [orPanic, Bind.bind, Except.bind]

theorem not_error (buf : Bytes) (e : String) : decode buf ≠ .error (.error e) := by
  unfold decode
  cases fromBytes buf <;> simp [orPanic, Bind.bind, Except.bind]

/-- A buffer of six words is read exactly when its first word is a 64-bit number. -/
theorem exists_fromBytes {buf : Bytes} (hlen : buf.length = 192) :
    (∃ a, fromBytes buf = some a) ↔ BigEndian.decode (buf.take 32) < 2 ^ 64 := by
  obtain ⟨w₀, w₁, w₂, w₃, w₄, w₅, rfl, h₀, h₁, h₂, h₃, h₄, h₅⟩ := exists_words hlen
  have hword : (SH256.ofBytes w₀).toNat = BigEndian.decode w₀ := SH256.ofBytes_toNat w₀ h₀.le
  rw [fromBytes_words h₀ h₁ h₂ h₃ h₄ h₅, List.take_left' h₀, ← hword]
  constructor
  · rintro ⟨a, ha⟩
    obtain ⟨nonce, hnonce, _⟩ := Option.map_eq_some_iff.mp ha
    rw [SU256.asU64_eq_some.mp hnonce]
    exact nonce.toNat_lt
  · intro hlt
    rw [SU256.asU64, if_pos hlt]
    exact ⟨_, rfl⟩

theorem encode_length (a : ZkStateAccount) : a.encode.length = 0 ∨ a.encode.length = 192 := by
  unfold encode toBytes
  split_ifs
  · exact Or.inl rfl
  · exact Or.inr a.layout_length

theorem Canonical.length {buf : Bytes} (h : Canonical buf) : buf.length = 0 ∨ buf.length = 192 := by
  rcases h with ⟨a, _, rfl | rfl⟩ | ⟨e, he⟩
  · exact a.encode_length
  · exact Or.inr (layout_length _)
  · exact absurd he (not_error buf e)

/-- The codec gives back every account, and accepts only its own format on the buffers that are
empty or hold six words with a 64-bit nonce. -/
theorem codec_canonical_iff :
    (∀ a, decode (encode a) = .ok a) ∧
      ∀ buf, Canonical buf ↔
        buf = [] ∨ (buf.length = 192 ∧ BigEndian.decode (buf.take 32) < 2 ^ 64) := by
  refine ⟨fun a => decode_eq_ok.mpr (fromBytes_encode a), ?_⟩
  intro buf
  constructor
  · intro h
    rcases h.length with hlen | hlen
    · exact Or.inl (List.length_eq_zero_iff.mp hlen)
    · rcases h with ⟨a, hdecode, _⟩ | ⟨e, he⟩
      · exact Or.inr ⟨hlen, (exists_fromBytes hlen).mp ⟨a, decode_eq_ok.mp hdecode⟩⟩
      · exact absurd he (not_error buf e)
  · rintro (rfl | ⟨hlen, hnonce⟩)
    · left
      refine ⟨default, rfl, Or.inl ?_⟩
      rw [encode, toBytes, if_pos rfl]
    · left
      obtain ⟨a, ha⟩ := (exists_fromBytes hlen).mpr hnonce
      refine ⟨a, decode_eq_ok.mpr ha, ?_⟩
      have hlayout := (fromBytes_eq_some_iff hlen).mp ha
      by_cases hdefault : a = default
      · exact Or.inr (hdefault ▸ hlayout)
      · left
        rw [encode, toBytes, if_neg hdefault]
        exact hlayout

end Codec

/-- A single byte is a panic, and of a byte more than an account the last one is ignored. -/
theorem decode_not_canonical :
    letI := residueHash
    letI : KeccakHash := ⟨fun _ => 0⟩
    decode [1] = .error .panic ∧ ¬ Canonical [1] ∧
      (decode (List.replicate 193 0)).isOk = true ∧ ¬ Canonical (List.replicate 193 0) := by
  let := residueHash
  let : KeccakHash := ⟨fun _ => 0⟩
  refine ⟨rfl, ?_, by decide +kernel, ?_⟩
  · intro h
    exact absurd h.length (by decide)
  · intro h
    have hlen := h.length
    rw [List.length_replicate] at hlen
    omega

end ZkStateAccount

end LineaSgxProver.Linea
