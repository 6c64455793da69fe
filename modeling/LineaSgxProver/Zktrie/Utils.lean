import LineaSgxProver.Machine

namespace LineaSgxProver.Zktrie

open Library

def zkTrieDepth : ℕ := 40

theorem next_toNat {free : UInt64} (h : free.toNat < 2 ^ zkTrieDepth) : (free + 1).toNat = free.toNat + 1 := by
  have hword : 2 ^ zkTrieDepth < 2 ^ 64 := by decide
  rw [UInt64.toNat_add, Nat.mod_eq_of_lt (by simp; omega)]
  rfl

namespace LeafType

def value : UInt8 := 0x16

def nextFreeNode : UInt8 := 0x17

end LeafType

def prefixLen : Bytes → Bytes → ℕ
  | a :: as, b :: bs => if a = b then prefixLen as bs + 1 else 0
  | _, _ => 0

def formatNodeIndex (nodeIndex : UInt64) : SH256 := BitVec.ofNat 256 nodeIndex.toNat

def parseNodeIndex (n : Bytes) : Option UInt64 :=
  if n.length = 0 then some 0
  else if n.length < 8 then none
  else some (UInt64.ofNat (BigEndian.decode (n.drop (n.length - 8))))

def getLeafPathLoop [Profile] (path : Bytes) (value : ℕ) : ℕ → Option Bytes
  | 0 =>
    -- `i -= 1` underflows: a panic when it is checked, else `i` leaves the array
    if Profile.overflowChecks ∨ value / 2 ≠ 0 then none
    else some (path.set 0 (UInt8.ofNat (value % 2)))
  | i + 1 =>
    if value / 2 = 0 then some (path.set (i + 1) (UInt8.ofNat (value % 2)))
    else getLeafPathLoop (path.set (i + 1) (UInt8.ofNat (value % 2))) (value / 2) i

def getLeafPath [Profile] (idx : UInt64) : Option Bytes :=
  (getLeafPathLoop (1 :: List.replicate (zkTrieDepth + 1) 0) idx.toNat zkTrieDepth).map
    (·.set (zkTrieDepth + 1) LeafType.value)

/-- The `d` low bits of an index, highest first. -/
def bits : ℕ → ℕ → List Bool
  | 0, _ => []
  | d + 1, n => bits d (n / 2) ++ [n % 2 == 1]

def bitByte (b : Bool) : UInt8 := if b then 1 else 0

def leafPath (p : List Bool) : Bytes := 1 :: p.map bitByte ++ [LeafType.value]

theorem leafPath_bit (q rest : List Bool) (b : Bool) :
    (leafPath (q ++ b :: rest))[q.length + 1]? = some (bitByte b) := by
  simp [leafPath]

@[simp] theorem bits_length (d n : ℕ) : (bits d n).length = d := by
  induction d generalizing n with
  | zero => rfl
  | succ d ih => simp [bits, ih]

theorem bits_zero (d : ℕ) : bits d 0 = List.replicate d false := by
  induction d with
  | zero => rfl
  | succ d ih => simp [bits, ih, List.replicate_succ']

theorem bitByte_mod (n : ℕ) : UInt8.ofNat (n % 2) = bitByte (n % 2 == 1) := by
  rcases Nat.mod_two_eq_zero_or_one n with h | h <;> simp [h, bitByte]

/-- A pass of the loop writes the lowest bit of the value before the bits it has written. -/
theorem set_cursor (done : Bytes) (value i : ℕ) :
    (1 :: List.replicate (i + 1) 0 ++ done).set (i + 1) (UInt8.ofNat (value % 2)) =
      1 :: List.replicate i 0 ++ (bitByte (value % 2 == 1) :: done) := by
  rw [bitByte_mod, List.replicate_succ', List.cons_append, List.set_cons_succ, List.append_assoc,
    List.set_append_right _ _ (by simp)]
  simp

theorem map_bits_succ (done : Bytes) (value i : ℕ) :
    1 :: (bits (i + 1) value).map bitByte ++ done =
      1 :: (bits i (value / 2)).map bitByte ++ (bitByte (value % 2 == 1) :: done) := by
  simp [bits]

section LeafPath

variable [Profile]

theorem getLeafPathLoop_bits (done : Bytes) (value i : ℕ) (h : value < 2 ^ (i + 1)) :
    getLeafPathLoop (1 :: List.replicate (i + 1) 0 ++ done) value (i + 1) =
      some (1 :: (bits (i + 1) value).map bitByte ++ done) := by
  induction i generalizing value done with
  | zero =>
    have hv : value / 2 = 0 := by omega
    rw [getLeafPathLoop, if_pos hv, bitByte_mod]
    rfl
  | succ i ih =>
    rw [getLeafPathLoop, set_cursor, map_bits_succ]
    split_ifs with hv
    · rw [hv, bits_zero]
      simp [bitByte]
    · exact ih _ _ (by omega)

/-- Every index of the trie has its own path: the sub root, forty bits and the leaf type. -/
theorem getLeafPath_of_lt {idx : UInt64} (h : idx.toNat < 2 ^ zkTrieDepth) :
    getLeafPath idx = some (leafPath (bits zkTrieDepth idx.toNat)) := by
  have hloop := getLeafPathLoop_bits [0] idx.toNat 39 h
  have hpath : (1 :: List.replicate (zkTrieDepth + 1) 0 : Bytes) =
      1 :: List.replicate (39 + 1) 0 ++ [0] := rfl
  rw [getLeafPath, hpath]
  change (getLeafPathLoop _ idx.toNat (39 + 1)).map _ = _
  rw [hloop, Option.map_some, leafPath, List.cons_append, List.set_cons_succ,
    List.set_append_right _ _ (by simp [zkTrieDepth])]
  simp [zkTrieDepth]

theorem getLeafPathLoop_some (done : Bytes) {path : Bytes} (value i : ℕ)
    (h : getLeafPathLoop (1 :: List.replicate (i + 1) 0 ++ done) value (i + 1) = some path) :
    path = 1 :: (bits (i + 1) value).map bitByte ++ done := by
  induction i generalizing value done with
  | zero =>
    have hset : (1 :: List.replicate (0 + 1) 0 ++ done).set (0 + 1) (UInt8.ofNat (value % 2)) =
        1 :: (bits (0 + 1) value).map bitByte ++ done := by
      rw [bitByte_mod]
      rfl
    rw [getLeafPathLoop, hset] at h
    split_ifs at h with hv
    · exact (Option.some.inj h).symm
    · rw [getLeafPathLoop] at h
      split_ifs at h with hover
      have hone : value / 2 % 2 = 1 := by omega
      rw [hone] at h
      exact (Option.some.inj h).symm
  | succ i ih =>
    rw [getLeafPathLoop, set_cursor] at h
    rw [map_bits_succ]
    split_ifs at h with hv
    · rw [← Option.some.inj h, hv, bits_zero]
      simp [bitByte]
    · exact ih _ _ h

theorem getLeafPath_some {i : UInt64} {path : Bytes} (h : getLeafPath i = some path) :
    path = leafPath (bits zkTrieDepth i.toNat) := by
  obtain ⟨path', hloop, rfl⟩ := Option.map_eq_some_iff.mp h
  have hpath := getLeafPathLoop_some [0] i.toNat 39 hloop
  rw [hpath, leafPath, List.cons_append, List.set_cons_succ,
    List.set_append_right _ _ (by simp [zkTrieDepth])]
  simp only [List.length_map, bits_length, zkTrieDepth, Nat.sub_self, List.set_cons_zero]
  rfl

/-- The indices with a path: without overflow checks one more bit fits, over the root's. -/
def pathBound : ℕ := if Profile.overflowChecks then 2 ^ zkTrieDepth else 2 ^ (zkTrieDepth + 1)

theorem getLeafPathLoop_isSome (path : Bytes) (value i : ℕ) :
    (getLeafPathLoop path value (i + 1)).isSome = true ↔
      value < if Profile.overflowChecks then 2 ^ (i + 1) else 2 ^ (i + 2) := by
  induction i generalizing path value with
  | zero =>
    rw [getLeafPathLoop, getLeafPathLoop]
    cases Profile.overflowChecks <;> split_ifs <;> simp_all <;> omega
  | succ i ih =>
    rw [getLeafPathLoop]
    by_cases hv : value / 2 = 0
    · have hpow : 0 < 2 ^ i := Nat.two_pow_pos i
      rw [if_pos hv]
      cases Profile.overflowChecks <;> simp [pow_succ] <;> omega
    · rw [if_neg hv, ih]
      cases Profile.overflowChecks <;> simp [pow_succ] <;> omega

theorem getLeafPath_isSome (i : UInt64) : (getLeafPath i).isSome = true ↔ i.toNat < pathBound := by
  rw [getLeafPath, Option.isSome_map]
  exact getLeafPathLoop_isSome _ _ 39

theorem getLeafPath_length {i : UInt64} {path : Bytes} (h : getLeafPath i = some path) :
    path.length = zkTrieDepth + 2 := by
  rw [getLeafPath_some h, leafPath]
  simp

theorem getLeafPath_last {i : UInt64} {path : Bytes} (h : getLeafPath i = some path) :
    path.drop (path.length - 1) = [LeafType.value] := by
  rw [getLeafPath_some h, leafPath]
  exact List.drop_left' (by simp)

end LeafPath

theorem formatNodeIndex_toNat (n : UInt64) : (formatNodeIndex n).toNat = n.toNat := by
  have hn : n.toNat < 2 ^ 64 := n.toNat_lt
  rw [formatNodeIndex, BitVec.toNat_ofNat, Nat.mod_eq_of_lt (by omega)]

theorem formatNodeIndex_injective {m n : UInt64} (h : formatNodeIndex m = formatNodeIndex n) :
    m = n := by
  apply UInt64.toNat_inj.mp
  rw [← formatNodeIndex_toNat, h, formatNodeIndex_toNat]

theorem parseNodeIndex_format (n : UInt64) :
    parseNodeIndex (SH256.bytes (formatNodeIndex n)) = some n := by
  have hn : n.toNat < 256 ^ 8 := n.toNat_lt
  have hdrop : (BigEndian.encode 32 n.toNat).drop 24 = BigEndian.encode 8 n.toNat :=
    BigEndian.drop_encode 24 8 n.toNat
  rw [parseNodeIndex, if_neg (by simp), if_neg (by simp), SH256.bytes_length, SH256.bytes,
    formatNodeIndex_toNat, hdrop, BigEndian.decode_encode 8 _ hn, UInt64.ofNat_toNat]

end LineaSgxProver.Zktrie
