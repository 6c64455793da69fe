import LineaSgxProver.Library.Memory
import LineaSgxProver.Library.Sha1
import LineaSgxProver.Verifier.Solidity

namespace LineaSgxProver.Verifier.SHA1

open Library

/-- 32 bytes of the data, with zeros for those past its end. -/
def readword (m : Memory) (ptr : ℕ) (off count : SU256) : SU256 :=
  if off < count then
    let result := m.mload (ptr + off.toNat)
    let count := count - off
    if count < 32 then
      let mask := ~~~(BitVec.ofNat 256 (256 ^ (32 - count).toNat) - 1)
      result &&& mask
    else result
  else 0

def totallen (len : SU256) : SU256 :=
  let totallen := ((len + 1) &&& 0xFFFFFFFFFFFFFFC0) + 64
  if totallen - len < 9 then totallen + 64 else totallen

/-- One block of the padded data at the start of the scratch memory. -/
def loadBlock (scratch data : ℕ) (len i : SU256) (m : Memory) : Memory :=
  let m := m.mstore scratch (readword m data i len)
  let m := m.mstore (scratch + 32) (readword m data (i + 32) len)
  let m := if len - i < 64 then m.mstore8 (scratch + (len - i).toNat) 0x80 else m
  if i = totallen len - 64 then m.mstore (scratch + 32) (m.mload (scratch + 32) ||| len * 8) else m

def rotateLanes1 (temp : SU256) : SU256 :=
  ((temp * 2) &&& 0xFFFFFFFEFFFFFFFEFFFFFFFEFFFFFFFEFFFFFFFEFFFFFFFEFFFFFFFEFFFFFFFE) |||
    ((temp / 0x80000000) &&& 0x0000000100000001000000010000000100000001000000010000000100000001)

def rotateLanes2 (temp : SU256) : SU256 :=
  ((temp * 4) &&& 0xFFFFFFFCFFFFFFFCFFFFFFFCFFFFFFFCFFFFFFFCFFFFFFFCFFFFFFFCFFFFFFFC) |||
    ((temp / 0x40000000) &&& 0x0000000300000003000000030000000300000003000000030000000300000003)

def expandBy3 (scratch : ℕ) (m : Memory) (j : ℕ) : Memory :=
  let temp := (m.mload (scratch + (j - 12)) ^^^ m.mload (scratch + (j - 32))) ^^^
    (m.mload (scratch + (j - 56)) ^^^ m.mload (scratch + (j - 64)))
  m.mstore (scratch + j) (rotateLanes1 temp)

def expandBy6 (scratch : ℕ) (m : Memory) (j : ℕ) : Memory :=
  let temp := (m.mload (scratch + (j - 24)) ^^^ m.mload (scratch + (j - 64))) ^^^
    (m.mload (scratch + (j - 112)) ^^^ m.mload (scratch + (j - 128)))
  m.mstore (scratch + j) (rotateLanes2 temp)

/-- `for { let j := 64 } lt(j, 128) { j := add(j, 12) }` and `for { let j := 128 } lt(j, 320) { j := add(j, 24) }` -/
def expand (scratch : ℕ) (m : Memory) : Memory :=
  (List.range' 128 8 24).foldl (expandBy6 scratch) ((List.range' 64 6 12).foldl (expandBy3 scratch) m)

/-- `f` and `k`; what is above the low 32 bits of `f` is not cleared. -/
def switch (x : SU256) (j : ℕ) : SU256 × SU256 :=
  match j / 20 with
  | 0 =>
    let f := x / 0x100000000000000000000 ^^^ x / 0x10000000000
    let f := x / 0x1000000000000000000000000000000 &&& f
    let f := x / 0x10000000000 ^^^ f
    (f, 0x5A827999)
  | 1 =>
    let f := x / 0x1000000000000000000000000000000 ^^^ x / 0x100000000000000000000
    let f := x / 0x10000000000 ^^^ f
    (f, 0x6ED9EBA1)
  | 2 =>
    let f := x / 0x1000000000000000000000000000000 ||| x / 0x100000000000000000000
    let f := x / 0x10000000000 &&& f
    let f := (x / 0x1000000000000000000000000000000 &&& x / 0x100000000000000000000) ||| f
    (f, 0x8F1BBCDC)
  | _ =>
    let f := x / 0x1000000000000000000000000000000 ^^^ x / 0x100000000000000000000
    let f := x / 0x10000000000 ^^^ f
    (f, 0xCA62C1D6)

/-- One round over the five words of `x`, which have eight bits between them. -/
def round (word : SU256) (j : ℕ) (x : SU256) : SU256 :=
  let (f, k) := switch x j
  let temp := x / 0x80000000000000000000000000000000000000000000000 &&& 0x1F
  let temp := (x / 0x800000000000000000000000000000000000000 &&& 0xFFFFFFE0) ||| temp
  let temp := f + temp
  let temp := (x &&& 0xFFFFFFFF) + temp
  let temp := k + temp
  let temp := word / 0x100000000000000000000000000000000000000000000000000000000 + temp
  let x := x / 0x10000000000 ||| temp * 0x10000000000000000000000000000000000000000
  (x &&& 0xFFFFFFFF00FFFFFFFF000000000000FFFFFFFF00FFFFFFFF) |||
    ((x / 0x4000000000000 &&& 0xC0000000) ||| (x / 0x400000000000000000000 &&& 0x3FFFFFFF)) *
      0x100000000000000000000

def compress (scratch data : ℕ) (len : SU256) (s : Memory × SU256) (i : ℕ) : Memory × SU256 :=
  let m := expand scratch (loadBlock scratch data len (BitVec.ofNat 256 i) s.1)
  let x := (List.range 80).foldl (fun x j => round (m.mload (scratch + 4 * j)) j x) s.2
  (m, (s.2 + x) &&& 0xFFFFFFFF00FFFFFFFF00FFFFFFFF00FFFFFFFF00FFFFFFFF)

def unpack (h : SU256) : SU256 :=
  ((h / 0x100000000 &&& 0xFFFFFFFF00000000000000000000000000000000) |||
    (h / 0x1000000 &&& 0xFFFFFFFF000000000000000000000000) |||
    (h / 0x10000 &&& 0xFFFFFFFF0000000000000000) |||
    (h / 0x100 &&& 0xFFFFFFFF00000000) |||
    (h &&& 0xFFFFFFFF)) * 0x1000000000000000000000000

/-- The `bytes20` is in the high bits of its word. -/
def sha1 (m : Memory) (data : ℕ) : BitVec 160 :=
  let scratch := (m.mload 0x40).toNat
  let len := m.mload data
  let data := data + 32
  let h := 0x6745230100EFCDAB890098BADCFE001032547600C3D2E1F0
  let (_, h) := (List.range' 0 ((totallen len).toNat / 64) 64).foldl (compress scratch data len) (m, h)
  (unpack h).extractLsb' 96 160

end LineaSgxProver.Verifier.SHA1
