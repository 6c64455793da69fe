import LineaSgxProver.Library.BigEndian

namespace LineaSgxProver.Library.Sha1

abbrev Word := BitVec 32

/-- The words of a block and those that are made of them. -/
def schedule (block : ℕ → Word) (t : ℕ) : Word :=
  if t < 16 then block t
  else (schedule block (t - 3) ^^^ schedule block (t - 8) ^^^ schedule block (t - 14) ^^^
    schedule block (t - 16)).rotateLeft 1
termination_by t

structure State where
  a : Word
  b : Word
  c : Word
  d : Word
  e : Word
  deriving DecidableEq

def mix (t : ℕ) (b c d : Word) : Word :=
  if t < 20 then (b &&& c) ||| (~~~b &&& d)
  else if t < 40 then b ^^^ c ^^^ d
  else if t < 60 then (b &&& c) ||| (b &&& d) ||| (c &&& d)
  else b ^^^ c ^^^ d

def constant (t : ℕ) : Word :=
  if t < 20 then 0x5A827999
  else if t < 40 then 0x6ED9EBA1
  else if t < 60 then 0x8F1BBCDC
  else 0xCA62C1D6

def round (w : Word) (t : ℕ) (s : State) : State where
  a := s.a.rotateLeft 5 + mix t s.b s.c s.d + s.e + constant t + w
  b := s.a
  c := s.b.rotateLeft 30
  d := s.c
  e := s.d

def rounds (w : ℕ → Word) (n : ℕ) (s : State) : State := (List.range n).foldl (fun s t => round (w t) t s) s

def State.add (s t : State) : State := ⟨s.a + t.a, s.b + t.b, s.c + t.c, s.d + t.d, s.e + t.e⟩

def compress (block : ℕ → Word) (h : State) : State := h.add (rounds (schedule block) 80 h)

/-- The message with a one bit, zeros and its length in bits, in whole blocks of 64 bytes. -/
def pad (msg : List UInt8) : List UInt8 :=
  msg ++ 0x80 :: (List.replicate ((119 - msg.length % 64) % 64) 0 ++ BigEndian.encode 8 (8 * msg.length))

def initial : State := ⟨0x67452301, 0xEFCDAB89, 0x98BADCFE, 0x10325476, 0xC3D2E1F0⟩

def wordOf (bytes : List UInt8) (i : ℕ) : Word :=
  (bytes.getD i 0).toBitVec ++ (bytes.getD (i + 1) 0).toBitVec ++ (bytes.getD (i + 2) 0).toBitVec ++
    (bytes.getD (i + 3) 0).toBitVec

def absorb (bytes : List UInt8) (n : ℕ) : State :=
  (List.range n).foldl (fun h i => compress (fun t => wordOf bytes (64 * i + 4 * t)) h) initial

def State.join (s : State) : BitVec 160 := s.a ++ s.b ++ s.c ++ s.d ++ s.e

def hash (msg : List UInt8) : BitVec 160 := (absorb (pad msg) ((pad msg).length / 64)).join

variable (block : ℕ → Word)

theorem schedule_of_lt {t : ℕ} (ht : t < 16) : schedule block t = block t := by
  rw [schedule, if_pos ht]

theorem schedule_of_le {t : ℕ} (ht : 16 ≤ t) : schedule block t =
    (schedule block (t - 3) ^^^ schedule block (t - 8) ^^^ schedule block (t - 14) ^^^
      schedule block (t - 16)).rotateLeft 1 := by
  rw [schedule, if_neg (by omega)]

theorem rotateLeft_xor (v w : Word) (n : ℕ) : (v ^^^ w).rotateLeft n = v.rotateLeft n ^^^ w.rotateLeft n := by
  apply BitVec.eq_of_getLsbD_eq
  intro i hi
  simp only [BitVec.getLsbD_rotateLeft, BitVec.getLsbD_xor]
  by_cases h : i < n % 32 <;> simp [h, hi]

theorem rotateLeft_one_one (v : Word) : (v.rotateLeft 1).rotateLeft 1 = v.rotateLeft 2 := by
  apply BitVec.eq_of_getLsbD_eq
  intro i hi
  simp only [BitVec.getLsbD_rotateLeft]
  grind

/-- From the 33rd word on two steps can be taken at once, of words that are farther back. -/
theorem schedule_twice {t : ℕ} (ht : 32 ≤ t) : schedule block t =
    (schedule block (t - 6) ^^^ schedule block (t - 16) ^^^ schedule block (t - 28) ^^^
      schedule block (t - 32)).rotateLeft 2 := by
  have h3 := schedule_of_le block (t := t - 3) (by omega)
  have h8 := schedule_of_le block (t := t - 8) (by omega)
  have h14 := schedule_of_le block (t := t - 14) (by omega)
  have h16 := schedule_of_le block (t := t - 16) (by omega)
  simp only [Nat.sub_sub, Nat.reduceAdd] at h3 h8 h14 h16
  have hxor : schedule block (t - 3) ^^^ schedule block (t - 8) ^^^ schedule block (t - 14) ^^^
      schedule block (t - 16) = (schedule block (t - 6) ^^^ schedule block (t - 16) ^^^
        schedule block (t - 28) ^^^ schedule block (t - 32)).rotateLeft 1 := by
    conv_lhs => rw [h3, h14, h16, h8]
    simp only [← rotateLeft_xor]
    apply congrArg (fun w => BitVec.rotateLeft w 1)
    -- the words 11, 17, 19, 22, 24 and 30 back come twice
    apply BitVec.eq_of_getLsbD_eq
    intro i _
    simp only [BitVec.getLsbD_xor]
    generalize (schedule block (t - 11)).getLsbD i = w₁₁
    generalize (schedule block (t - 17)).getLsbD i = w₁₇
    generalize (schedule block (t - 19)).getLsbD i = w₁₉
    generalize (schedule block (t - 22)).getLsbD i = w₂₂
    generalize (schedule block (t - 24)).getLsbD i = w₂₄
    generalize (schedule block (t - 30)).getLsbD i = w₃₀
    cases w₁₁ <;> cases w₁₇ <;> cases w₁₉ <;> cases w₂₂ <;> cases w₂₄ <;> cases w₃₀ <;> simp
  rw [schedule_of_le block (by omega), hxor, rotateLeft_one_one]

end LineaSgxProver.Library.Sha1
