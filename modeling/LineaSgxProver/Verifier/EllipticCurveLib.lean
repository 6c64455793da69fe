import LineaSgxProver.Verifier.Solidity

namespace LineaSgxProver.Verifier.P256

def a : ℕ := 0xFFFFFFFF00000001000000000000000000000000FFFFFFFFFFFFFFFFFFFFFFFC

def b : ℕ := 0x5AC635D8AA3A93E7B3EBBD55769886BC651D06B0CC53B0F63BCE3C3E27D2604B

def gx : ℕ := 0x6B17D1F2E12C4247F8BCE6E563A440F277037D812DEB33A0F4A13945D898C296

def gy : ℕ := 0x4FE342E2FE1A7F9B8EE7EB4A7C0F9E162BCE33576B315ECECBB6406837BF51F5

def p : ℕ := 0xFFFFFFFF00000001000000000000000000000000FFFFFFFFFFFFFFFFFFFFFFFF

def n : ℕ := 0xFFFFFFFF00000000FFFFFFFFFFFFFFFFBCE6FAADA7179E84F3B9CAC2FC632551

end LineaSgxProver.Verifier.P256

namespace LineaSgxProver.Verifier

open Library

def addmod (x y k : ℕ) : ℕ := (x + y) % k

def mulmod (x y k : ℕ) : ℕ := x * y % k

namespace EllipticCurve

-- every subtraction from the modulus is of a residue, so the checked one never reverts
section Arithmetic

variable (pp : ℕ)

def invModLoop (x q newT r : ℕ) : ℕ :=
  if _h : x = 0 then q
  else
    let t := r / x
    invModLoop (r - t * x) newT (addmod q (pp - mulmod t newT pp) pp) x
termination_by x
decreasing_by
  rw [Nat.mul_comm, ← Nat.mod_eq_sub_mul_div]
  exact Nat.mod_lt _ (Nat.pos_of_ne_zero ‹_›)

def invMod (x : ℕ) : Checked ℕ := do
  require (x ≠ 0 ∧ x ≠ pp ∧ pp ≠ 0) "Invalid number"
  .ok (invModLoop pp x 0 1 pp)

def toAffine (x y z : ℕ) : Checked (ℕ × ℕ) := do
  let zInv ← invMod pp z
  let zInv2 := mulmod zInv zInv pp
  let x2 := mulmod x zInv2 pp
  let y2 := mulmod y (mulmod zInv zInv2 pp) pp
  .ok (x2, y2)

def isOnCurve (x y aa bb : ℕ) : Bool :=
  if 0 = x ∨ pp ≤ x ∨ 0 = y ∨ pp ≤ y then false
  else
    let lhs := mulmod y y pp
    let rhs := mulmod (mulmod x x pp) x pp
    let rhs := if aa ≠ 0 then addmod rhs (mulmod x aa pp) pp else rhs
    let rhs := if bb ≠ 0 then addmod rhs bb pp else rhs
    lhs = rhs

def jacAdd (x1 y1 z1 x2 y2 z2 : ℕ) : Checked (ℕ × ℕ × ℕ) :=
  if x1 = 0 ∧ y1 = 0 then .ok (x2, y2, z2)
  else if x2 = 0 ∧ y2 = 0 then .ok (x1, y1, z1)
  else do
    let zs0 := mulmod z1 z1 pp
    let zs1 := mulmod z1 zs0 pp
    let zs2 := mulmod z2 z2 pp
    let zs3 := mulmod z2 zs2 pp
    let u1 := mulmod x1 zs2 pp
    let s1 := mulmod y1 zs3 pp
    let u2 := mulmod x2 zs0 pp
    let s2 := mulmod y2 zs1 pp
    require (u1 ≠ u2 ∨ s1 ≠ s2) "Use jacDouble function instead"
    let h := addmod u2 (pp - u1) pp
    let r := addmod s2 (pp - s1) pp
    let h2 := mulmod h h pp
    let h3 := mulmod h2 h pp
    let qx := addmod (mulmod r r pp) (pp - h3) pp
    let qx := addmod qx (pp - mulmod 2 (mulmod u1 h2 pp) pp) pp
    let qy := mulmod r (addmod (mulmod u1 h2 pp) (pp - qx) pp) pp
    let qy := addmod qy (pp - mulmod s1 h3 pp) pp
    let qz := mulmod h (mulmod z1 z2 pp) pp
    .ok (qx, qy, qz)

def jacDouble (x y z aa : ℕ) : ℕ × ℕ × ℕ :=
  if z = 0 then (x, y, z)
  else
    let xx := mulmod x x pp
    let yy := mulmod y y pp
    let zz := mulmod z z pp
    let s := mulmod 4 (mulmod x yy pp) pp
    let m := addmod (mulmod 3 xx pp) (mulmod aa (mulmod zz zz pp) pp) pp
    let qx := addmod (mulmod m m pp) (pp - addmod s s pp) pp
    let qy := addmod (mulmod m (addmod s (pp - qx) pp) pp) (pp - mulmod 8 (mulmod yy yy pp) pp) pp
    let qz := mulmod 2 (mulmod y z pp) pp
    (qx, qy, qz)

def jacMulLoop (aa remaining : ℕ) (point q : ℕ × ℕ × ℕ) : Checked (ℕ × ℕ × ℕ) :=
  if _h : remaining = 0 then .ok q
  else do
    let q ←
      if remaining % 2 ≠ 0 then jacAdd pp q.1 q.2.1 q.2.2 point.1 point.2.1 point.2.2 else .ok q
    jacMulLoop aa (remaining / 2) (jacDouble pp point.1 point.2.1 point.2.2 aa) q
termination_by remaining

def jacMul (d x y z aa : ℕ) : Checked (ℕ × ℕ × ℕ) :=
  if d = 0 then .ok (x, y, z)
  else jacMulLoop pp aa d (x, y, z) (0, 0, 1)

def ecAdd (x1 y1 x2 y2 aa : ℕ) : Checked (ℕ × ℕ) :=
  if x1 = x2 then
    if addmod y1 y2 pp = 0 then .ok (0, 0)
    else
      let (x, y, z) := jacDouble pp x1 y1 1 aa
      toAffine pp x y z
  else do
    let (x, y, z) ← jacAdd pp x1 y1 1 x2 y2 1
    toAffine pp x y z

def ecMul (k x y aa : ℕ) : Checked (ℕ × ℕ) := do
  let (x1, y1, z1) ← jacMul pp k x y 1 aa
  toAffine pp x1 y1 z1

end Arithmetic

def validateSignature (h pgx pgy r s : SU256) : Checked Bool :=
  if isOnCurve P256.p pgx.toNat pgy.toNat P256.a P256.b = false then .ok false
  else do
    let s1 ← invMod P256.n s.toNat
    let (x, y) ← ecMul P256.p (mulmod h.toNat s1 P256.n) P256.gx P256.gy P256.a
    let (xx, yy) ← ecMul P256.p (mulmod r.toNat s1 P256.n) pgx.toNat pgy.toNat P256.a
    let (rx, _) ← ecAdd P256.p x y xx yy P256.a
    .ok (rx = r.toNat)

end EllipticCurve

end LineaSgxProver.Verifier
