import LineaSgxProver.Machine
import LineaSgxProver.Library.Action

namespace LineaSgxProver.Verifier

open Library

abbrev Address := BitVec 160

/-- Why a call reverts. What it did is undone. -/
inductive Revert where
  | reason (message : String)
  | overflow
  | outOfBounds
  | badEncoding
  | outOfMemory
  deriving DecidableEq, Repr

abbrev Checked (α : Type) := Except Revert α

theorem error_bind {α β : Type} (e : Revert) (f : α → Checked β) : (Except.error e >>= f) = .error e := rfl

theorem map_ok {α β : Type} (f : α → β) (a : α) : f <$> (Except.ok a : Checked α) = .ok (f a) := rfl

theorem map_eq_ok {ε α β : Type} {f : α → β} {x : Except ε α} {b : β} :
    f <$> x = .ok b ↔ ∃ a, x = .ok a ∧ f a = b := by
  cases x <;> simp

def require (cond : Prop) [Decidable cond] (message : String) : Checked Unit :=
  if cond then .ok () else .error (.reason message)

def checkedAdd (a b : SU256) : Checked SU256 :=
  if a.toNat + b.toNat < 2 ^ 256 then .ok (a + b) else .error .overflow

@[simp] theorem require_eq_ok {cond : Prop} [Decidable cond] {message : String} {u : Unit} :
    require cond message = .ok u ↔ cond := by
  unfold require
  split_ifs with h <;> simp [h]

theorem checkedAdd_eq_ok {a b c : SU256} :
    checkedAdd a b = .ok c ↔ a.toNat + b.toNat = c.toNat := by
  have hc := c.isLt
  unfold checkedAdd
  constructor
  · intro h
    split_ifs at h with hlt
    rw [← Except.ok.inj h, BitVec.toNat_add, Nat.mod_eq_of_lt hlt]
  · intro h
    rw [if_pos (by omega)]
    apply congrArg
    apply BitVec.eq_of_toNat_eq
    rw [BitVec.toNat_add, h, Nat.mod_eq_of_lt hc]

/-- The 32 bytes of memory at an offset into an array. -/
def wordAt (b : Bytes) (offset : ℕ) : SH256 := SH256.ofBytes ((b.drop offset).take 32)

def index {α : Type} (a : List α) (i : ℕ) : Checked α :=
  match a[i]? with
  | some x => .ok x
  | none => .error .outOfBounds

theorem index_eq_ok {α : Type} {a : List α} {i : ℕ} {x : α} : index a i = .ok x ↔ a[i]? = some x := by
  unfold index
  cases a[i]? <;> simp

/-- The hashes, and the recovery of a signer, who is 0 for a signature of nobody. -/
class Precompiles where
  keccak256 : Bytes → SH256
  sha256 : Bytes → SH256
  ecrecover : SH256 → UInt8 → SH256 → SH256 → Address

end LineaSgxProver.Verifier
