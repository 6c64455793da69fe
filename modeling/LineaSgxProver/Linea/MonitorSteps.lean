import LineaSgxProver.Linea.Prover

namespace LineaSgxProver.Linea

open Library

namespace Monitor

variable {Key : Type} {m m' : Monitor Key} {p : Poll Key} {key : Key} {status seconds : SU256}
  {attestedTime validity : UInt64}

theorem iterate_answered [Profile] (hstatus : p.proverStatus = some status)
    (hseconds : p.attestValiditySeconds = some seconds) (htime : status.toNat = attestedTime.toNat)
    (hvalidity : seconds.toNat = validity.toNat) (hbound : attestedTime.toNat + validity.toNat < 2 ^ 64) :
    m.iterate p = some (if attestedTime + validity / 2 < p.now
      then ((m.cooled validity).flagged (p.now < attestedTime + validity)).submit p
      else ((m.cooled validity).flagged (p.now < attestedTime + validity)).promote) := by
  have hhalf : (validity / 2).toNat = validity.toNat / 2 := UInt64.toNat_div validity 2
  rw [iterate, hstatus, hseconds]
  simp only [Option.bind_eq_bind, SU256.asU64_eq_some.mpr htime, SU256.asU64_eq_some.mpr hvalidity,
    Option.bind_some]
  rw [addU64_of_lt hbound, addU64_of_lt (by omega), Option.bind_some, Option.bind_some]
  split_ifs <;> rfl

/-- An iteration that leaves the flag set has left the prover alone, or the key asked for is attested. -/
theorem iterate_attested [Profile] (h : m.iterate p = some m') (hflag : m'.prover.isAttested = true)
    (hclock : ∀ seconds, p.attestValiditySeconds = some seconds → seconds.toNat < p.now.toNat) :
    m'.prover = m.prover ∨
      ∃ status, p.proverStatus = some status ∧ status ≠ 0 ∧ m'.prover.getPrvkey = m.asked := by
  rcases iterate_cases h with ⟨-, rfl⟩ | ⟨status, seconds, hstatus, hseconds, -⟩
  · exact Or.inl rfl
  · have hlate := hclock seconds hseconds
    obtain ⟨attestedTime, validity, htime, hvalidity, hprover⟩ := iterate_prover h hstatus hseconds
    have hasked : m.asked = m.stagingKey.getD m.prover.getPrvkey := rfl
    cases hstaging : m.stagingKey with
    | none =>
      rw [hstaging] at hprover hasked
      refine Or.inr ⟨status, hstatus, ?_, by rw [hprover, hasked]; rfl⟩
      rintro rfl
      have hexpiry : p.now < attestedTime + validity := by
        rw [hprover] at hflag
        exact of_decide_eq_true hflag
      rw [UInt64.lt_iff_toNat_lt] at hexpiry
      have hsum := add_toNat_le attestedTime validity
      have hzero : attestedTime.toNat = 0 := htime.symm
      omega
    | some key =>
      rw [hstaging] at hprover hasked
      simp only at hprover
      split_ifs at hprover with hold
      · exact Or.inl hprover
      · refine Or.inr ⟨status, hstatus, ?_, by rw [hprover, hasked]; rfl⟩
        rintro rfl
        apply hold
        have hhalf : (validity / 2).toNat = validity.toNat / 2 := UInt64.toNat_div validity 2
        have hsum := add_toNat_le attestedTime (validity / 2)
        have hzero : attestedTime.toNat = 0 := htime.symm
        rw [UInt64.lt_iff_toNat_lt]
        omega

theorem submit_stagingKey (h : m.stagingKey = some key) : (m.submit p).stagingKey.isSome := by
  unfold submit
  split
  · split
    · rw [h]
      rfl
    · split_ifs
      · rfl
      · rw [h]
        rfl
  · rw [h]
    rfl

/-- A staged key is gone only by promotion, and then it was attested no longer than half a validity ago. -/
theorem iterate_promotes [Profile] (h : m.iterate p = some m') (hstaged : m.stagingKey = some key)
    (hpromoted : m'.stagingKey = none) :
    ∃ status seconds, p.proverStatus = some status ∧ p.attestValiditySeconds = some seconds ∧
      p.now.toNat ≤ status.toNat + seconds.toNat / 2 ∧ m'.prover = ⟨key, true⟩ := by
  rcases iterate_cases h with ⟨-, rfl⟩ |
    ⟨status, seconds, hstatus, hseconds, attestedTime, validity, htime, hvalidity, rfl⟩
  · rw [hstaged] at hpromoted
    cases hpromoted
  · split_ifs at hpromoted ⊢ with hold
    · have hkept := submit_stagingKey (p := p)
        (m := (m.cooled validity).flagged (p.now < attestedTime + validity))
        (by rw [flagged_stagingKey, cooled_stagingKey, hstaged])
      rw [hpromoted] at hkept
      cases hkept
    · refine ⟨status, seconds, hstatus, hseconds, ?_, ?_⟩
      · have hsum := add_toNat_le attestedTime (validity / 2)
        have hhalf : (validity / 2).toNat = validity.toNat / 2 := UInt64.toNat_div validity 2
        rw [htime, hvalidity]
        rw [UInt64.lt_iff_toNat_lt] at hold
        omega
      · rw [promote_prover, flagged_stagingKey, cooled_stagingKey, hstaged]

section Asked

@[simp] theorem flagged_prvkey (b : Bool) : (m.flagged b).prover.prvkey = m.prover.prvkey := by
  rw [flagged_prover]
  cases m.stagingKey <;> rfl

@[simp] theorem cooled_asked (v : UInt64) : (m.cooled v).asked = m.asked := by
  unfold cooled
  split_ifs <;> rfl

@[simp] theorem flagged_asked (b : Bool) : (m.flagged b).asked = m.asked := by
  unfold asked Prover.getPrvkey
  rw [flagged_stagingKey, flagged_prvkey]

@[simp] theorem promote_asked : m.promote.asked = m.asked := by
  unfold promote asked
  cases h : m.stagingKey with
  | none => simp only [h]
  | some key => rfl

/-- The monitor asks for a key, and submits no other one up to a moment. -/
structure Waits (m : Monitor Key) (key : Key) (validity : UInt64) (due : ℕ) : Prop where
  asked : m.asked = key
  cooldown : ∃ lastSubmit, m.lastSubmit = some lastSubmit ∧
    lastSubmit + (m.cooled validity).submitCooldown * 10 ^ 9 = due

theorem cooled_submitCooldown (v : UInt64) :
    (m.cooled v).submitCooldown = if v.toNat < m.submitCooldown then (v / 2).toNat else m.submitCooldown := by
  unfold cooled
  split_ifs <;> rfl

@[simp] theorem cooled_lastSubmit (v : UInt64) : (m.cooled v).lastSubmit = m.lastSubmit := by
  unfold cooled
  split_ifs <;> rfl

@[simp] theorem flagged_lastSubmit (b : Bool) : (m.flagged b).lastSubmit = m.lastSubmit := by
  unfold flagged
  split <;> rfl

@[simp] theorem flagged_submitCooldown (b : Bool) : (m.flagged b).submitCooldown = m.submitCooldown := by
  unfold flagged
  split <;> rfl

@[simp] theorem promote_lastSubmit : m.promote.lastSubmit = m.lastSubmit := by
  unfold promote
  split <;> rfl

@[simp] theorem promote_submitCooldown : m.promote.submitCooldown = m.submitCooldown := by
  unfold promote
  split <;> rfl

namespace Waits

variable {due : ℕ} (h : Waits m key validity due)

include h

theorem of_eq (hasked : m'.asked = m.asked) (hlast : m'.lastSubmit = m.lastSubmit)
    (hcooldown : (m'.cooled validity).submitCooldown = (m.cooled validity).submitCooldown) :
    Waits m' key validity due := by
  obtain ⟨lastSubmit, hsubmit, hdue⟩ := h.cooldown
  refine ⟨hasked.trans h.asked, lastSubmit, hlast.trans hsubmit, ?_⟩
  rw [hcooldown]
  exact hdue

theorem flagged (b : Bool) : Waits ((m.cooled validity).flagged b) key validity due := by
  apply h.of_eq
  · rw [flagged_asked, cooled_asked]
  · rw [flagged_lastSubmit, cooled_lastSubmit]
  · have hhalf : (validity / 2).toNat = validity.toNat / 2 := UInt64.toNat_div validity 2
    rw [cooled_submitCooldown, flagged_submitCooldown, cooled_submitCooldown]
    split_ifs <;> omega

theorem promote : Waits m.promote key validity due := by
  apply h.of_eq promote_asked promote_lastSubmit
  rw [cooled_submitCooldown, cooled_submitCooldown, promote_submitCooldown]

theorem submit (b : Bool) (hclock : p.clock ≤ due) :
    ((m.cooled validity).flagged b).submit p = (m.cooled validity).flagged b := by
  obtain ⟨lastSubmit, hsubmit, hdue⟩ := h.cooldown
  have hcooling : ((m.cooled validity).flagged b).cooldownDue p.clock = false := by
    unfold cooldownDue
    rw [flagged_lastSubmit, cooled_lastSubmit, hsubmit, flagged_submitCooldown]
    apply decide_eq_false
    omega
  unfold Monitor.submit
  rw [hcooling]
  rfl

theorem iterate [Profile]
    (hstatus : ∀ status, p.proverStatus = some status → status.toNat + validity.toNat < 2 ^ 64)
    (hseconds : ∀ seconds, p.attestValiditySeconds = some seconds → seconds.toNat = validity.toNat)
    (hclock : p.clock ≤ due) : ∃ m', m.iterate p = some m' ∧ Waits m' key validity due := by
  cases hproverStatus : p.proverStatus with
  | none =>
    refine ⟨m, ?_, h⟩
    rw [Monitor.iterate, hproverStatus]
  | some status =>
    have hbound := hstatus status hproverStatus
    have htime : status.toNat = (UInt64.ofNat status.toNat).toNat := by
      rw [UInt64.toNat_ofNat', Nat.mod_eq_of_lt (by omega)]
    cases hattestValiditySeconds : p.attestValiditySeconds with
    | none =>
      refine ⟨m, ?_, h⟩
      rw [Monitor.iterate, hproverStatus, hattestValiditySeconds]
      simp only [Option.bind_eq_bind, SU256.asU64_eq_some.mpr htime, Option.bind_some]
    | some seconds =>
      refine ⟨_, iterate_answered hproverStatus hattestValiditySeconds htime
        (hseconds seconds hattestValiditySeconds) (by omega), ?_⟩
      split_ifs
      · rw [h.submit _ hclock]
        exact h.flagged _
      · exact (h.flagged _).promote

end Waits

/-- A key that the chain has attested recently enough is promoted, or stays the prover's. -/
theorem iterate_approved [Profile] (hstatus : p.proverStatus = some status)
    (hseconds : p.attestValiditySeconds = some seconds) (hvalidity : seconds ≠ 0)
    (hbound : status.toNat + seconds.toNat < 2 ^ 64) (hnow : p.now.toNat ≤ status.toNat + seconds.toNat / 2) :
    ∃ m', m.iterate p = some m' ∧ m'.prover = ⟨m.asked, true⟩ ∧ m'.stagingKey = none := by
  have hpos : 0 < seconds.toNat := by
    rw [Nat.pos_iff_ne_zero]
    intro hzero
    exact hvalidity (BitVec.eq_of_toNat_eq hzero)
  have htoNat {n : ℕ} (hn : n < 2 ^ 64) : n = (UInt64.ofNat n).toNat := by
    rw [UInt64.toNat_ofNat', Nat.mod_eq_of_lt hn]
  have htime := htoNat (n := status.toNat) (by omega)
  have hlength := htoNat (n := seconds.toNat) (by omega)
  have hhalf : (UInt64.ofNat seconds.toNat / 2).toNat = seconds.toNat / 2 := by
    rw [UInt64.toNat_div, ← hlength]
    rfl
  have hrenewal : ¬ UInt64.ofNat status.toNat + UInt64.ofNat seconds.toNat / 2 < p.now := by
    rw [UInt64.lt_iff_toNat_lt, UInt64.toNat_add, hhalf, ← htime, Nat.mod_eq_of_lt (by omega)]
    omega
  have hexpiry : p.now < UInt64.ofNat status.toNat + UInt64.ofNat seconds.toNat := by
    rw [UInt64.lt_iff_toNat_lt, UInt64.toNat_add, ← hlength, ← htime, Nat.mod_eq_of_lt (by omega)]
    omega
  refine ⟨_, iterate_answered hstatus hseconds htime hlength (by omega), ?_⟩
  rw [if_neg hrenewal]
  refine ⟨?_, promote_stagingKey⟩
  rw [promote_prover, flagged_prover, flagged_stagingKey, cooled_stagingKey, cooled_prover, asked]
  cases m.stagingKey with
  | none =>
    rw [Option.getD_none, Prover.getPrvkey, decide_eq_true hexpiry]
  | some key => rfl

end Asked

end Monitor

end LineaSgxProver.Linea
