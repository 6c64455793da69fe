import Mathlib.Logic.Relation
import Mathlib.Order.Basic

namespace LineaSgxProver.Library

/-- What a pass of a loop comes to: a state to go on from, or a result. -/
inductive Pass (σ α : Type) where
  | next (s : σ)
  | done (a : α)
  deriving DecidableEq

namespace Loop

variable {σ ε α : Type} (pass : σ → Except ε (Pass σ α))

def run : ℕ → σ → Option (Except ε α)
  | 0, _ => none
  | passes + 1, s =>
    match pass s with
    | .error e => some (.error e)
    | .ok (.done a) => some (.ok a)
    | .ok (.next s') => run passes s'

def Continues (s s' : σ) : Prop := pass s = .ok (.next s')

def Visits : σ → σ → Prop := Relation.ReflTransGen (Continues pass)

variable {pass} {s s' : σ} {passes : ℕ}

theorem run_next (h : Continues pass s s') : run pass (passes + 1) s = run pass passes s' := by
  rw [run, h]

theorem run_done {a : α} (h : pass s = .ok (.done a)) : run pass (passes + 1) s = some (.ok a) := by
  rw [run, h]

theorem run_error {e : ε} (h : pass s = .error e) : run pass (passes + 1) s = some (.error e) := by
  rw [run, h]

/-- A loop whose passes all make a number smaller ends within as many passes. -/
theorem run_isSome (μ : σ → ℕ) (hμ : ∀ t t', Visits pass s t → Continues pass t t' → μ t' < μ t)
    (h : μ s < passes) : (run pass passes s).isSome = true := by
  induction passes generalizing s with
  | zero => omega
  | succ passes ih =>
    cases hpass : pass s with
    | error e =>
      rw [run_error hpass]
      rfl
    | ok r =>
      cases r with
      | done a =>
        rw [run_done hpass]
        rfl
      | next s' =>
        have hless := hμ s s' Relation.ReflTransGen.refl hpass
        rw [run_next hpass]
        apply ih
        · intro t t' ht
          exact hμ t t' (Relation.ReflTransGen.head hpass ht)
        · omega

/-- A result is the one of the last state. -/
theorem run_ok {a : α} (h : run pass passes s = some (.ok a)) : ∃ t, Visits pass s t ∧ pass t = .ok (.done a) := by
  induction passes generalizing s with
  | zero => cases h
  | succ passes ih =>
    cases hpass : pass s with
    | error e =>
      rw [run_error hpass] at h
      cases h
    | ok r =>
      cases r with
      | done b =>
        rw [run_done hpass] at h
        cases h
        exact ⟨s, Relation.ReflTransGen.refl, hpass⟩
      | next s' =>
        rw [run_next hpass] at h
        obtain ⟨t, ht, hdone⟩ := ih h
        exact ⟨t, Relation.ReflTransGen.head hpass ht, hdone⟩

/-- A loop that always goes on, from states of a kind to states of the kind, does not end. -/
theorem run_none {P : σ → Prop} (hP : ∀ t, P t → ∃ t', Continues pass t t' ∧ P t') (hs : P s) (passes : ℕ) :
    run pass passes s = none := by
  induction passes generalizing s with
  | zero => rfl
  | succ passes ih =>
    obtain ⟨s', hnext, hs'⟩ := hP s hs
    rw [run_next hnext]
    exact ih hs'

theorem run_mono {r : Except ε α} (h : run pass passes s = some r) (k : ℕ) :
    run pass (passes + k) s = some r := by
  induction passes generalizing s with
  | zero => cases h
  | succ passes ih =>
    rw [Nat.succ_add_eq_add_succ, Nat.add_succ]
    cases hpass : pass s with
    | error e => rwa [run_error hpass] at h ⊢
    | ok q =>
      cases q with
      | done a => rwa [run_done hpass] at h ⊢
      | next s' =>
        rw [run_next hpass] at h ⊢
        exact ih h

def Ends (pass : σ → Except ε (Pass σ α)) (s : σ) (r : Except ε α) : Prop := ∃ passes, run pass passes s = some r

theorem ends_next {r : Except ε α} (h : Continues pass s s') (hends : Ends pass s' r) : Ends pass s r := by
  obtain ⟨passes, hrun⟩ := hends
  exact ⟨passes + 1, (run_next h).trans hrun⟩

theorem ends_done {a : α} (h : pass s = .ok (.done a)) : Ends pass s (.ok a) := ⟨1, run_done h⟩

theorem ends_error {e : ε} (h : pass s = .error e) : Ends pass s (.error e) := ⟨1, run_error h⟩

end Loop

end LineaSgxProver.Library
