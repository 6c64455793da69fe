import Mathlib.Data.List.Induction

namespace LineaSgxProver.Library

namespace Run

variable {σ τ β : Type} (step : σ → τ → σ)

/-- The state after a list of events. -/
def after (s : σ) (ts : List τ) : σ := ts.foldl step s

variable {step} {s : σ}

@[simp] theorem after_nil : after step s [] = s := rfl

theorem after_append (xs ys : List τ) : after step s (xs ++ ys) = after step (after step s xs) ys :=
  List.foldl_append

theorem after_snoc (xs : List τ) (t : τ) : after step s (xs ++ [t]) = step (after step s xs) t := by
  rw [after_append]
  rfl

/-- What every event keeps, as long as the events meet a condition, holds at the end. -/
theorem invariant {P : σ → Prop} {C : σ → τ → Prop} (hstep : ∀ s t, P s → C s t → P (step s t))
    (hs : P s) (ts : List τ) (hC : ∀ pre t post, ts = pre ++ t :: post → C (after step s pre) t) :
    P (after step s ts) := by
  induction ts using List.reverseRecOn with
  | nil => exact hs
  | append_singleton ts t ih =>
    rw [after_snoc]
    apply hstep
    · apply ih
      intro pre u post heq
      exact hC pre u (post ++ [t]) (by rw [heq, List.append_assoc, List.cons_append])
    · exact hC ts t [] rfl

/-- A view of the state has its first value, or some event was the last to write it. -/
theorem last_write {f : σ → β} {W : σ → τ → β → Prop}
    (hstep : ∀ s t, f (step s t) = f s ∨ W s t (f (step s t))) (ts : List τ) :
    f (after step s ts) = f s ∨
      ∃ pre t post, ts = pre ++ t :: post ∧ W (after step s pre) t (f (after step s ts)) := by
  induction ts using List.reverseRecOn with
  | nil => exact Or.inl rfl
  | append_singleton ts t ih =>
    rw [after_snoc]
    rcases hstep (after step s ts) t with hkeep | hwrite
    · rw [hkeep]
      rcases ih with hfirst | ⟨pre, u, post, heq, hwrite⟩
      · exact Or.inl hfirst
      · exact Or.inr ⟨pre, u, post ++ [t], by rw [heq, List.append_assoc, List.cons_append], hwrite⟩
    · exact Or.inr ⟨ts, t, [], rfl, hwrite⟩

/-- A view of the state that is no longer its first value is what the last event to write it wrote. -/
theorem view_iff_last_write {f : σ → β} {W : σ → τ → Prop} {v : τ → β}
    (hwrite : ∀ s t, W s t → f (step s t) = v t) (hkeep : ∀ s t, ¬ W s t → f (step s t) = f s)
    (ts : List τ) {b : β} (hb : b ≠ f s) :
    f (after step s ts) = b ↔ ∃ pre t post, ts = pre ++ t :: post ∧ W (after step s pre) t ∧ v t = b ∧
      ∀ mid u rest, post = mid ++ u :: rest → ¬ W (after step s (pre ++ t :: mid)) u := by
  constructor
  · intro h
    induction ts using List.reverseRecOn with
    | nil => exact absurd h.symm hb
    | append_singleton ts t ih =>
      rw [after_snoc] at h
      by_cases hW : W (after step s ts) t
      · refine ⟨ts, t, [], rfl, hW, (hwrite _ t hW).symm.trans h, ?_⟩
        intro mid u rest heq
        simp at heq
      · rw [hkeep _ t hW] at h
        obtain ⟨pre, u, post, rfl, hu, hv, hrest⟩ := ih h
        refine ⟨pre, u, post ++ [t], by simp, hu, hv, ?_⟩
        intro mid w rest heq
        rcases List.eq_nil_or_concat rest with rfl | ⟨rest, x, rfl⟩
        · obtain ⟨rfl, hw⟩ := List.append_inj' heq rfl
          obtain rfl : t = w := by simpa using hw
          exact hW
        · apply hrest mid w rest
          have heq' : post ++ [t] = (mid ++ w :: rest) ++ [x] := by simpa using heq
          exact (List.append_inj' heq' rfl).1
  · rintro ⟨pre, t, post, rfl, hW, rfl, hrest⟩
    have hlast (mid rest : List τ) (heq : post = mid ++ rest) :
        f (after step s (pre ++ t :: mid)) = v t := by
      induction mid using List.reverseRecOn generalizing rest with
      | nil =>
        rw [after_snoc]
        exact hwrite _ t hW
      | append_singleton mid u ih =>
        have hu := hrest mid u rest (by simpa using heq)
        rw [← List.cons_append, ← List.append_assoc, after_snoc, hkeep _ u hu]
        exact ih (u :: rest) (by simpa using heq)
    exact hlast post [] (List.append_nil post).symm

/-- What the last event that has something to say tells. -/
def last (tells : τ → Option β) (ts : List τ) : Option β := ts.foldl (fun told t => (tells t).or told) none

theorem last_snoc (tells : τ → Option β) (ts : List τ) (t : τ) :
    last tells (ts ++ [t]) = (tells t).or (last tells ts) := by
  simp only [last, List.foldl_append, List.foldl_cons, List.foldl_nil]

/-- What the first state has and every event of a run keeps, as long as the run goes on, holds at its end. -/
theorem foldlM_induction {next : σ → τ → Option σ} {P : List τ → σ → Prop} (hnil : P [] s) (ts : List τ)
    (hsnoc : ∀ pre t post u v, ts = pre ++ t :: post → pre.foldlM next s = some u → P pre u →
      next u t = some v → P (pre ++ [t]) v) {u : σ} (h : ts.foldlM next s = some u) : P ts u := by
  induction ts using List.reverseRecOn generalizing u with
  | nil =>
    obtain rfl : s = u := Option.some.inj h
    exact hnil
  | append_singleton ts t ih =>
    rw [List.foldlM_append, Option.bind_eq_bind, Option.bind_eq_some_iff] at h
    obtain ⟨v, hpre, hlast⟩ := h
    rw [List.foldlM_cons, Option.bind_eq_bind, Option.bind_eq_some_iff] at hlast
    obtain ⟨w, hnext, hw⟩ := hlast
    obtain rfl : w = u := Option.some.inj hw
    apply hsnoc ts t [] v w rfl hpre _ hnext
    apply ih _ hpre
    intro pre t' post u' v' heq
    exact hsnoc pre t' (post ++ [t]) u' v' (by rw [heq, List.append_assoc, List.cons_append])

section Last

variable {next : σ → τ → Option σ} {P : σ → τ → Prop} {ts : List τ} {t v : τ} {u : σ}

theorem foldlM_snoc (h : ts.foldlM next s = some u) : (ts ++ [t]).foldlM next s = next u t := by
  rw [List.foldlM_append, h]
  exact bind_pure (next u t)

/-- The last event of a run that found the state in this way. -/
def LastEvent (next : σ → τ → Option σ) (s : σ) (P : σ → τ → Prop) (ts : List τ) (t : τ) : Prop :=
  ∃ pre post u, ts = pre ++ t :: post ∧ pre.foldlM next s = some u ∧ P u t ∧
    ∀ mid v rest w, post = mid ++ v :: rest → (pre ++ t :: mid).foldlM next s = some w → ¬ P w v

theorem lastEvent_nil : ¬ LastEvent next s P [] t := by
  rintro ⟨pre, post, u, heq, -⟩
  cases pre <;> cases heq

theorem lastEvent_snoc (h : ts.foldlM next s = some u) :
    LastEvent next s P (ts ++ [t]) v ↔ (P u t ∧ v = t) ∨ (¬ P u t ∧ LastEvent next s P ts v) := by
  constructor
  · rintro ⟨pre, post, w, heq, hpre, hw, hrest⟩
    rcases List.eq_nil_or_concat post with rfl | ⟨post, x, rfl⟩
    · obtain ⟨rfl, ht⟩ := List.append_inj' heq rfl
      obtain rfl : t = v := by simpa using ht
      obtain rfl : u = w := Option.some.inj (h.symm.trans hpre)
      exact Or.inl ⟨hw, rfl⟩
    · have hsplit : ts ++ [t] = (pre ++ v :: post) ++ [x] := by simpa using heq
      obtain ⟨rfl, ht⟩ := List.append_inj' hsplit rfl
      obtain rfl : t = x := by simpa using ht
      refine Or.inr ⟨hrest post t [] u (by simp) h, pre, post, w, rfl, hpre, hw, ?_⟩
      intro mid y rest w' hpost
      exact hrest mid y (rest ++ [t]) w' (by simp [hpost])
  · rintro (⟨ht, rfl⟩ | ⟨ht, pre, post, w, rfl, hpre, hw, hrest⟩)
    · refine ⟨ts, [], u, rfl, h, ht, ?_⟩
      intro mid y rest w hnil
      cases mid <;> cases hnil
    · refine ⟨pre, post ++ [t], w, by simp, hpre, hw, ?_⟩
      intro mid y rest w' hpost hrun
      rcases List.eq_nil_or_concat rest with rfl | ⟨rest, x, rfl⟩
      · obtain ⟨rfl, hy⟩ := List.append_inj' hpost rfl
        obtain rfl : t = y := by simpa using hy
        obtain rfl : u = w' := Option.some.inj (h.symm.trans hrun)
        exact ht
      · have hsplit : post ++ [t] = (mid ++ y :: rest) ++ [x] := by simpa using hpost
        exact hrest mid y rest w' (List.append_inj' hsplit rfl).1 hrun

/-- A view of the state that is no longer its first value is what the last event to change it has told. -/
theorem view_iff_lastEvent {f : σ → β} {g : τ → β} {b : β}
    (hchange : ∀ u t v, next u t = some v → P u t → f v = g t)
    (hkeep : ∀ u t v, next u t = some v → ¬ P u t → f v = f u) (hb : b ≠ f s)
    (h : ts.foldlM next s = some u) : f u = b ↔ ∃ t, LastEvent next s P ts t ∧ g t = b := by
  induction ts using List.reverseRecOn generalizing u with
  | nil =>
    obtain rfl : s = u := Option.some.inj h
    refine iff_of_false hb.symm ?_
    rintro ⟨t, ht, -⟩
    exact lastEvent_nil ht
  | append_singleton ts t ih =>
    obtain ⟨w, hw, hlast⟩ := Option.bind_eq_some_iff.mp (List.foldlM_append.symm.trans h)
    have hnext : next w t = some u := by rwa [← foldlM_snoc hw]
    simp only [lastEvent_snoc hw]
    by_cases ht : P w t
    · simp [hchange w t u hnext ht, ht]
    · simpa [hkeep w t u hnext ht, ht] using ih hw

end Last

end Run

end LineaSgxProver.Library
