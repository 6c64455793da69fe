import Mathlib.Order.Basic

namespace LineaSgxProver.Library

/-- Why a call stops: it returns an error, or it panics. -/
inductive Fault (ε : Type) where
  | error (e : ε)
  | panic
  deriving DecidableEq, Repr

def Fault.map {ε ε' : Type} (f : ε → ε') : Fault ε → Fault ε'
  | .error e => .error (f e)
  | .panic => .panic

def orPanic {ε α : Type} : Option α → Except (Fault ε) α
  | some a => .ok a
  | none => .error .panic

@[simp] theorem orPanic_some {ε α : Type} (a : α) :
    (orPanic (some a) : Except (Fault ε) α) = .ok a := rfl

@[simp] theorem ok_bind {ε α β : Type} (a : α) (f : α → Except ε β) : (Except.ok a >>= f) = f a := rfl

def error? {ε α : Type} : Except (Fault ε) α → Option ε
  | .ok _ => none
  | .error (.error e) => some e
  | .error .panic => none

theorem error?_eq_some {ε α : Type} {x : Except (Fault ε) α} {e : ε} :
    error? x = some e ↔ x = .error (.error e) := by
  rcases x with (e' | _) | a <;> simp [error?]

theorem isOk_iff {ε α : Type} {x : Except ε α} : x.isOk = true ↔ ∃ a, x = .ok a := by
  cases x <;> simp [Except.isOk, Except.toBool]

theorem bind_eq_ok {ε α β : Type} {x : Except ε α} {f : α → Except ε β} {b : β} :
    x >>= f = .ok b ↔ ∃ a, x = .ok a ∧ f a = .ok b := by
  cases x with
  | ok a =>
    constructor
    · intro h
      exact ⟨a, rfl, h⟩
    · rintro ⟨_, ⟨⟩, h⟩
      exact h
  | error e =>
    constructor
    · rintro ⟨⟩
    · rintro ⟨_, ⟨⟩, _⟩

theorem orPanic_eq_ok {ε α : Type} {x : Option α} {a : α} :
    (orPanic x : Except (Fault ε) α) = .ok a ↔ x = some a := by
  cases x <;> simp [orPanic]

def NoPanic {ε α : Type} (x : Except (Fault ε) α) : Prop := x ≠ .error .panic

section NoPanic

variable {ε α β : Type}

theorem noPanic_ok (a : α) : NoPanic (.ok a : Except (Fault ε) α) := fun h => nomatch h

theorem noPanic_error (e : ε) : NoPanic (.error (.error e) : Except (Fault ε) α) := fun h => nomatch h

theorem noPanic_orPanic {x : Option α} : NoPanic (orPanic x : Except (Fault ε) α) ↔ x.isSome = true := by
  cases x with
  | none => exact ⟨fun h => absurd rfl h, fun h => nomatch h⟩
  | some a => exact ⟨fun _ => rfl, fun _ => noPanic_ok a⟩

theorem noPanic_error_iff (e : Fault ε) : NoPanic (.error e : Except (Fault ε) α) ↔ e ≠ .panic := by
  simp [NoPanic]

theorem noPanic_bind {x : Except (Fault ε) α} {f : α → Except (Fault ε) β} :
    NoPanic (x >>= f) ↔ NoPanic x ∧ ∀ a, x = .ok a → NoPanic (f a) := by
  cases x with
  | ok a =>
    constructor
    · intro h
      refine ⟨noPanic_ok a, ?_⟩
      rintro _ ⟨⟩
      exact h
    · rintro ⟨_, h⟩
      exact h a rfl
  | error e =>
    change NoPanic (.error e : Except (Fault ε) β) ↔ _
    rw [noPanic_error_iff, noPanic_error_iff]
    constructor
    · intro h
      exact ⟨h, fun _ ha => nomatch ha⟩
    · rintro ⟨h, _⟩
      exact h

end NoPanic

/-- A call that may stop early. What it did to the state before it stopped is kept. -/
def Action (σ φ α : Type) : Type := σ → Except φ α × σ

namespace Action

variable {σ τ φ α β : Type}

instance : Monad (Action σ φ) where
  pure a := fun s => (.ok a, s)
  bind x f := fun s =>
    match x s with
    | (.ok a, t) => f a t
    | (.error e, t) => (.error e, t)

def lift (x : Except φ α) : Action σ φ α := fun s => (x, s)

def read (f : σ → Except φ α) : Action σ φ α := fun s => (f s, s)

def update (f : σ → σ) : Action σ φ Unit := fun s => (.ok (), f s)

def zoom (get : σ → τ) (set : τ → σ → σ) (x : Action τ φ α) : Action σ φ α :=
  fun s => ((x (get s)).1, set (x (get s)).2 s)

def mapError {φ' : Type} (f : φ → φ') (x : Action σ φ α) : Action σ φ' α :=
  fun s => ((x s).1.mapError f, (x s).2)

def Returns (x : Action σ φ α) (s : σ) (a : α) (t : σ) : Prop := x s = (.ok a, t)

def Stops (x : Action σ φ α) (s : σ) (e : φ) (t : σ) : Prop := x s = (.error e, t)

section Rules

variable {x : Action σ φ α} {f : α → Action σ φ β} {s t u : σ} {a : α} {b : β} {e : φ}

theorem bind_apply (x : Action σ φ α) (f : α → Action σ φ β) (s : σ) :
    (x >>= f) s = match x s with
      | (.ok a, t) => f a t
      | (.error e, t) => (.error e, t) := rfl

theorem pure_bind (a : α) (f : α → Action σ φ β) : Pure.pure a >>= f = f a := rfl

theorem lift_ok_bind (a : α) (f : α → Action σ φ β) : Action.lift (.ok a) >>= f = f a := rfl

theorem bind_pure (x : Action σ φ α) : (x >>= fun a => Pure.pure a) = x := by
  funext s
  rw [bind_apply]
  rcases x s with ⟨_ | a, t⟩ <;> rfl

theorem bind_assoc {γ : Type} (x : Action σ φ α) (f : α → Action σ φ β) (g : β → Action σ φ γ) :
    x >>= f >>= g = x >>= fun a => f a >>= g := by
  funext s
  simp only [bind_apply]
  rcases x s with ⟨_ | a, t⟩ <;> rfl

theorem Returns.pure (a : α) (s : σ) : Returns (Pure.pure a : Action σ φ α) s a s := rfl

theorem Returns.bind (hx : Returns x s a t) (hf : Returns (f a) t b u) :
    Returns (x >>= f) s b u := by
  unfold Returns at *
  rw [bind_apply, hx]
  exact hf

theorem Returns.bind_eq (hx : Returns x s a t) : (x >>= f) s = f a t := by
  rw [bind_apply, hx]

theorem Stops.head (hx : Stops x s e t) : Stops (x >>= f) s e t := by
  unfold Stops at *
  rw [bind_apply, hx]

theorem Returns.stops (hx : Returns x s a t) (hf : Stops (f a) t e u) :
    Stops (x >>= f) s e u := by
  unfold Returns Stops at *
  rw [bind_apply, hx]
  exact hf

theorem map_apply (g : α → β) (x : Action σ φ α) (s : σ) : (g <$> x) s = ((x s).1.map g, (x s).2) := by
  change (x >>= fun a => Pure.pure (g a)) s = _
  rw [bind_apply]
  rcases x s with ⟨_ | a, t⟩ <;> rfl

theorem Returns.map (hx : Returns x s a t) (g : α → β) : Returns (g <$> x) s (g a) t := by
  unfold Returns at *
  rw [map_apply, hx]
  rfl

theorem Returns.lift (a : α) (s : σ) : Returns (Action.lift (.ok a) : Action σ φ α) s a s := rfl

theorem Returns.read {g : σ → Except φ α} (h : g s = .ok a) : Returns (Action.read g) s a s := by
  simp only [Returns, Action.read, h]

theorem Stops.read {g : σ → Except φ α} (h : g s = .error e) : Stops (Action.read g) s e s := by
  simp only [Stops, Action.read, h]

theorem Returns.update (g : σ → σ) (s : σ) : Returns (Action.update g : Action σ φ Unit) s () (g s) := rfl

theorem Returns.zoom {get : σ → τ} {set : τ → σ → σ} {y : Action τ φ α} {v : τ}
    (h : Returns y (get s) a v) : Returns (Action.zoom get set y) s a (set v s) := by
  unfold Returns at *
  simp only [Action.zoom, h]

theorem Stops.zoom {get : σ → τ} {set : τ → σ → σ} {y : Action τ φ α} {v : τ}
    (h : Stops y (get s) e v) : Stops (Action.zoom get set y) s e (set v s) := by
  unfold Stops at *
  simp only [Action.zoom, h]

theorem bind_returns_iff :
    Returns (x >>= f) s b u ↔ ∃ a t, Returns x s a t ∧ Returns (f a) t b u := by
  constructor
  · intro h
    unfold Returns at h
    rw [bind_apply] at h
    rcases hx : x s with ⟨_ | a, t⟩
    · simp [hx] at h
    · exact ⟨a, t, hx, by simpa only [hx, Returns] using h⟩
  · rintro ⟨a, t, hx, hf⟩
    exact hx.bind hf

theorem bind_stops_iff :
    Stops (x >>= f) s e u ↔ Stops x s e u ∨ ∃ a t, Returns x s a t ∧ Stops (f a) t e u := by
  constructor
  · intro h
    unfold Stops at h
    rw [bind_apply] at h
    rcases hx : x s with ⟨e' | a, t⟩
    · have hstop : ((.error e', t) : Except φ β × σ) = (.error e, u) := by rwa [hx] at h
      obtain ⟨⟨⟩, rfl⟩ := Prod.mk.inj hstop
      exact Or.inl hx
    · rw [hx] at h
      exact Or.inr ⟨a, t, hx, h⟩
  · rintro (h | ⟨a, t, hx, hf⟩)
    · exact h.head
    · exact hx.stops hf

end Rules

/-- Whatever the call returns, the state it leaves is related to the one it found. -/
def Keeps (R : σ → σ → Prop) (x : Action σ φ α) : Prop := ∀ s, R s (x s).2

namespace Keeps

variable {R : σ → σ → Prop} {x : Action σ φ α}

theorem pure (refl : ∀ s, R s s) (a : α) : Keeps R (Pure.pure a : Action σ φ α) := refl

theorem lift (refl : ∀ s, R s s) (r : Except φ α) : Keeps R (Action.lift r) := refl

theorem read (refl : ∀ s, R s s) (g : σ → Except φ α) : Keeps R (Action.read g) := refl

theorem bind (trans : ∀ {s t u}, R s t → R t u → R s u) (hx : Keeps R x) {f : α → Action σ φ β}
    (hf : ∀ a, Keeps R (f a)) : Keeps R (x >>= f) := by
  intro s
  have hs := hx s
  rw [bind_apply]
  rcases he : x s with ⟨_ | a, t⟩
  · simpa only [he] using hs
  · rw [he] at hs
    exact trans hs (hf a t)

theorem zoom {Q : τ → τ → Prop} {get : σ → τ} {set : τ → σ → σ} {y : Action τ φ α}
    (hset : ∀ s v, Q (get s) v → R s (set v s)) (hy : Keeps Q y) : Keeps R (Action.zoom get set y) :=
  fun s => hset s _ (hy (get s))

end Keeps

/-- Seen through `π`, the first call is the second one. -/
def Projects (π : σ → τ) (x : Action σ φ α) (y : Action τ φ α) : Prop :=
  ∀ s, y (π s) = ((x s).1, π (x s).2)

namespace Projects

variable {π : σ → τ} {x : Action σ φ α} {y : Action τ φ α}

theorem pure (a : α) : Projects π (Pure.pure a : Action σ φ α) (Pure.pure a) := fun _ => rfl

theorem lift (r : Except φ α) : Projects π (Action.lift r) (Action.lift r) := fun _ => rfl

theorem read {g : σ → Except φ α} {g' : τ → Except φ α} (h : ∀ s, g' (π s) = g s) :
    Projects π (Action.read g) (Action.read g') := by
  intro s
  simp only [Action.read, h]

theorem bind {f : α → Action σ φ β} {f' : α → Action τ φ β} (hx : Projects π x y)
    (hf : ∀ a, Projects π (f a) (f' a)) : Projects π (x >>= f) (y >>= f') := by
  intro s
  rw [bind_apply, bind_apply, hx s]
  rcases x s with ⟨_ | a, t⟩
  · rfl
  · exact hf a t

theorem zoom {υ ω : Type} {ρ : υ → ω} {get : σ → υ} {set : υ → σ → σ} {get' : τ → ω}
    {set' : ω → τ → τ} {u : Action υ φ α} {v : Action ω φ α} (hget : ∀ s, get' (π s) = ρ (get s))
    (hset : ∀ s w, set' (ρ w) (π s) = π (set w s)) (h : Projects ρ u v) :
    Projects π (Action.zoom get set u) (Action.zoom get' set' v) := by
  intro s
  simp only [Action.zoom, hget, h (get s), hset]

theorem returns {s : σ} {a : α} {t : σ} (h : Projects π x y) (hx : Returns x s a t) :
    Returns y (π s) a (π t) := by
  unfold Returns at *
  rw [h s, hx]

theorem stops {s : σ} {e : φ} {t : σ} (h : Projects π x y) (hx : Stops x s e t) :
    Stops y (π s) e (π t) := by
  unfold Stops at *
  rw [h s, hx]

theorem exists_returns {s : σ} {a : α} {t : τ} (h : Projects π x y) (hy : Returns y (π s) a t) :
    ∃ t', Returns x s a t' ∧ π t' = t := by
  unfold Returns at *
  rw [h s] at hy
  exact ⟨(x s).2, Prod.ext (Prod.mk.inj hy).1 rfl, (Prod.mk.inj hy).2⟩

theorem exists_stops {s : σ} {e : φ} {t : τ} (h : Projects π x y) (hy : Stops y (π s) e t) :
    ∃ t', Stops x s e t' ∧ π t' = t := by
  unfold Stops at *
  rw [h s] at hy
  exact ⟨(x s).2, Prod.ext (Prod.mk.inj hy).1 rfl, (Prod.mk.inj hy).2⟩

end Projects

/-- Adding to a state makes it larger. -/
structure Enlarges (ι : σ → σ) (le : σ → σ → Prop) : Prop where
  refl : ∀ s, le s s
  trans : ∀ {s t u}, le s t → le t u → le s u
  larger : ∀ s, le s (ι s)

/-- On states that `ι` adds to, the call does the same, unless it stops here with a fault that `lost` names:
then it gets at least as far there. -/
structure Persists (ι : σ → σ) (le : σ → σ → Prop) (lost : φ → Prop) (x : Action σ φ α) : Prop where
  same : ∀ s, x (ι s) = ((x s).1, ι (x s).2) ∨ (∃ e, (x s).1 = .error e ∧ lost e) ∧ le (x s).2 (x (ι s)).2
  grows : Keeps le x

namespace Persists

variable {ι : σ → σ} {le : σ → σ → Prop} {lost : φ → Prop} {x : Action σ φ α}

theorem pure (h : Enlarges ι le) (a : α) : Persists ι le lost (Pure.pure a : Action σ φ α) where
  same _ := Or.inl rfl
  grows := Keeps.pure h.refl a

theorem lift (h : Enlarges ι le) (r : Except φ α) : Persists ι le lost (Action.lift r) where
  same _ := Or.inl rfl
  grows := Keeps.lift h.refl r

theorem read (h : Enlarges ι le) {g : σ → Except φ α} (hg : ∀ s, g (ι s) = g s ∨ ∃ e, g s = .error e ∧ lost e) :
    Persists ι le lost (Action.read g) where
  same s := by
    rcases hg s with hg | hg
    · exact Or.inl (congrArg (·, ι s) hg)
    · exact Or.inr ⟨hg, h.larger s⟩
  grows := Keeps.read h.refl g

theorem update {g : σ → σ} (hg : ∀ s, g (ι s) = ι (g s)) (hle : ∀ s, le s (g s)) :
    Persists ι le lost (Action.update g : Action σ φ Unit) where
  same s := Or.inl (congrArg (Except.ok (), ·) (hg s))
  grows := hle

theorem bind (h : Enlarges ι le) {f : α → Action σ φ β} (hx : Persists ι le lost x)
    (hf : ∀ a, Persists ι le lost (f a)) : Persists ι le lost (x >>= f) where
  same s := by
    rcases hx.same s with hsame | ⟨⟨e, he, hlost⟩, hfar⟩
    · rw [bind_apply, bind_apply, hsame]
      rcases x s with ⟨e | a, t⟩
      · exact Or.inl rfl
      · exact (hf a).same t
    · have hstop : Stops (x >>= f) s e (x s).2 := Stops.head (Prod.ext he rfl)
      refine Or.inr ⟨⟨e, congrArg Prod.fst hstop, hlost⟩, ?_⟩
      have hend : ((x >>= f) s).2 = (x s).2 := congrArg Prod.snd hstop
      rw [hend, bind_apply]
      rcases hthere : x (ι s) with ⟨e' | a, t⟩
      · rwa [hthere] at hfar
      · rw [hthere] at hfar
        exact h.trans hfar ((hf a).grows t)
  grows := Keeps.bind (R := le) h.trans hx.grows fun a => (hf a).grows

theorem farther (h : Enlarges ι le) (hx : Persists ι le lost x) (s : σ) : le (x s).2 (x (ι s)).2 := by
  rcases hx.same s with hsame | ⟨_, hfar⟩
  · rw [hsame]
    exact h.larger _
  · exact hfar

theorem returns {s t : σ} {a : α} (hx : Persists ι le lost x) (h : Returns x s a t) : Returns x (ι s) a (ι t) := by
  rcases hx.same s with hsame | ⟨⟨e, he, _⟩, _⟩
  · rw [h] at hsame
    exact hsame
  · rw [h] at he
    cases he

theorem stops {s t : σ} {e : φ} (hx : Persists ι le lost x) (h : Stops x s e t) (he : ¬ lost e) :
    Stops x (ι s) e (ι t) := by
  rcases hx.same s with hsame | ⟨⟨e', he', hlost⟩, _⟩
  · rw [h] at hsame
    exact hsame
  · rw [h] at he'
    cases he'
    exact absurd hlost he

theorem zoom {ιτ : τ → τ} {leτ : τ → τ → Prop} {get : σ → τ} {set : τ → σ → σ} {y : Action τ φ α}
    (hget : ∀ s, get (ι s) = ιτ (get s)) (hset : ∀ v s, set (ιτ v) (ι s) = ι (set v s))
    (hle : ∀ {v w} s, leτ v w → le (set v s) (set w (ι s))) (hgrow : ∀ s v, leτ (get s) v → le s (set v s))
    (hy : Persists ιτ leτ lost y) : Persists ι le lost (Action.zoom get set y) where
  same s := by
    rcases hy.same (get s) with hsame | ⟨hlost, hfar⟩
    · left
      simp only [Action.zoom, hget, hsame, hset]
    · right
      refine ⟨hlost, ?_⟩
      simp only [Action.zoom, hget]
      exact hle s hfar
  grows := Keeps.zoom hgrow hy.grows

end Persists

end Action

end LineaSgxProver.Library
