import LineaSgxProver.Library.Action
import Mathlib.Data.List.Forall2

namespace LineaSgxProver.Library

theorem mapM_eq_ok {ε α β : Type} {f : α → Except ε β} {l : List α} {bs : List β} :
    l.mapM f = .ok bs ↔ List.Forall₂ (fun a b => f a = .ok b) l bs := by
  induction l generalizing bs with
  | nil =>
    rw [List.mapM_nil, List.forall₂_nil_left_iff]
    exact ⟨fun h => (Except.ok.inj h).symm, fun h => congrArg Except.ok h.symm⟩
  | cons a l ih =>
    rw [List.mapM_cons, bind_eq_ok, List.forall₂_cons_left_iff]
    constructor
    · rintro ⟨b, hb, h⟩
      obtain ⟨rest, hrest, hbs⟩ := bind_eq_ok.mp h
      exact ⟨b, rest, hb, ih.mp hrest, (Except.ok.inj hbs).symm⟩
    · rintro ⟨b, rest, hb, hrest, rfl⟩
      exact ⟨b, hb, bind_eq_ok.mpr ⟨rest, ih.mpr hrest, rfl⟩⟩

namespace Action

variable {σ τ φ α β ι : Type}

section Zoom

variable {get : σ → τ} {set : τ → σ → σ}

theorem zoom_map (x : Action τ φ α) (g : α → β) : Action.zoom get set (g <$> x) = g <$> Action.zoom get set x := by
  funext s
  simp only [Action.zoom, map_apply]

theorem zoom_bind (hget : ∀ a s, get (set a s) = a) (hset : ∀ a b s, set b (set a s) = set b s)
    (x : Action τ φ α) (f : α → Action τ φ β) :
    Action.zoom get set (x >>= f) = Action.zoom get set x >>= fun a => Action.zoom get set (f a) := by
  funext s
  simp only [Action.zoom, bind_apply]
  rcases x (get s) with ⟨_ | a, t⟩
  · rfl
  · simp only [hget, hset]

end Zoom

/-- From related states both calls return the same, and they leave related states. -/
def Simulates (R : σ → τ → Prop) (x : Action σ φ α) (y : Action τ φ α) : Prop :=
  ∀ s t, R s t → (x s).1 = (y t).1 ∧ R (x s).2 (y t).2

namespace Simulates

variable {R : σ → τ → Prop} {x : Action σ φ α} {y : Action τ φ α}

theorem pure (a : α) : Simulates R (Pure.pure a : Action σ φ α) (Pure.pure a) := fun _ _ h => ⟨rfl, h⟩

theorem lift (r : Except φ α) : Simulates R (Action.lift r) (Action.lift r) := fun _ _ h => ⟨rfl, h⟩

theorem bind (hx : Simulates R x y) {f : α → Action σ φ β} {g : α → Action τ φ β}
    (hf : ∀ a, Simulates R (f a) (g a)) : Simulates R (x >>= f) (y >>= g) := by
  intro s t h
  obtain ⟨hret, hstate⟩ := hx s t h
  rw [bind_apply, bind_apply]
  rcases hs : x s with ⟨r, s'⟩
  rcases ht : y t with ⟨r', t'⟩
  rw [hs, ht] at hret hstate
  obtain rfl : r = r' := hret
  cases r with
  | error e => exact ⟨rfl, hstate⟩
  | ok a => exact hf a s' t' hstate

theorem map (hx : Simulates R x y) (g : α → β) : Simulates R (g <$> x) (g <$> y) :=
  hx.bind fun a => pure (g a)

theorem mapError {φ' : Type} (hx : Simulates R x y) (f : φ → φ') :
    Simulates R (Action.mapError f x) (Action.mapError f y) := by
  intro s t h
  obtain ⟨hret, hstate⟩ := hx s t h
  exact ⟨congrArg (Except.mapError f) hret, hstate⟩

theorem zoom {υ ω : Type} {Q : υ → ω → Prop} {get : σ → υ} {set : υ → σ → σ} {get' : τ → ω}
    {set' : ω → τ → τ} {u : Action υ φ α} {v : Action ω φ α} (hget : ∀ s t, R s t → Q (get s) (get' t))
    (hset : ∀ s t a b, R s t → Q a b → R (set a s) (set' b t)) (h : Simulates Q u v) :
    Simulates R (Action.zoom get set u) (Action.zoom get' set' v) := by
  intro s t hst
  obtain ⟨hret, hstate⟩ := h _ _ (hget s t hst)
  exact ⟨hret, hset s t _ _ hst hstate⟩

end Simulates

/-- The calls are made one after the other, and none is made after a panic. -/
def runAll {ε : Type} (call : ι → Action σ (Fault ε) α) : List ι → σ → List (Except (Fault ε) α) × σ
  | [], s => ([], s)
  | i :: is, s =>
    match call i s with
    | (.error .panic, s) => ([.error .panic], s)
    | (result, s) => (result :: (runAll call is s).1, (runAll call is s).2)

theorem Simulates.runAll {ε : Type} {R : σ → τ → Prop} {x : ι → Action σ (Fault ε) α}
    {y : ι → Action τ (Fault ε) α} (hstep : ∀ i, Simulates R (x i) (y i)) (is : List ι) {s : σ} {t : τ}
    (h : R s t) :
    (Action.runAll x is s).1 = (Action.runAll y is t).1 ∧
      R (Action.runAll x is s).2 (Action.runAll y is t).2 := by
  induction is generalizing s t with
  | nil => exact ⟨rfl, h⟩
  | cons i is ih =>
    obtain ⟨hret, hstate⟩ := hstep i s t h
    rw [Action.runAll, Action.runAll]
    rcases hs : x i s with ⟨r, s'⟩
    rcases ht : y i t with ⟨r', t'⟩
    rw [hs, ht] at hret hstate
    obtain rfl : r = r' := hret
    obtain ⟨hrets, hstates⟩ := ih hstate
    rcases r with (e | _) | a
    · exact ⟨congrArg _ hrets, hstates⟩
    · exact ⟨rfl, hstate⟩
    · exact ⟨congrArg _ hrets, hstates⟩

end Action

end LineaSgxProver.Library
