import Mathlib.Data.List.Chain
import Mathlib.Data.List.Nodup
import Mathlib.Logic.Function.Basic

namespace LineaSgxProver.Library

namespace AssocList

variable {ι ν : Type} [DecidableEq ι]

def toMap (es : List (ι × ν)) : ι → Option ν := fun i => es.lookup i

theorem toMap_append (as bs : List (ι × ν)) (i : ι) :
    toMap (as ++ bs) i = (toMap as i).or (toMap bs i) := List.lookup_append

theorem toMap_eq_none {es : List (ι × ν)} {i : ι} (h : i ∉ es.map Prod.fst) : toMap es i = none := by
  apply List.lookup_eq_none_iff.mpr
  intro e he
  have hne : i ≠ e.1 := by
    rintro rfl
    exact h (List.mem_map_of_mem he)
  simp [hne]

theorem toMap_middle {as bs : List (ι × ν)} {i : ι} {v : ν} (h : i ∉ as.map Prod.fst) :
    toMap (as ++ (i, v) :: bs) i = some v := by
  rw [toMap_append, toMap_eq_none h]
  simp [toMap]

theorem toMap_other {as bs : List (ι × ν)} {i j : ι} {v : ν} (h : j ≠ i) :
    toMap (as ++ (i, v) :: bs) j = toMap (as ++ bs) j := by
  have hne : (j == i) = false := beq_false_of_ne h
  have hcons : toMap ((i, v) :: bs) j = toMap bs j := by
    simp only [toMap, List.lookup_cons, hne]
  rw [toMap_append, toMap_append, hcons]

theorem update_replace {as bs : List (ι × ν)} {i : ι} {v : ν} (w : ν) (h : i ∉ as.map Prod.fst) :
    Function.update (toMap (as ++ (i, v) :: bs)) i (some w) = toMap (as ++ (i, w) :: bs) := by
  funext j
  by_cases hj : j = i
  · subst hj
    rw [Function.update_self, toMap_middle h]
  · rw [Function.update_of_ne hj, toMap_other hj, toMap_other hj]

theorem toMap_eq_some_iff {es : List (ι × ν)} (h : (es.map Prod.fst).Nodup) {i : ι} {v : ν} :
    toMap es i = some v ↔ (i, v) ∈ es := by
  constructor
  · intro hv
    obtain ⟨as, bs, rfl, _⟩ := List.lookup_eq_some_iff.mp hv
    simp
  · intro hmem
    obtain ⟨as, bs, rfl⟩ := List.append_of_mem hmem
    apply toMap_middle
    rw [List.map_append, List.map_cons] at h
    have hdisj := (List.nodup_append.mp h).2.2
    intro hi
    exact hdisj i hi i (List.mem_cons_self ..) rfl

end AssocList

namespace LinkedList

open AssocList

variable {ι π : Type}

structure Linked (ι π : Type) where
  prev : ι
  payload : π
  next : ι

def first (q : ι) : List (ι × π) → ι
  | [] => q
  | c :: _ => c.1

def last (p : ι) : List (ι × π) → ι
  | [] => p
  | c :: cs => last c.1 cs

def link (p q : ι) : List (ι × π) → List (ι × Linked ι π)
  | [] => []
  | c :: cs => (c.1, ⟨p, c.2, first q cs⟩) :: link c.1 q cs

theorem first_append (q : ι) (as bs : List (ι × π)) : first q (as ++ bs) = first (first q bs) as := by
  cases as <;> rfl

theorem last_append (p : ι) (as bs : List (ι × π)) : last p (as ++ bs) = last (last p as) bs := by
  induction as generalizing p with
  | nil => rfl
  | cons a as ih => exact ih a.1

theorem link_append (p q : ι) (as bs : List (ι × π)) :
    link p q (as ++ bs) = link p (first q bs) as ++ link (last p as) q bs := by
  induction as generalizing p with
  | nil => rfl
  | cons a as ih =>
    rw [List.cons_append, link, link, ih, first_append]
    rfl

@[simp] theorem link_indices (p q : ι) (cs : List (ι × π)) :
    (link p q cs).map Prod.fst = cs.map Prod.fst := by
  induction cs generalizing p with
  | nil => rfl
  | cons c cs ih => simp [link, ih]

theorem mem_of_mem_link {p q : ι} {cs : List (ι × π)} {e : ι × Linked ι π} (h : e ∈ link p q cs) :
    (e.1, e.2.payload) ∈ cs := by
  induction cs generalizing p with
  | nil => cases h
  | cons c cs ih =>
    rcases List.mem_cons.mp h with rfl | h
    · exact List.mem_cons_self ..
    · exact List.mem_cons_of_mem _ (ih h)

theorem exists_mem_link (p q : ι) {cs : List (ι × π)} {c : ι × π} (h : c ∈ cs) :
    ∃ e ∈ link p q cs, e.1 = c.1 ∧ e.2.payload = c.2 := by
  obtain ⟨as, bs, rfl⟩ := List.append_of_mem h
  refine ⟨(c.1, ⟨last p as, c.2, first q bs⟩), ?_, rfl, rfl⟩
  rw [link_append]
  exact List.mem_append_right _ (List.mem_cons_self ..)

theorem link_payloads (p q : ι) (cs : List (ι × π)) :
    (link p q cs).map (fun e => (e.1, e.2.payload)) = cs := by
  induction cs generalizing p with
  | nil => rfl
  | cons c cs ih => simp [link, ih]

/-- Neighbouring records point at each other. -/
theorem link_isChain (p q : ι) (cs : List (ι × π)) :
    (link p q cs).IsChain fun a b => a.2.next = b.1 ∧ b.2.prev = a.1 := by
  induction cs generalizing p with
  | nil => exact .nil
  | cons c cs ih =>
    cases cs with
    | nil => exact .singleton _
    | cons d ds => exact .cons_cons ⟨rfl, rfl⟩ (ih c.1)

theorem link_pair (p q : ι) (as bs : List (ι × π)) (l x : ι × π) :
    link p q (as ++ l :: x :: bs) = link p l.1 as ++ (l.1, ⟨last p as, l.2, x.1⟩) ::
      (x.1, ⟨l.1, x.2, first q bs⟩) :: link x.1 q bs := by
  rw [link_append]
  rfl

theorem link_middle (p q : ι) (as bs : List (ι × π)) (c : ι × π) :
    link p q (as ++ c :: bs) = link p c.1 as ++ (c.1, ⟨last p as, c.2, first q bs⟩) ::
      link c.1 q bs := by
  rw [link_append]
  rfl

theorem not_mem_of_nodup {as bs : List (ι × π)} {c : ι × π} (h : ((as ++ c :: bs).map Prod.fst).Nodup) :
    c.1 ∉ as.map Prod.fst ∧ c.1 ∉ bs.map Prod.fst := by
  rw [List.map_append, List.map_cons] at h
  obtain ⟨_, hcons, hdisj⟩ := List.nodup_append.mp h
  exact ⟨fun hc => hdisj c.1 hc c.1 (List.mem_cons_self ..) rfl, (List.nodup_cons.mp hcons).1⟩

theorem indices_ne {as bs : List (ι × π)} {l c x : ι × π}
    (h : ((as ++ l :: c :: x :: bs).map Prod.fst).Nodup) :
    l.1 ≠ c.1 ∧ l.1 ≠ x.1 ∧ c.1 ≠ x.1 := by
  rw [List.map_append] at h
  have hcons := (List.nodup_append.mp h).2.1
  simp only [List.map_cons, List.nodup_cons, List.mem_cons, not_or] at hcons
  exact ⟨hcons.1.1, hcons.1.2.1, hcons.2.1.1⟩

theorem nodup_drop {as bs : List (ι × π)} {l c x : ι × π}
    (h : ((as ++ l :: c :: x :: bs).map Prod.fst).Nodup) :
    ((as ++ l :: x :: bs).map Prod.fst).Nodup := by
  refine List.Nodup.sublist ?_ h
  apply List.Sublist.map
  apply List.Sublist.append_left
  exact (List.sublist_cons_self c (x :: bs)).cons_cons l

section Store

variable [DecidableEq ι]

def store (p q : ι) (cs : List (ι × π)) : ι → Option (Linked ι π) := toMap (link p q cs)

variable {p q : ι} {as bs : List (ι × π)} {l x c : ι × π}

theorem store_eq_some_iff {cs : List (ι × π)} (h : (cs.map Prod.fst).Nodup) {i : ι}
    {v : Linked ι π} : store p q cs i = some v ↔ (i, v) ∈ link p q cs := by
  apply toMap_eq_some_iff
  rwa [link_indices]

theorem store_eq_none {cs : List (ι × π)} {i : ι} (h : i ∉ cs.map Prod.fst) :
    store p q cs i = none := by
  apply toMap_eq_none
  rwa [link_indices]

theorem store_middle (h : ((as ++ c :: bs).map Prod.fst).Nodup) :
    store p q (as ++ c :: bs) c.1 = some ⟨last p as, c.2, first q bs⟩ := by
  rw [store, link_middle]
  apply toMap_middle
  rw [link_indices]
  exact (not_mem_of_nodup h).1

theorem store_replace (h : ((as ++ c :: bs).map Prod.fst).Nodup) (w : π) :
    Function.update (store p q (as ++ c :: bs)) c.1 (some ⟨last p as, w, first q bs⟩) =
      store p q (as ++ (c.1, w) :: bs) := by
  rw [store, store, link_middle, link_middle]
  apply update_replace
  rw [link_indices]
  exact (not_mem_of_nodup h).1

theorem store_outside {j : ι} (hl : j ≠ l.1) (hx : j ≠ x.1) :
    store p q (as ++ l :: x :: bs) j = (toMap (link p l.1 as) j).or (toMap (link x.1 q bs) j) := by
  rw [store, link_pair, toMap_other hl, toMap_other hx, toMap_append]

theorem store_outside_three {j : ι} (hl : j ≠ l.1) (hc : j ≠ c.1) (hx : j ≠ x.1) :
    store p q (as ++ l :: c :: x :: bs) j =
      (toMap (link p l.1 as) j).or (toMap (link x.1 q bs) j) := by
  have hsplit : link p q (as ++ l :: c :: x :: bs) = link p l.1 as ++ (l.1, ⟨last p as, l.2, c.1⟩) ::
      (c.1, ⟨l.1, c.2, x.1⟩) :: (x.1, ⟨c.1, x.2, first q bs⟩) :: link x.1 q bs := by
    rw [link_append]
    rfl
  rw [store, hsplit, toMap_other hl, toMap_other hc, toMap_other hx, toMap_append]

theorem store_three (h : ((as ++ l :: c :: x :: bs).map Prod.fst).Nodup) :
    store p q (as ++ l :: c :: x :: bs) l.1 = some ⟨last p as, l.2, c.1⟩ ∧
      store p q (as ++ l :: c :: x :: bs) c.1 = some ⟨l.1, c.2, x.1⟩ ∧
      store p q (as ++ l :: c :: x :: bs) x.1 = some ⟨c.1, x.2, first q bs⟩ := by
  have hc : (as ++ [l]) ++ c :: x :: bs = as ++ l :: c :: x :: bs := by simp
  have hx : (as ++ [l, c]) ++ x :: bs = as ++ l :: c :: x :: bs := by simp
  refine ⟨store_middle h, ?_, ?_⟩
  · have hmid := store_middle (p := p) (q := q) (hc ▸ h)
    rwa [hc, last_append] at hmid
  · have hmid := store_middle (p := p) (q := q) (hx ▸ h)
    rwa [hx, last_append] at hmid

theorem store_pair (h : ((as ++ l :: x :: bs).map Prod.fst).Nodup) :
    store p q (as ++ l :: x :: bs) l.1 = some ⟨last p as, l.2, x.1⟩ ∧
      store p q (as ++ l :: x :: bs) x.1 = some ⟨l.1, x.2, first q bs⟩ := by
  have hx : (as ++ [l]) ++ x :: bs = as ++ l :: x :: bs := by simp
  refine ⟨store_middle h, ?_⟩
  have hmid := store_middle (p := p) (q := q) (hx ▸ h)
  rwa [hx, last_append] at hmid

/-- The three writes of an insertion: the left neighbour, the new cell, the right neighbour. -/
theorem store_insert (h : ((as ++ l :: c :: x :: bs).map Prod.fst).Nodup) :
    Function.update (Function.update (Function.update (store p q (as ++ l :: x :: bs)) l.1
      (some ⟨last p as, l.2, c.1⟩)) c.1 (some ⟨l.1, c.2, x.1⟩)) x.1 (some ⟨c.1, x.2, first q bs⟩) =
      store p q (as ++ l :: c :: x :: bs) := by
  obtain ⟨hl, hc, hx⟩ := store_three (p := p) (q := q) h
  obtain ⟨hlc, hlx, hcx⟩ := indices_ne h
  funext j
  by_cases hjx : j = x.1
  · rw [hjx, Function.update_self, hx]
  rw [Function.update_of_ne hjx]
  by_cases hjc : j = c.1
  · rw [hjc, Function.update_self, hc]
  rw [Function.update_of_ne hjc]
  by_cases hjl : j = l.1
  · rw [hjl, Function.update_self, hl]
  · rw [Function.update_of_ne hjl, store_outside hjl hjx, store_outside_three hjl hjc hjx]

/-- The three writes of a deletion: the left neighbour, the deleted cell, the right neighbour. -/
theorem store_erase (h : ((as ++ l :: c :: x :: bs).map Prod.fst).Nodup) :
    Function.update (Function.update (Function.update (store p q (as ++ l :: c :: x :: bs)) l.1
      (some ⟨last p as, l.2, x.1⟩)) c.1 none) x.1 (some ⟨l.1, x.2, first q bs⟩) =
      store p q (as ++ l :: x :: bs) := by
  obtain ⟨hl, hx⟩ := store_pair (p := p) (q := q) (nodup_drop h)
  obtain ⟨hlc, hlx, hcx⟩ := indices_ne h
  funext j
  by_cases hjx : j = x.1
  · rw [hjx, Function.update_self, hx]
  rw [Function.update_of_ne hjx]
  by_cases hjc : j = c.1
  · rw [hjc, Function.update_self]
    symm
    apply store_eq_none
    have hmid : (as ++ [l]) ++ c :: x :: bs = as ++ l :: c :: x :: bs := by simp
    obtain ⟨hbefore, hafter⟩ := not_mem_of_nodup (hmid ▸ h)
    simp only [List.map_append, List.map_cons, List.map_nil, List.mem_append, List.mem_cons,
      List.not_mem_nil, or_false, not_or] at hbefore hafter ⊢
    exact ⟨hbefore.1, hbefore.2, hafter⟩
  rw [Function.update_of_ne hjc]
  by_cases hjl : j = l.1
  · rw [hjl, Function.update_self, hl]
  · rw [Function.update_of_ne hjl, store_outside hjl hjx, store_outside_three hjl hjc hjx]

end Store

end LinkedList

end LineaSgxProver.Library
