import Mathlib.Data.Set.Function
import Mathlib.Logic.Function.Basic

namespace LineaSgxProver.Library.MerkleTree

/-- What a digest of the tree is taken of. -/
inductive Node (δ ν : Type) where
  | empty
  | leaf (v : ν)
  | branch (left right : δ)
  deriving DecidableEq

/-- The leaves of a binary tree, by the path from its top. -/
abbrev Leaves (ν : Type) := List Bool → Option ν

variable {δ ν : Type}

def Leaves.below (m : Leaves ν) (b : Bool) : Leaves ν := fun p => m (b :: p)

def Leaves.none : Leaves ν := fun _ => Option.none

def Leaves.set (m : Leaves ν) (p : List Bool) (v : Option ν) : Leaves ν := Function.update m p v

def bottom : Option ν → Node δ ν
  | some v => .leaf v
  | Option.none => .empty

variable (digest : Node δ ν → δ)

def top : ℕ → Leaves ν → Node δ ν
  | 0, m => bottom (m [])
  | d + 1, m => .branch (digest (top d (m.below false))) (digest (top d (m.below true)))

def root (d : ℕ) (m : Leaves ν) : δ := digest (top digest d m)

def route : List Bool → Leaves ν → List (Node δ ν)
  | [], m => [top digest 0 m]
  | b :: p, m => top digest (p.length + 1) m :: route p (m.below b)

def nodes : ℕ → Leaves ν → Set (Node δ ν)
  | 0, m => {top digest 0 m}
  | d + 1, m => insert (top digest (d + 1) m) (nodes d (m.below false) ∪ nodes d (m.below true))

def siblings : List Bool → Leaves ν → List δ
  | [], _ => []
  | b :: p, m => siblings p (m.below b) ++ [root digest p.length (m.below !b)]

def join (b : Bool) (child sibling : δ) : Node δ ν :=
  if b then .branch sibling child else .branch child sibling

/-- The nodes rebuilt from a bottom node and the digests beside it, bottom first. -/
def climb : List (Bool × δ) → Node δ ν → List (Node δ ν)
  | [], n => [n]
  | (b, s) :: rest, n => n :: climb rest (join b (digest n) s)

/-- The digest that a leaf's digest climbs to beside others, from the leaf upwards. -/
def ascend : List (Bool × δ) → δ → δ
  | [], h => h
  | (b, s) :: rest, h => ascend rest (digest (join b h s))

def steps : List (Bool × δ) → δ → List (Node δ ν)
  | [], _ => []
  | (b, s) :: rest, h => join b h s :: steps rest (digest (join b h s))

section Below

@[simp] theorem set_same (m : Leaves ν) (p : List Bool) (v : Option ν) : m.set p v p = v :=
  Function.update_self ..

theorem set_other (m : Leaves ν) {p q : List Bool} (v : Option ν) (h : q ≠ p) :
    m.set p v q = m q :=
  Function.update_of_ne h ..

@[simp] theorem set_self (m : Leaves ν) (p : List Bool) : m.set p (m p) = m :=
  Function.update_eq_self ..

theorem below_set_same (m : Leaves ν) (b : Bool) (p : List Bool) (v : Option ν) :
    (m.set (b :: p) v).below b = (m.below b).set p v := by
  funext q
  by_cases hq : q = p
  · subst hq
    rw [set_same]
    exact set_same m (b :: q) v
  · rw [set_other _ _ hq]
    exact set_other m v (by simpa using hq)

theorem below_set_other (m : Leaves ν) (b : Bool) (p : List Bool) (v : Option ν) :
    (m.set (b :: p) v).below (!b) = m.below (!b) := by
  funext q
  exact set_other m v (by cases b <;> simp)

@[simp] theorem below_none (b : Bool) : (Leaves.none : Leaves ν).below b = Leaves.none := rfl

end Below

theorem top_succ (d : ℕ) (m : Leaves ν) (b : Bool) :
    top digest (d + 1) m = join b (root digest d (m.below b)) (root digest d (m.below !b)) := by
  cases b <;> rfl

theorem join_injective {b : Bool} {x y s t : δ}
    (h : (join b x s : Node δ ν) = join b y t) : x = y ∧ s = t := by
  cases b <;> simp only [join, Bool.false_eq_true, ↓reduceIte, Node.branch.injEq] at h
  · exact h
  · exact h.symm

theorem route_head (p : List Bool) (m : Leaves ν) :
    ∃ rest, route digest p m = top digest p.length m :: rest := by
  cases p with
  | nil => exact ⟨[], rfl⟩
  | cons b p => exact ⟨_, rfl⟩

theorem top_mem_route (p : List Bool) (m : Leaves ν) :
    top digest p.length m ∈ route digest p m := by
  obtain ⟨rest, hr⟩ := route_head digest p m
  simp [hr]

theorem bottom_mem_route (p : List Bool) (m : Leaves ν) : bottom (m p) ∈ route digest p m := by
  induction p generalizing m with
  | nil => simp [route, top]
  | cons b p ih => exact List.mem_cons_of_mem _ (ih (m.below b))

theorem top_mem_nodes (d : ℕ) (m : Leaves ν) : top digest d m ∈ nodes digest d m := by
  cases d with
  | zero => rfl
  | succ d => exact Set.mem_insert _ _

theorem below_mem_nodes {d : ℕ} {m : Leaves ν} (b : Bool) {n : Node δ ν}
    (h : n ∈ nodes digest d (m.below b)) : n ∈ nodes digest (d + 1) m := by
  cases b with
  | false => exact Set.mem_insert_of_mem _ (Or.inl h)
  | true => exact Set.mem_insert_of_mem _ (Or.inr h)

theorem route_subset_nodes (p : List Bool) (m : Leaves ν) {n : Node δ ν}
    (h : n ∈ route digest p m) : n ∈ nodes digest p.length m := by
  induction p generalizing m with
  | nil => simpa [route, nodes] using h
  | cons b p ih =>
    rcases List.mem_cons.mp h with rfl | h
    · exact top_mem_nodes digest _ m
    · exact below_mem_nodes digest b (ih (m.below b) h)

/-- Writing one leaf only makes the nodes on its own route new. -/
theorem nodes_set (p : List Bool) (m : Leaves ν) (v : Option ν) {n : Node δ ν}
    (h : n ∈ nodes digest p.length (m.set p v)) :
    n ∈ route digest p (m.set p v) ∨ n ∈ nodes digest p.length m := by
  induction p generalizing m with
  | nil =>
    left
    simpa [route, nodes] using h
  | cons b p ih =>
    rcases h with rfl | h
    · left
      exact top_mem_route digest (b :: p) _
    have hsides : n ∈ nodes digest p.length ((m.set (b :: p) v).below b) ∨
        n ∈ nodes digest p.length ((m.set (b :: p) v).below !b) := by
      cases b
      · exact h
      · exact h.symm
    rcases hsides with hb | hb
    · rw [below_set_same] at hb
      rcases ih (m.below b) hb with hr | hn
      · left
        rw [route, below_set_same]
        exact List.mem_cons_of_mem _ hr
      · right
        exact below_mem_nodes digest b hn
    · rw [below_set_other] at hb
      right
      exact below_mem_nodes digest (!b) hb

theorem siblings_length (p : List Bool) (m : Leaves ν) : (siblings digest p m).length = p.length := by
  induction p generalizing m with
  | nil => rfl
  | cons b p ih => simp [siblings, ih]

theorem climb_append (xs : List (Bool × δ)) (b : Bool) (s : δ) (n : Node δ ν) :
    ∃ l last, climb digest xs n = l ++ [last] ∧
      climb digest (xs ++ [(b, s)]) n = l ++ [last, join b (digest last) s] := by
  induction xs generalizing n with
  | nil => exact ⟨[], n, rfl, rfl⟩
  | cons x xs ih =>
    obtain ⟨l, last, h₁, h₂⟩ := ih (join x.1 (digest n) x.2)
    exact ⟨n :: l, last, by simp [climb, h₁], by simp [climb, h₂]⟩

/-- The true siblings rebuild the route, whichever leaf it ends in. -/
theorem climb_siblings (p : List Bool) (m : Leaves ν) :
    climb digest (List.zip p.reverse (siblings digest p m)) (bottom (m p)) =
      (route digest p m).reverse := by
  induction p generalizing m with
  | nil => rfl
  | cons b p ih =>
    have hz : List.zip (b :: p).reverse (siblings digest (b :: p) m) =
        List.zip p.reverse (siblings digest p (m.below b)) ++
          [(b, root digest p.length (m.below !b))] := by
      rw [List.reverse_cons, siblings, List.zip_append (by simp [siblings_length])]
      rfl
    obtain ⟨l, last, h₁, h₂⟩ := climb_append digest
      (List.zip p.reverse (siblings digest p (m.below b))) b
      (root digest p.length (m.below !b)) (bottom (m (b :: p)))
    have hroute := ih (m.below b)
    have hlast : last = top digest p.length (m.below b) := by
      obtain ⟨rest, hr⟩ := route_head digest p (m.below b)
      change climb digest _ (bottom (m (b :: p))) = _ at hroute
      rw [h₁, hr, List.reverse_cons] at hroute
      exact (List.append_inj' hroute rfl).2 |> List.singleton_inj.mp
    rw [hz, h₂, route, List.reverse_cons, ← hroute]
    change _ = climb digest _ (bottom (m (b :: p))) ++ _
    rw [h₁, hlast, top_succ digest p.length m b, List.append_assoc]
    rfl

theorem ascend_append (xs : List (Bool × δ)) (b : Bool) (s h : δ) :
    ascend digest (xs ++ [(b, s)]) h = digest (join b (ascend digest xs h) s) := by
  induction xs generalizing h with
  | nil => rfl
  | cons x xs ih => exact ih _

theorem steps_append (xs : List (Bool × δ)) (b : Bool) (s h : δ) :
    steps digest (xs ++ [(b, s)]) h = steps digest xs h ++ [join b (ascend digest xs h) s] := by
  induction xs generalizing h with
  | nil => rfl
  | cons x xs ih => exact congrArg _ (ih _)

theorem steps_branch (xs : List (Bool × δ)) (h : δ) {n : Node δ ν} (hn : n ∈ steps digest xs h) :
    ∃ left right, n = .branch left right := by
  induction xs generalizing h with
  | nil => cases hn
  | cons x xs ih =>
    rcases List.mem_cons.mp hn with rfl | hn
    · obtain ⟨b, s⟩ := x
      cases b
      · exact ⟨h, s, rfl⟩
      · exact ⟨s, h, rfl⟩
    · exact ih _ hn

section Binding

variable {digest} {E : Set (Node δ ν)}

/-- Equal roots agree on a leaf when the digest separates the nodes of its two routes. -/
theorem route_binding (hE : Set.InjOn digest E) (p : List Bool) (m m' : Leaves ν)
    (hm : ∀ n ∈ route digest p m, n ∈ E) (hm' : ∀ n ∈ route digest p m', n ∈ E)
    (h : root digest p.length m = root digest p.length m') : m p = m' p := by
  induction p generalizing m m' with
  | nil =>
    have ht := hE (hm _ (top_mem_route digest [] m)) (hm' _ (top_mem_route digest [] m')) h
    change bottom (m []) = bottom (m' []) at ht
    cases hv : m [] <;> cases hv' : m' [] <;> simp_all [bottom]
  | cons b p ih =>
    have ht := hE (hm _ (top_mem_route digest (b :: p) m)) (hm' _ (top_mem_route digest (b :: p) m')) h
    rw [List.length_cons, top_succ digest _ m b, top_succ digest _ m' b] at ht
    exact ih (m.below b) (m'.below b) (fun n hn => hm n (List.mem_cons_of_mem _ hn))
      (fun n hn => hm' n (List.mem_cons_of_mem _ hn)) (join_injective ht).1

theorem exists_concat {α : Type} {xs : List α} {n : ℕ} (h : xs.length = n + 1) :
    ∃ ys y, xs = ys ++ [y] ∧ ys.length = n := by
  have hne : xs ≠ [] := by
    rintro rfl
    cases h
  obtain ⟨ys, y, rfl⟩ := (List.eq_nil_or_concat xs).resolve_left hne
  refine ⟨ys, y, List.concat_eq_append, ?_⟩
  simpa using h

theorem zip_reverse_cons {p : List Bool} {sibs : List δ} (hlen : sibs.length = p.length) (b : Bool) (s : δ) :
    List.zip (b :: p).reverse (sibs ++ [s]) = List.zip p.reverse sibs ++ [(b, s)] := by
  rw [List.reverse_cons, List.zip_append (by simp [hlen])]
  rfl

/-- Whatever the siblings, a digest that climbs to the root is the digest of the leaf. -/
theorem ascend_binding (hE : Set.InjOn digest E) (p : List Bool) (sibs : List δ) (h : δ)
    (m : Leaves ν) (hlen : sibs.length = p.length) (hm : ∀ n ∈ route digest p m, n ∈ E)
    (hsteps : ∀ n ∈ steps digest (List.zip p.reverse sibs) h, n ∈ E)
    (hroot : ascend digest (List.zip p.reverse sibs) h = root digest p.length m) :
    h = digest (bottom (m p)) := by
  induction p generalizing sibs m with
  | nil =>
    obtain rfl := List.length_eq_zero_iff.mp hlen
    exact hroot
  | cons b p ih =>
    obtain ⟨sibs, s, rfl, hlen'⟩ := exists_concat hlen
    rw [zip_reverse_cons hlen', steps_append] at hsteps
    rw [zip_reverse_cons hlen', ascend_append] at hroot
    have htop := hE (hsteps _ (by simp)) (hm _ (top_mem_route digest (b :: p) m)) hroot
    rw [List.length_cons, top_succ digest _ m b] at htop
    exact ih sibs (m.below b) hlen' (fun n hn => hm n (List.mem_cons_of_mem _ hn))
      (fun n hn => hsteps n (List.mem_append_left _ hn)) (join_injective htop).1

theorem root_binding (hE : Set.InjOn digest E) (d : ℕ) (m m' : Leaves ν)
    (hm : nodes digest d m ⊆ E) (hm' : nodes digest d m' ⊆ E)
    (h : root digest d m = root digest d m') (p : List Bool) (hp : p.length = d) : m p = m' p := by
  subst hp
  exact route_binding hE p m m' (fun n hn => hm (route_subset_nodes digest p m hn))
    (fun n hn => hm' (route_subset_nodes digest p m' hn)) h

end Binding

end LineaSgxProver.Library.MerkleTree
