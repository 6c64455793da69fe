import Mathlib.Data.List.Induction
import Mathlib.Data.List.Nodup
import Mathlib.Order.Lattice

namespace LineaSgxProver.Library.OrderedMap

variable {K V : Type} [LinearOrder K]

def insert (k : K) (v : V) : List (K × V) → List (K × V)
  | [] => [(k, v)]
  | (j, w) :: m =>
    if k < j then (k, v) :: (j, w) :: m
    else if k = j then (k, v) :: m
    else (j, w) :: insert k v m

/-- The entries are in the order of their keys, of which none comes twice. -/
def Ordered (m : List (K × V)) : Prop := m.Pairwise fun a b => a.1 < b.1

theorem mem_insert {k : K} {v : V} {m : List (K × V)} (h : Ordered m) {e : K × V} :
    e ∈ insert k v m ↔ e = (k, v) ∨ e ∈ m ∧ e.1 ≠ k := by
  induction m with
  | nil => simp [insert]
  | cons a m ih =>
    obtain ⟨j, w⟩ := a
    obtain ⟨hfirst, hm⟩ := List.pairwise_cons.mp h
    rw [insert]
    split_ifs with hlt heq
    · have hne : ∀ e ∈ (j, w) :: m, e.1 ≠ k := by
        intro e he
        rcases List.mem_cons.mp he with rfl | he
        · exact hlt.ne'
        · exact (hlt.trans (hfirst e he)).ne'
      rw [List.mem_cons]
      exact or_congr_right (iff_self_and.mpr (hne e))
    · have hne : ∀ e ∈ m, e.1 ≠ k := by
        intro e he
        rw [heq]
        exact (hfirst e he).ne'
      have hhead : ¬ (e = (j, w) ∧ e.1 ≠ k) := by
        rintro ⟨rfl, hk⟩
        exact hk heq.symm
      rw [List.mem_cons, List.mem_cons, or_and_right, or_iff_right hhead]
      exact or_congr_right (iff_self_and.mpr (hne e))
    · have hhead : e = (j, w) → e.1 ≠ k := by
        rintro rfl
        exact fun hk => heq hk.symm
      rw [List.mem_cons, List.mem_cons, ih hm, or_and_right, and_iff_left_of_imp hhead]
      exact or_left_comm

theorem insert_ordered {m : List (K × V)} (h : Ordered m) (k : K) (v : V) : Ordered (insert k v m) := by
  induction m with
  | nil => exact List.pairwise_singleton _ _
  | cons a m ih =>
    obtain ⟨j, w⟩ := a
    obtain ⟨hfirst, hm⟩ := List.pairwise_cons.mp h
    rw [insert]
    split_ifs with hlt heq
    · apply List.pairwise_cons.mpr
      refine ⟨?_, h⟩
      intro e he
      rcases List.mem_cons.mp he with rfl | he
      · exact hlt
      · exact hlt.trans (hfirst e he)
    · apply List.pairwise_cons.mpr
      refine ⟨?_, hm⟩
      intro e he
      rw [heq]
      exact hfirst e he
    · apply List.pairwise_cons.mpr
      refine ⟨?_, ih hm⟩
      intro e he
      rcases (mem_insert hm).mp he with rfl | ⟨he, -⟩
      · exact lt_of_le_of_ne (not_lt.mp hlt) (Ne.symm heq)
      · exact hfirst e he

theorem Ordered.nodup {m : List (K × V)} (h : Ordered m) : m.Nodup := by
  apply List.Pairwise.imp _ h
  intro a b hab heq
  exact absurd (congrArg Prod.fst heq) hab.ne

/-- An ordered list is known by its entries. -/
theorem Ordered.eq_of_mem_iff {m m' : List (K × V)} (h : Ordered m) (h' : Ordered m') (hmem : ∀ e, e ∈ m ↔ e ∈ m') :
    m = m' := by
  have hperm : m.Perm m' := (List.perm_ext_iff_of_nodup h.nodup h'.nodup).mpr hmem
  exact hperm.eq_of_pairwise (fun a b _ _ hab hba => absurd (hab.trans hba) (lt_irrefl _)) h h'

/-- The keys of a list with what a function gives for them, in whatever order they are inserted. -/
def ofKeys (f : K → V) (keys : List K) : List (K × V) := keys.foldl (fun m k => insert k (f k) m) []

theorem ofKeys_concat (f : K → V) (keys : List K) (k : K) : ofKeys f (keys ++ [k]) = insert k (f k) (ofKeys f keys) := by
  rw [ofKeys, List.foldl_append]
  rfl

theorem ofKeys_ordered (f : K → V) (keys : List K) : Ordered (ofKeys f keys) := by
  induction keys using List.reverseRecOn with
  | nil => exact List.Pairwise.nil
  | append_singleton keys k ih =>
    rw [ofKeys_concat]
    exact insert_ordered ih k (f k)

theorem mem_ofKeys (f : K → V) (keys : List K) {e : K × V} : e ∈ ofKeys f keys ↔ e.1 ∈ keys ∧ e.2 = f e.1 := by
  induction keys using List.reverseRecOn with
  | nil => simp [ofKeys]
  | append_singleton keys k ih =>
    obtain ⟨j, v⟩ := e
    rw [ofKeys_concat, mem_insert (ofKeys_ordered f keys), ih, List.mem_append, List.mem_singleton, Prod.mk.injEq]
    constructor
    · rintro (⟨rfl, rfl⟩ | ⟨⟨hj, hv⟩, -⟩)
      · exact ⟨Or.inr rfl, rfl⟩
      · exact ⟨Or.inl hj, hv⟩
    · rintro ⟨hj, hv⟩
      by_cases hjk : j = k
      · exact Or.inl ⟨hjk, hjk ▸ hv⟩
      · exact Or.inr ⟨⟨hj.resolve_right hjk, hv⟩, hjk⟩

/-- The entries come out as the keys of a sorted list do. -/
theorem ofKeys_of_perm (f : K → V) {keys sorted : List K} (hperm : keys.Perm sorted) (hsorted : sorted.Pairwise (· < ·)) :
    ofKeys f keys = sorted.map fun k => (k, f k) := by
  apply (ofKeys_ordered f keys).eq_of_mem_iff
  · exact List.pairwise_map.mpr hsorted
  · intro e
    obtain ⟨j, v⟩ := e
    rw [mem_ofKeys, hperm.mem_iff, List.mem_map]
    constructor
    · rintro ⟨hj, hv⟩
      exact ⟨j, hj, Prod.ext rfl hv.symm⟩
    · rintro ⟨k, hk, heq⟩
      cases heq
      exact ⟨hk, rfl⟩

theorem ofKeys_length (f : K → V) {keys : List K} (h : keys.Nodup) : (ofKeys f keys).length = keys.length := by
  have hperm : (ofKeys f keys).Perm (keys.map fun k => (k, f k)) := by
    apply (List.perm_ext_iff_of_nodup (ofKeys_ordered f keys).nodup _).mpr
    · intro e
      obtain ⟨j, v⟩ := e
      rw [mem_ofKeys, List.mem_map]
      constructor
      · rintro ⟨hj, hv⟩
        exact ⟨j, hj, Prod.ext rfl hv.symm⟩
      · rintro ⟨k, hk, heq⟩
        cases heq
        exact ⟨hk, rfl⟩
    · exact List.Nodup.map (fun a b hab => congrArg Prod.fst hab) h
  rw [hperm.length_eq, List.length_map]

def lookup (k : K) (m : List (K × V)) : Option V := (m.find? fun e => decide (e.1 = k)).map Prod.snd

/-- The value at a key is made where there is none, and changed. -/
def entry (k : K) (f : Option V → V) (m : List (K × V)) : List (K × V) := insert k (f (lookup k m)) m

theorem lookup_eq_some {m : List (K × V)} (h : Ordered m) {k : K} {v : V} : lookup k m = some v ↔ (k, v) ∈ m := by
  induction m with
  | nil => simp [lookup]
  | cons a m ih =>
    obtain ⟨j, w⟩ := a
    obtain ⟨hfirst, hm⟩ := List.pairwise_cons.mp h
    by_cases hj : j = k
    · subst hj
      have hnot : (j, v) ∉ m := fun hmem => absurd (hfirst _ hmem) (lt_irrefl j)
      simp [lookup, hnot, eq_comm]
    · have htail : lookup k ((j, w) :: m) = lookup k m := by simp [lookup, hj]
      have hhead : (k, v) ≠ (j, w) := fun heq => hj (congrArg Prod.fst heq).symm
      rw [htail, ih hm, List.mem_cons, or_iff_right hhead]

theorem lookup_eq_none {m : List (K × V)} {k : K} : lookup k m = none ↔ ∀ v, (k, v) ∉ m := by
  rw [lookup, Option.map_eq_none_iff, List.find?_eq_none]
  constructor
  · intro h v hmem
    exact h _ hmem (decide_eq_true rfl)
  · rintro h ⟨j, v⟩ hmem hj
    obtain rfl : j = k := of_decide_eq_true hj
    exact h v hmem

theorem mem_keys_insert {m : List (K × V)} (h : Ordered m) {k j : K} {v : V} :
    (∃ w, (j, w) ∈ insert k v m) ↔ j = k ∨ ∃ w, (j, w) ∈ m := by
  simp only [mem_insert h, Prod.mk.injEq]
  constructor
  · rintro ⟨w, ⟨rfl, -⟩ | ⟨hmem, -⟩⟩
    · exact Or.inl rfl
    · exact Or.inr ⟨w, hmem⟩
  · rintro (rfl | ⟨w, hmem⟩)
    · exact ⟨v, Or.inl ⟨rfl, rfl⟩⟩
    · by_cases hj : j = k
      · exact ⟨v, Or.inl ⟨hj, rfl⟩⟩
      · exact ⟨w, Or.inr ⟨hmem, hj⟩⟩

theorem mem_insert_unit {m : List (K × Unit)} (h : Ordered m) {k j : K} :
    (j, ()) ∈ insert k () m ↔ j = k ∨ (j, ()) ∈ m := by
  have hkeys := mem_keys_insert h (k := k) (j := j) (v := ())
  constructor
  · intro hmem
    exact (hkeys.mp ⟨(), hmem⟩).imp_right fun ⟨_, hold⟩ => hold
  · intro hor
    obtain ⟨_, hmem⟩ := hkeys.mpr (hor.imp_right fun hold => ⟨(), hold⟩)
    exact hmem

section Gathering

variable {S : Type} [LinearOrder S]

/-- The members that come with a key are added to its set. -/
def gather (m : List (K × List (S × Unit))) (e : K × List S) : List (K × List (S × Unit)) :=
  entry e.1 (fun set => e.2.foldl (fun set s => insert s () set) (set.getD [])) m

/-- Each key that comes comes once, with all the members that came with it. -/
structure Gathered (events : List (K × List S)) (m : List (K × List (S × Unit))) : Prop where
  ordered : Ordered m
  keys : ∀ k, (∃ set, (k, set) ∈ m) ↔ ∃ e ∈ events, e.1 = k
  members : ∀ k set, (k, set) ∈ m → Ordered set ∧ ∀ s, (s, ()) ∈ set ↔ ∃ e ∈ events, e.1 = k ∧ s ∈ e.2

theorem foldl_insert_unit (ss : List S) {set : List (S × Unit)} (h : Ordered set) :
    Ordered (ss.foldl (fun set s => insert s () set) set) ∧
      ∀ s, (s, ()) ∈ ss.foldl (fun set s => insert s () set) set ↔ s ∈ ss ∨ (s, ()) ∈ set := by
  induction ss generalizing set with
  | nil => exact ⟨h, fun s => by simp⟩
  | cons s ss ih =>
    obtain ⟨hordered, hmem⟩ := ih (insert_ordered h s ())
    refine ⟨hordered, ?_⟩
    intro k
    rw [List.foldl_cons, hmem, mem_insert_unit h, List.mem_cons]
    tauto

namespace Gathered

variable {events : List (K × List S)} {m : List (K × List (S × Unit))}

/-- What has come with a key so far: nothing, where there is no entry for it. -/
theorem at_entry (h : Gathered events m) (k : K) : Ordered ((lookup k m).getD []) ∧
    ∀ s, (s, ()) ∈ (lookup k m).getD [] ↔ ∃ e ∈ events, e.1 = k ∧ s ∈ e.2 := by
  cases hk : lookup k m with
  | some set => exact h.members k set ((lookup_eq_some h.ordered).mp hk)
  | none =>
    refine ⟨List.Pairwise.nil, ?_⟩
    intro s
    apply iff_of_false List.not_mem_nil
    rintro ⟨e, he, rfl, -⟩
    obtain ⟨set, hmem⟩ := (h.keys e.1).mpr ⟨e, he, rfl⟩
    exact lookup_eq_none.mp hk set hmem

theorem gather (h : Gathered events m) (e : K × List S) : Gathered (events ++ [e]) (gather m e) := by
  obtain ⟨hold, hcame⟩ := h.at_entry e.1
  obtain ⟨hordered, hmem⟩ := foldl_insert_unit e.2 hold
  refine ⟨insert_ordered h.ordered _ _, ?_, ?_⟩
  · intro k
    rw [OrderedMap.gather, entry, mem_keys_insert h.ordered, h.keys]
    simp only [List.mem_append, List.mem_singleton, or_and_right, exists_or, exists_eq_left]
    rw [or_comm, eq_comm (a := k)]
  · intro k set hset
    simp only [List.mem_append, List.mem_singleton, or_and_right, exists_or, exists_eq_left]
    rcases (mem_insert h.ordered).mp hset with heq | ⟨hbefore, hne⟩
    · obtain ⟨rfl, rfl⟩ := Prod.mk.inj heq
      refine ⟨hordered, ?_⟩
      intro s
      rw [hmem, hcame, or_comm]
      simp only [true_and]
    · obtain ⟨hkept, hs⟩ := h.members k set hbefore
      refine ⟨hkept, ?_⟩
      intro s
      rw [hs, or_iff_left]
      rintro ⟨rfl, -⟩
      exact hne rfl

end Gathered

theorem gathered (events : List (K × List S)) : Gathered events (events.foldl gather []) := by
  induction events using List.reverseRecOn with
  | nil =>
    refine ⟨List.Pairwise.nil, ?_, ?_⟩
    · intro k
      exact iff_of_false (fun ⟨_, h⟩ => List.not_mem_nil h) (fun ⟨_, h, _⟩ => List.not_mem_nil h)
    · intro k set h
      cases h
  | append_singleton events e ih =>
    rw [List.foldl_append]
    exact ih.gather e

end Gathering

section First

variable {V : Type}

theorem lookup_insert {m : List (K × V)} (h : Ordered m) (k j : K) (v : V) :
    lookup j (insert k v m) = if j = k then some v else lookup j m := by
  have hinsert := insert_ordered h k v
  split_ifs with hj
  · rw [lookup_eq_some hinsert, mem_insert h, hj]
    exact Or.inl rfl
  · apply Option.ext
    intro w
    rw [lookup_eq_some hinsert, mem_insert h, lookup_eq_some h]
    simp [hj]

/-- A value is kept from the first time that its key comes. -/
def keepFirst (m : List (K × V)) (e : K × V) : List (K × V) := entry e.1 (fun v => v.getD e.2) m

theorem foldl_keepFirst (events : List (K × V)) :
    Ordered (events.foldl keepFirst []) ∧ ∀ k, lookup k (events.foldl keepFirst []) = lookup k events := by
  induction events using List.reverseRecOn with
  | nil => exact ⟨List.Pairwise.nil, fun _ => rfl⟩
  | append_singleton events e ih =>
    obtain ⟨hordered, hlookup⟩ := ih
    rw [List.foldl_append]
    refine ⟨insert_ordered hordered _ _, ?_⟩
    intro k
    change lookup k (insert e.1 _ _) = _
    rw [lookup_insert hordered]
    split_ifs with hk
    · rw [hlookup, hk, lookup, lookup, List.find?_append]
      cases events.find? fun e' => decide (e'.1 = e.1) <;> simp
    · have hlast : [e].find? (fun e' => decide (e'.1 = k)) = none := by simp [Ne.symm hk]
      rw [hlookup, lookup, lookup, List.find?_append, hlast, Option.or_none]

theorem Ordered.eq_of_lookup {m m' : List (K × V)} (h : Ordered m) (h' : Ordered m')
    (hlookup : ∀ k, lookup k m = lookup k m') : m = m' := by
  apply h.eq_of_mem_iff h'
  rintro ⟨k, v⟩
  rw [← lookup_eq_some h, ← lookup_eq_some h', hlookup]

end First

end LineaSgxProver.Library.OrderedMap
