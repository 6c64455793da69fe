import LineaSgxProver.Library.LinkedList
import LineaSgxProver.Zktrie.IndexMap
import LineaSgxProver.Zktrie.Trie

namespace LineaSgxProver.Zktrie

open Library
open LinkedList (Linked link store first last)

structure Entry where
  hkey : SH256
  hval : SH256
  deriving DecidableEq

abbrev Cell := UInt64 × Entry

def Cell.head : Cell := (0, ⟨LeafOpening.head.hkey, LeafOpening.head.hval⟩)

def Cell.tail : Cell := (1, ⟨LeafOpening.tail.hkey, LeafOpening.tail.hval⟩)

def opening (r : Linked UInt64 Entry) : LeafOpening := ⟨r.payload.hkey, r.payload.hval, r.prev, r.next⟩

def treeMap (cells : List Cell) : IndexMap :=
  fun i => (store 0 1 cells i).map fun r => (opening r).leafValue

/-- The cells are sorted between the head and the tail, each at an index of its own. -/
structure Ordered (cells : List Cell) (free : UInt64) : Prop where
  head : cells.head? = some Cell.head
  tail : cells.getLast? = some Cell.tail
  sorted : cells.Pairwise fun a b => a.2.hkey < b.2.hkey
  nodup : (cells.map Prod.fst).Nodup
  fresh : ∀ c ∈ cells, c.1.toNat < free.toNat
  bound : free.toNat ≤ 2 ^ zkTrieDepth

theorem eq_of_increasing {α : Type} (key : α → SH256) {as : List α}
    (h : as.Pairwise fun a b => key a < key b) {a b : α} (ha : a ∈ as) (hb : b ∈ as)
    (hkey : key a = key b) : a = b := by
  by_contra hne
  have hdiff : as.Pairwise fun a b => key a ≠ key b := h.imp fun hlt heq => by
    rw [heq] at hlt
    exact BitVec.lt_irrefl _ hlt
  have hsymm : Std.Symm fun a b : α => key a ≠ key b := ⟨fun _ _ hab => hab.symm⟩
  exact hdiff.forall ha hb hne hkey

namespace Ordered

variable {as bs : List Cell} {l c x : Cell} {free : UInt64}

theorem index_lt {cells : List Cell} (h : Ordered cells free) {c : Cell} (hc : c ∈ cells) :
    c.1.toNat < 2 ^ zkTrieDepth := (h.fresh c hc).trans_le h.bound

theorem eq_of_hkey {cells : List Cell} (h : Ordered cells free) {a b : Cell} (ha : a ∈ cells)
    (hb : b ∈ cells) (hkey : a.2.hkey = b.2.hkey) : a = b :=
  eq_of_increasing (fun c => c.2.hkey) h.sorted ha hb hkey

theorem head_lt {cells : List Cell} (h : Ordered cells free) {c : Cell} (hc : c ∈ cells)
    (hne : c.1 ≠ 0) : LeafOpening.head.hkey < c.2.hkey := by
  cases cells with
  | nil => cases hc
  | cons d rest =>
    obtain rfl : d = Cell.head := Option.some.inj h.head
    rcases List.mem_cons.mp hc with rfl | hc
    · exact absurd rfl hne
    · exact (List.pairwise_cons.mp h.sorted).1 c hc

theorem lt_tail {cells : List Cell} (h : Ordered cells free) {c : Cell} (hc : c ∈ cells)
    (hne : c.1 ≠ 1) : c.2.hkey < LeafOpening.tail.hkey := by
  obtain ⟨init, rfl⟩ := List.getLast?_eq_some_iff.mp h.tail
  rcases List.mem_append.mp hc with hc | hc
  · exact (List.pairwise_append.mp h.sorted).2.2 c hc Cell.tail (List.mem_singleton.mpr rfl)
  · rw [List.mem_singleton.mp hc] at hne
    exact absurd rfl hne

theorem below_or_above (h : Ordered (as ++ l :: x :: bs) free) (d : Cell)
    (hd : d ∈ as ++ l :: x :: bs) : d.2.hkey ≤ l.2.hkey ∨ x.2.hkey ≤ d.2.hkey := by
  have hsorted := h.sorted
  simp only [List.pairwise_append, List.pairwise_cons, List.mem_cons] at hsorted
  obtain ⟨_, ⟨_, hx, _⟩, hcross⟩ := hsorted
  simp only [List.mem_append, List.mem_cons] at hd
  rcases hd with hd | rfl | rfl | hd
  · exact Or.inl (BitVec.le_of_lt (hcross d hd l (Or.inl rfl)))
  · exact Or.inl (BitVec.le_refl _)
  · exact Or.inr (BitVec.le_refl _)
  · exact Or.inr (BitVec.le_of_lt (hx d hd))

theorem hkey_ne (h : Ordered (as ++ l :: c :: x :: bs) free) {d : Cell}
    (hd : d ∈ as ++ l :: x :: bs) : d.2.hkey ≠ c.2.hkey := by
  have hsorted := h.sorted
  simp only [List.pairwise_append, List.pairwise_cons, List.mem_cons] at hsorted
  obtain ⟨_, ⟨hl, hc, _, _⟩, hcross⟩ := hsorted
  have irrefl {a b : SH256} (hab : a < b) : a ≠ b := by
    rintro rfl
    exact BitVec.lt_irrefl _ hab
  simp only [List.mem_append, List.mem_cons] at hd
  rcases hd with hd | rfl | rfl | hd
  · exact irrefl (hcross d hd c (Or.inr (Or.inl rfl)))
  · exact irrefl (hl c (Or.inl rfl))
  · exact (irrefl (hc _ (Or.inl rfl))).symm
  · exact (irrefl (hc d (Or.inr hd))).symm

theorem grow {cells : List Cell} (h : Ordered cells free) {free' : UInt64}
    (hle : free.toNat ≤ free'.toNat) (hbound : free'.toNat ≤ 2 ^ zkTrieDepth) : Ordered cells free' :=
  { h with
    fresh := fun c hc => (h.fresh c hc).trans_le hle
    bound := hbound }

theorem erase (h : Ordered (as ++ l :: c :: x :: bs) free) : Ordered (as ++ l :: x :: bs) free := by
  have hsub : (as ++ l :: x :: bs).Sublist (as ++ l :: c :: x :: bs) := by
    apply List.Sublist.append_left
    exact (List.sublist_cons_self c (x :: bs)).cons_cons l
  refine ⟨?_, ?_, h.sorted.sublist hsub, LinkedList.nodup_drop h.nodup, ?_, h.bound⟩
  · simpa [List.head?_append] using h.head
  · simpa [List.getLast?_append] using h.tail
  · intro d hd
    exact h.fresh d (hsub.subset hd)

theorem update (h : Ordered (as ++ l :: c :: x :: bs) free) (hval : SH256) :
    Ordered (as ++ l :: (c.1, ⟨c.2.hkey, hval⟩) :: x :: bs) free := by
  have hsorted := h.sorted
  have hnodup := h.nodup
  have hfresh := h.fresh
  refine ⟨?_, ?_, ?_, ?_, ?_, h.bound⟩
  · simpa [List.head?_append] using h.head
  · simpa [List.getLast?_append] using h.tail
  · simpa [List.pairwise_append] using hsorted
  · simpa using hnodup
  · simpa [or_imp, forall_and] using hfresh

theorem insert (h : Ordered (as ++ l :: x :: bs) free) {e : Entry} (hl : l.2.hkey < e.hkey)
    (hx : e.hkey < x.2.hkey) (hfree : free.toNat < 2 ^ zkTrieDepth) :
    Ordered (as ++ l :: (free, e) :: x :: bs) (free + 1) := by
  have hnext := next_toNat hfree
  have hsorted := h.sorted
  have hnodup := h.nodup
  have hne : ∀ c ∈ as ++ l :: x :: bs, c.1 ≠ free := by
    intro c hc heq
    have hlt := h.fresh c hc
    rw [heq] at hlt
    omega
  refine ⟨?_, ?_, ?_, ?_, ?_, ?_⟩
  · simpa [List.head?_append] using h.head
  · simpa [List.getLast?_append] using h.tail
  · simp only [List.pairwise_append, List.pairwise_cons, List.mem_cons] at hsorted ⊢
    obtain ⟨has, ⟨hl', hx', hbs⟩, hcross⟩ := hsorted
    refine ⟨has, ⟨?_, ?_, hx', hbs⟩, ?_⟩
    · rintro c (rfl | hc)
      · exact hl
      · exact hl' c hc
    · rintro c (rfl | hc)
      · exact hx
      · exact BitVec.lt_trans hx (hx' c hc)
    · rintro a ha c (rfl | rfl | hc)
      · exact hcross a ha c (Or.inl rfl)
      · exact BitVec.lt_trans (hcross a ha l (Or.inl rfl)) hl
      · exact hcross a ha c (Or.inr hc)
  · have hperm : (as ++ l :: (free, e) :: x :: bs).Perm ((free, e) :: (as ++ l :: x :: bs)) := by
      have hmid : ((as ++ [l]) ++ (free, e) :: x :: bs).Perm ((free, e) :: ((as ++ [l]) ++ x :: bs)) :=
        List.perm_middle
      simpa using hmid
    rw [(hperm.map Prod.fst).nodup_iff, List.map_cons, List.nodup_cons]
    refine ⟨?_, hnodup⟩
    intro hmem
    obtain ⟨c, hc, heq⟩ := List.mem_map.mp hmem
    exact hne c hc heq
  · intro c hc
    rw [hnext]
    have hmem : c = (free, e) ∨ c ∈ as ++ l :: x :: bs := by
      simp only [List.mem_append, List.mem_cons] at hc ⊢
      tauto
    rcases hmem with rfl | hmem
    · exact Nat.lt_succ_self _
    · exact (h.fresh c hmem).trans (Nat.lt_succ_self _)
  · omega

theorem around (h : Ordered (as ++ l :: c :: x :: bs) free) :
    l.2.hkey < c.2.hkey ∧ c.2.hkey < x.2.hkey := by
  have hsorted := (List.pairwise_append.mp h.sorted).2.1
  simp only [List.pairwise_cons, List.mem_cons] at hsorted
  exact ⟨hsorted.1 c (Or.inl rfl), hsorted.2.1 x (Or.inl rfl)⟩

theorem locate {cells : List Cell} (h : Ordered cells free) {k : SH256}
    (hhead : LeafOpening.head.hkey < k) (htail : k < LeafOpening.tail.hkey) :
    (∃ as l x bs, cells = as ++ l :: x :: bs ∧ l.2.hkey < k ∧ k < x.2.hkey) ∨
      ∃ as l c x bs, cells = as ++ l :: c :: x :: bs ∧ c.2.hkey = k := by
  have walk : ∀ (rest : List Cell) (l : Cell), l.2.hkey < k → (l :: rest).getLast? = some Cell.tail →
      (∃ as l' x bs, l :: rest = as ++ l' :: x :: bs ∧ l'.2.hkey < k ∧ k < x.2.hkey) ∨
        ∃ as l' c x bs, l :: rest = as ++ l' :: c :: x :: bs ∧ c.2.hkey = k := by
    intro rest
    induction rest with
    | nil =>
      intro l hl hlast
      obtain rfl : l = Cell.tail := Option.some.inj hlast
      exact absurd (BitVec.lt_trans hl htail) (BitVec.lt_irrefl _)
    | cons x rest ih =>
      intro l hl hlast
      have hlast' : (x :: rest).getLast? = some Cell.tail := by
        simpa using hlast
      by_cases hxk : x.2.hkey < k
      · rcases ih x hxk hlast' with ⟨as, l', y, bs, heq, hcase⟩ | ⟨as, l', c, y, bs, heq, hcase⟩
        · exact Or.inl ⟨l :: as, l', y, bs, by rw [heq]; rfl, hcase⟩
        · exact Or.inr ⟨l :: as, l', c, y, bs, by rw [heq]; rfl, hcase⟩
      · by_cases hkx : k < x.2.hkey
        · exact Or.inl ⟨[], l, x, rest, rfl, hl, hkx⟩
        · have heq : x.2.hkey = k := BitVec.le_antisymm (BitVec.not_lt.mp hkx) (BitVec.not_lt.mp hxk)
          cases rest with
          | nil =>
            obtain rfl : x = Cell.tail := Option.some.inj hlast'
            exact absurd (heq ▸ htail) (BitVec.lt_irrefl _)
          | cons y bs => exact Or.inr ⟨[], l, x, y, bs, rfl, heq⟩
  cases cells with
  | nil => cases h.head
  | cons l rest =>
    obtain rfl : l = Cell.head := Option.some.inj h.head
    exact walk rest _ hhead h.tail

end Ordered

theorem ordered_ends : Ordered [Cell.head, Cell.tail] 2 := by
  refine ⟨rfl, rfl, ?_, ?_, ?_, ?_⟩
  · simp only [List.pairwise_cons, List.mem_singleton, forall_eq, List.not_mem_nil, false_imp_iff,
      implies_true, List.Pairwise.nil, and_true]
    decide
  · decide
  · simp only [List.mem_cons, List.not_mem_nil, or_false, forall_eq_or_imp, forall_eq]
    decide
  · decide

section TreeMap

variable {as bs : List Cell} {l c x : Cell}

theorem leafValue_injective {l k : LeafOpening} (h : l.leafValue = k.leafValue) : l = k :=
  LeafOpening.toBytes_injective (congrArg Subtype.val h)

theorem treeMap_comp (cells : List Cell) :
    treeMap cells = Option.map (fun r => (opening r).leafValue) ∘ store 0 1 cells := rfl

theorem treeMap_eq_some_iff {cells : List Cell} (h : (cells.map Prod.fst).Nodup) {i : UInt64}
    {k : LeafOpening} :
    treeMap cells i = some k.leafValue ↔ ∃ r, (i, r) ∈ link 0 1 cells ∧ opening r = k := by
  constructor
  · intro hv
    obtain ⟨r, hr, hk⟩ := Option.map_eq_some_iff.mp hv
    exact ⟨r, (LinkedList.store_eq_some_iff h).mp hr, leafValue_injective hk⟩
  · rintro ⟨r, hr, rfl⟩
    exact Option.map_eq_some_iff.mpr ⟨r, (LinkedList.store_eq_some_iff h).mpr hr, rfl⟩

theorem treeMap_mem {cells : List Cell} (h : (cells.map Prod.fst).Nodup) {i : UInt64}
    {k : LeafOpening} (hk : treeMap cells i = some k.leafValue) : (i, ⟨k.hkey, k.hval⟩) ∈ cells := by
  obtain ⟨r, hr, rfl⟩ := (treeMap_eq_some_iff h).mp hk
  exact LinkedList.mem_of_mem_link hr

theorem exists_treeMap {cells : List Cell} (h : (cells.map Prod.fst).Nodup) (hc : c ∈ cells) :
    ∃ k : LeafOpening, treeMap cells c.1 = some k.leafValue ∧ k.hkey = c.2.hkey ∧ k.hval = c.2.hval := by
  obtain ⟨⟨i, r⟩, hr, hi, hp⟩ := LinkedList.exists_mem_link 0 1 hc
  refine ⟨opening r, ?_, congrArg Entry.hkey hp, congrArg Entry.hval hp⟩
  exact (treeMap_eq_some_iff h).mpr ⟨r, hi ▸ hr, rfl⟩

theorem treeMap_none {cells : List Cell} {i : UInt64} (h : i ∉ cells.map Prod.fst) :
    treeMap cells i = none := by
  rw [treeMap, LinkedList.store_eq_none h]
  rfl

theorem treeMap_pair (h : ((as ++ l :: x :: bs).map Prod.fst).Nodup) :
    treeMap (as ++ l :: x :: bs) l.1 = some (opening ⟨last 0 as, l.2, x.1⟩).leafValue ∧
      treeMap (as ++ l :: x :: bs) x.1 = some (opening ⟨l.1, x.2, first 1 bs⟩).leafValue := by
  obtain ⟨hl, hx⟩ := LinkedList.store_pair (p := 0) (q := 1) h
  simp only [treeMap, hl, hx, Option.map_some, and_self]

theorem treeMap_three (h : ((as ++ l :: c :: x :: bs).map Prod.fst).Nodup) :
    treeMap (as ++ l :: c :: x :: bs) l.1 = some (opening ⟨last 0 as, l.2, c.1⟩).leafValue ∧
      treeMap (as ++ l :: c :: x :: bs) c.1 = some (opening ⟨l.1, c.2, x.1⟩).leafValue ∧
      treeMap (as ++ l :: c :: x :: bs) x.1 = some (opening ⟨c.1, x.2, first 1 bs⟩).leafValue := by
  obtain ⟨hl, hc, hx⟩ := LinkedList.store_three (p := 0) (q := 1) h
  simp only [treeMap, hl, hc, hx, Option.map_some, and_self]

/-- The leaves between the writes of an insertion of `c` and of a deletion of `c`. -/
def insertLeft (as : List Cell) (l c x : Cell) (bs : List Cell) : IndexMap :=
  Function.update (treeMap (as ++ l :: x :: bs)) l.1 (some (opening ⟨last 0 as, l.2, c.1⟩).leafValue)

def insertNew (as : List Cell) (l c x : Cell) (bs : List Cell) : IndexMap :=
  Function.update (insertLeft as l c x bs) c.1 (some (opening ⟨l.1, c.2, x.1⟩).leafValue)

def deleteLeft (as : List Cell) (l c x : Cell) (bs : List Cell) : IndexMap :=
  Function.update (treeMap (as ++ l :: c :: x :: bs)) l.1 (some (opening ⟨last 0 as, l.2, x.1⟩).leafValue)

def deleteOld (as : List Cell) (l c x : Cell) (bs : List Cell) : IndexMap :=
  Function.update (deleteLeft as l c x bs) c.1 none

theorem treeMap_insert (h : ((as ++ l :: c :: x :: bs).map Prod.fst).Nodup) :
    Function.update (insertNew as l c x bs) x.1 (some (opening ⟨c.1, x.2, first 1 bs⟩).leafValue) =
      treeMap (as ++ l :: c :: x :: bs) := by
  rw [insertNew, insertLeft, treeMap_comp, treeMap_comp, ← LinkedList.store_insert h,
    Function.comp_update, Function.comp_update, Function.comp_update]
  rfl

theorem treeMap_erase (h : ((as ++ l :: c :: x :: bs).map Prod.fst).Nodup) :
    Function.update (deleteOld as l c x bs) x.1 (some (opening ⟨l.1, x.2, first 1 bs⟩).leafValue) =
      treeMap (as ++ l :: x :: bs) := by
  rw [deleteOld, deleteLeft, treeMap_comp, treeMap_comp, ← LinkedList.store_erase h,
    Function.comp_update, Function.comp_update, Function.comp_update]
  rfl

theorem insertLeft_new (h : ((as ++ l :: c :: x :: bs).map Prod.fst).Nodup) :
    insertLeft as l c x bs c.1 = none := by
  have hlc := (LinkedList.indices_ne h).1
  have hmid : (as ++ [l]) ++ c :: x :: bs = as ++ l :: c :: x :: bs := by simp
  obtain ⟨hbefore, hafter⟩ := LinkedList.not_mem_of_nodup (hmid ▸ h)
  rw [insertLeft, Function.update_of_ne hlc.symm]
  apply treeMap_none
  simp only [List.map_append, List.map_cons, List.map_nil, List.mem_append, List.mem_cons,
    List.not_mem_nil, or_false, not_or] at hbefore hafter ⊢
  exact ⟨hbefore.1, hbefore.2, hafter⟩

theorem insertNew_right (h : ((as ++ l :: c :: x :: bs).map Prod.fst).Nodup) :
    insertNew as l c x bs x.1 = some (opening ⟨l.1, x.2, first 1 bs⟩).leafValue := by
  obtain ⟨_, hlx, hcx⟩ := LinkedList.indices_ne h
  rw [insertNew, insertLeft, Function.update_of_ne hcx.symm, Function.update_of_ne hlx.symm]
  exact (treeMap_pair (LinkedList.nodup_drop h)).2

theorem deleteLeft_old (h : ((as ++ l :: c :: x :: bs).map Prod.fst).Nodup) :
    deleteLeft as l c x bs c.1 = some (opening ⟨l.1, c.2, x.1⟩).leafValue := by
  rw [deleteLeft, Function.update_of_ne (LinkedList.indices_ne h).1.symm]
  exact (treeMap_three h).2.1

theorem deleteOld_right (h : ((as ++ l :: c :: x :: bs).map Prod.fst).Nodup) :
    deleteOld as l c x bs x.1 = some (opening ⟨c.1, x.2, first 1 bs⟩).leafValue := by
  obtain ⟨_, hlx, hcx⟩ := LinkedList.indices_ne h
  rw [deleteOld, deleteLeft, Function.update_of_ne hcx.symm, Function.update_of_ne hlx.symm]
  exact (treeMap_three h).2.2

theorem treeMap_replace (h : ((as ++ l :: c :: x :: bs).map Prod.fst).Nodup) (e : Entry) :
    Function.update (treeMap (as ++ l :: c :: x :: bs)) c.1 (some (opening ⟨l.1, e, x.1⟩).leafValue) =
      treeMap (as ++ l :: (c.1, e) :: x :: bs) := by
  have hmid : (as ++ [l]) ++ c :: x :: bs = as ++ l :: c :: x :: bs := by simp
  have hnew : (as ++ [l]) ++ (c.1, e) :: x :: bs = as ++ l :: (c.1, e) :: x :: bs := by simp
  have hstore := LinkedList.store_replace (p := 0) (q := 1) (hmid ▸ h) e
  rw [LinkedList.last_append, hmid, hnew] at hstore
  rw [treeMap_comp, treeMap_comp, ← hstore, Function.comp_update]
  rfl

theorem treeMap_ends : treeMap [Cell.head, Cell.tail] =
    Function.update (Function.update (fun _ => none) 0 (some LeafOpening.head.leafValue)) 1
      (some LeafOpening.tail.leafValue) := by
  funext i
  by_cases h1 : i = 1
  · subst h1
    rw [Function.update_self]
    rfl
  · rw [Function.update_of_ne h1]
    by_cases h0 : i = 0
    · subst h0
      rw [Function.update_self]
      rfl
    · rw [Function.update_of_ne h0, treeMap_none]
      simp [Cell.head, Cell.tail, h0, h1]

end TreeMap

section Neighbours

variable [TrieHash]

/-- The answer about a key is the true one: its leaf, if there is one, and the leaves with the
nearest keys on either side. -/
structure Neighbours (m : IndexMap) (hkey : SH256) (r : KeyRange) : Prop where
  left : ∃ l : LeafOpening, m r.leftIndex = some l.leafValue ∧ l.hkey < hkey ∧
    ∀ i (k : LeafOpening), i.toNat < 2 ^ zkTrieDepth → m i = some k.leafValue → k.hkey < hkey →
      k.hkey ≤ l.hkey
  right : ∃ x : LeafOpening, m r.rightIndex = some x.leafValue ∧ hkey < x.hkey ∧
    ∀ i (k : LeafOpening), i.toNat < 2 ^ zkTrieDepth → m i = some k.leafValue → hkey < k.hkey →
      x.hkey ≤ k.hkey
  center : ∀ c, r.center = some c → ∃ k : LeafOpening, m c.leafIndex = some k.leafValue ∧
    k.hkey = hkey ∧ TrieHash.sum c.leafValue = .ok k.hval
  absent : r.center = none → ∀ i (k : LeafOpening), i.toNat < 2 ^ zkTrieDepth →
    m i = some k.leafValue → k.hkey ≠ hkey

variable {as bs : List Cell} {l c x : Cell} {free : UInt64} {hkey : SH256} {r : KeyRange}

theorem Neighbours.leftIndex_eq {cells : List Cell} (ho : Ordered cells free)
    (h : Neighbours (treeMap cells) hkey r) (hl : l ∈ cells) (hlt : l.2.hkey < hkey)
    (hmax : ∀ d ∈ cells, d.2.hkey < hkey → d.2.hkey ≤ l.2.hkey) : r.leftIndex = l.1 := by
  obtain ⟨k, hk, hkhkey, hkmax⟩ := h.left
  have hmem := treeMap_mem ho.nodup hk
  obtain ⟨k', hk', hkey', _⟩ := exists_treeMap ho.nodup hl
  have hle := hkmax _ _ (ho.index_lt hl) hk' (hkey' ▸ hlt)
  rw [hkey'] at hle
  have heq := ho.eq_of_hkey hmem hl (BitVec.le_antisymm (hmax _ hmem hkhkey) hle)
  exact congrArg Prod.fst heq

theorem Neighbours.rightIndex_eq {cells : List Cell} (ho : Ordered cells free)
    (h : Neighbours (treeMap cells) hkey r) (hx : x ∈ cells) (hlt : hkey < x.2.hkey)
    (hmin : ∀ d ∈ cells, hkey < d.2.hkey → x.2.hkey ≤ d.2.hkey) : r.rightIndex = x.1 := by
  obtain ⟨k, hk, hkhkey, hkmin⟩ := h.right
  have hmem := treeMap_mem ho.nodup hk
  obtain ⟨k', hk', hkey', _⟩ := exists_treeMap ho.nodup hx
  have hle := hkmin _ _ (ho.index_lt hx) hk' (hkey' ▸ hlt)
  rw [hkey'] at hle
  have heq := ho.eq_of_hkey hmem hx (BitVec.le_antisymm hle (hmin _ hmem hkhkey))
  exact congrArg Prod.fst heq

theorem Neighbours.between (ho : Ordered (as ++ l :: x :: bs) free)
    (h : Neighbours (treeMap (as ++ l :: x :: bs)) hkey r) (hl : l.2.hkey < hkey)
    (hx : hkey < x.2.hkey) : r = ⟨l.1, none, x.1⟩ := by
  have hleft : r.leftIndex = l.1 := by
    refine h.leftIndex_eq ho (by simp) hl ?_
    intro d hd hdk
    rcases ho.below_or_above d hd with hle | hle
    · exact hle
    · exact absurd (BitVec.lt_trans hdk hx) (BitVec.not_lt.mpr hle)
  have hright : r.rightIndex = x.1 := by
    refine h.rightIndex_eq ho (by simp) hx ?_
    intro d hd hkd
    rcases ho.below_or_above d hd with hle | hle
    · exact absurd (BitVec.lt_trans hl hkd) (BitVec.not_lt.mpr hle)
    · exact hle
  have hcenter : r.center = none := by
    cases hc : r.center with
    | none => rfl
    | some f =>
      obtain ⟨k, hk, hkey, _⟩ := h.center f hc
      have hmem := treeMap_mem ho.nodup hk
      rcases ho.below_or_above _ hmem with hle | hle
      · exact absurd hl (BitVec.not_lt.mpr (hkey ▸ hle))
      · exact absurd hx (BitVec.not_lt.mpr (hkey ▸ hle))
  cases r
  simp only at hleft hright hcenter
  rw [hleft, hright, hcenter]

theorem Neighbours.at_cell (ho : Ordered (as ++ l :: c :: x :: bs) free)
    (h : Neighbours (treeMap (as ++ l :: c :: x :: bs)) c.2.hkey r) :
    ∃ value, r = ⟨l.1, some ⟨c.1, value⟩, x.1⟩ ∧ TrieHash.sum value = .ok c.2.hval := by
  have hright' : (as ++ [l]) ++ c :: x :: bs = as ++ l :: c :: x :: bs := by simp
  have hlc := ho.around
  have hleft : r.leftIndex = l.1 := by
    refine h.leftIndex_eq ho (by simp) hlc.1 ?_
    intro d hd hdk
    rcases ho.below_or_above d hd with hle | hle
    · exact hle
    · exact absurd hdk (BitVec.not_lt.mpr hle)
  have hright : r.rightIndex = x.1 := by
    refine h.rightIndex_eq ho (by simp) hlc.2 ?_
    intro d hd hkd
    rcases (hright' ▸ ho).below_or_above d (hright' ▸ hd) with hle | hle
    · exact absurd hkd (BitVec.not_lt.mpr hle)
    · exact hle
  have hc : c ∈ as ++ l :: c :: x :: bs := by simp
  obtain ⟨k, hk, hkey, _⟩ := exists_treeMap ho.nodup hc
  cases hcenter : r.center with
  | none => exact absurd hkey (h.absent hcenter _ k (ho.index_lt hc) hk)
  | some f =>
    obtain ⟨k', hk', hkey', hsum⟩ := h.center f hcenter
    have heq := ho.eq_of_hkey (treeMap_mem ho.nodup hk') hc hkey'
    refine ⟨f.leafValue, ?_, ?_⟩
    · cases r
      cases f
      simp only at hleft hright hcenter
      rw [hleft, hright, hcenter, ← heq]
    · rw [hsum, ← heq]

theorem neighbours_between (ho : Ordered (as ++ l :: x :: bs) free) (hl : l.2.hkey < hkey)
    (hx : hkey < x.2.hkey) : Neighbours (treeMap (as ++ l :: x :: bs)) hkey ⟨l.1, none, x.1⟩ := by
  obtain ⟨hleft, hright⟩ := treeMap_pair ho.nodup
  refine ⟨⟨_, hleft, hl, ?_⟩, ⟨_, hright, hx, ?_⟩, ?_, ?_⟩
  · intro i k _ hk hlt
    rcases ho.below_or_above _ (treeMap_mem ho.nodup hk) with hle | hle
    · exact hle
    · exact absurd (BitVec.lt_trans hlt hx) (BitVec.not_lt.mpr hle)
  · intro i k _ hk hlt
    rcases ho.below_or_above _ (treeMap_mem ho.nodup hk) with hle | hle
    · exact absurd (BitVec.lt_trans hl hlt) (BitVec.not_lt.mpr hle)
    · exact hle
  · intro c hc
    cases hc
  · rintro _ i k _ hk rfl
    rcases ho.below_or_above _ (treeMap_mem ho.nodup hk) with hle | hle
    · exact absurd hl (BitVec.not_lt.mpr hle)
    · exact absurd hx (BitVec.not_lt.mpr hle)

theorem neighbours_at (ho : Ordered (as ++ l :: c :: x :: bs) free) {value : Bytes}
    (hval : TrieHash.sum value = .ok c.2.hval) :
    Neighbours (treeMap (as ++ l :: c :: x :: bs)) c.2.hkey ⟨l.1, some ⟨c.1, value⟩, x.1⟩ := by
  obtain ⟨hleft, hcenter, hright⟩ := treeMap_three ho.nodup
  obtain ⟨hlc, hcx⟩ := ho.around
  have hshift : (as ++ [l]) ++ c :: x :: bs = as ++ l :: c :: x :: bs := by simp
  refine ⟨⟨_, hleft, hlc, ?_⟩, ⟨_, hright, hcx, ?_⟩, ?_, ?_⟩
  · intro i k _ hk hlt
    rcases ho.below_or_above _ (treeMap_mem ho.nodup hk) with hle | hle
    · exact hle
    · exact absurd hlt (BitVec.not_lt.mpr hle)
  · intro i k _ hk hlt
    rcases (hshift ▸ ho).below_or_above _ (hshift ▸ treeMap_mem ho.nodup hk) with hle | hle
    · exact absurd hlt (BitVec.not_lt.mpr hle)
    · exact hle
  · rintro d ⟨⟩
    exact ⟨_, hcenter, rfl, hval⟩
  · intro hnone
    cases hnone

theorem Neighbours.congr {m m' : IndexMap} (h : Neighbours m hkey r)
    (heq : ∀ i : UInt64, i.toNat < 2 ^ zkTrieDepth → m i = m' i) (hl : r.leftIndex.toNat < 2 ^ zkTrieDepth)
    (hx : r.rightIndex.toNat < 2 ^ zkTrieDepth)
    (hc : ∀ c, r.center = some c → c.leafIndex.toNat < 2 ^ zkTrieDepth) : Neighbours m' hkey r := by
  obtain ⟨⟨l, hleft, hlk, hlmax⟩, ⟨x, hright, hxk, hxmin⟩, hcenter, habsent⟩ := h
  refine ⟨⟨l, heq _ hl ▸ hleft, hlk, ?_⟩, ⟨x, heq _ hx ▸ hright, hxk, ?_⟩, ?_, ?_⟩
  · intro i k hi hk
    exact hlmax i k hi (heq i hi ▸ hk)
  · intro i k hi hk
    exact hxmin i k hi (heq i hi ▸ hk)
  · intro c hcen
    obtain ⟨k, hk, hrest⟩ := hcenter c hcen
    exact ⟨k, heq _ (hc c hcen) ▸ hk, hrest⟩
  · intro hnone i k hi hk
    exact habsent hnone i k hi (heq i hi ▸ hk)

end Neighbours

end LineaSgxProver.Zktrie
