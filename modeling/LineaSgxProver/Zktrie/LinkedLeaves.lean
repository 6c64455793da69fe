import LineaSgxProver.Zktrie.LeafOps

namespace LineaSgxProver.Zktrie

open Library
open LinkedList (Linked link store first last)
open ZkTrie (Decodes SafeButNext)

/-- A call of the trie on a key. -/
inductive KeyOp where
  | put (key value : Bytes)
  | remove (key : Bytes)

namespace KeyOp

def key : KeyOp → Bytes
  | put k _ => k
  | remove k => k

def apply (live : Bytes → Option Bytes) : KeyOp → Bytes → Option Bytes
  | put k v => Function.update live k (some v)
  | remove k => Function.update live k none

def inserts (live : Bytes → Option Bytes) : KeyOp → ℕ
  | put k _ => if live k = none then 1 else 0
  | remove _ => 0

def insertions (live : Bytes → Option Bytes) : List KeyOp → ℕ
  | [] => 0
  | op :: ops => op.inserts live + insertions (op.apply live) ops

theorem insertions_append (live : Bytes → Option Bytes) (pre post : List KeyOp) :
    insertions live (pre ++ post) = insertions live pre + insertions (pre.foldl apply live) post := by
  induction pre generalizing live with
  | nil => simp [insertions]
  | cons op pre ih => rw [List.cons_append, insertions, insertions, ih, List.foldl_cons, Nat.add_assoc]

def live (ops : List KeyOp) : Bytes → Option Bytes := ops.foldl apply fun _ => none

section Run

variable [TrieHash] [Profile] {D : Type} [Database D] (parse : Bytes → Option LeafOpening)

def run : KeyOp → Call (Session D) Unit
  | put k v => ZkTrie.put parse k v
  | remove k => ZkTrie.remove parse k

def runAll : List KeyOp → Call (Session D) Unit
  | [] => pure ()
  | op :: ops => do
    op.run parse
    runAll ops

variable {parse}

theorem runAll_append (pre post : List KeyOp) : (runAll parse (pre ++ post) : Call (Session D) Unit) =
    runAll parse pre >>= fun _ => runAll parse post := by
  induction pre with
  | nil => rfl
  | cons op pre ih =>
    rw [List.cons_append, runAll, runAll, ih, Action.bind_assoc]

end Run

section Accepts

variable [TrieHash]

/-- The hash accepts the call's key, between the head's and the tail's, and its value. -/
structure Accepted (op : KeyOp) : Prop where
  key : ∃ hkey, TrieHash.sum op.key = .ok hkey ∧ LeafOpening.head.hkey < hkey ∧
    hkey < LeafOpening.tail.hkey
  value : ∀ k v, op = put k v → ∃ hval, TrieHash.sum v = .ok hval

end Accepts

end KeyOp

section Tracks

variable [TrieHash]

/-- The cells between the head and the tail are the live keys, each with the hash of its value. -/
structure Tracks (keys : Set Bytes) (live : Bytes → Option Bytes) (cells : List Cell) : Prop where
  known : ∀ k, live k ≠ none → k ∈ keys
  cell : ∀ k v, live k = some v →
    ∃ c ∈ cells, TrieHash.sum k = .ok c.2.hkey ∧ TrieHash.sum v = .ok c.2.hval
  live : ∀ c ∈ cells, LeafOpening.head.hkey < c.2.hkey → c.2.hkey < LeafOpening.tail.hkey →
    ∃ k v, live k = some v ∧ TrieHash.sum k = .ok c.2.hkey ∧ TrieHash.sum v = .ok c.2.hval

def Separates (keys : Set Bytes) : Prop :=
  ∀ a ∈ keys, ∀ b ∈ keys, ∀ h, TrieHash.sum a = .ok h → TrieHash.sum b = .ok h → a = b

namespace Tracks

variable {keys : Set Bytes} {live : Bytes → Option Bytes} {as bs : List Cell} {l c x : Cell}
  {free : UInt64} {k v : Bytes}

theorem absent (ho : Ordered (as ++ l :: x :: bs) free) (h : Tracks keys live (as ++ l :: x :: bs))
    {hkey : SH256} (hk : TrieHash.sum k = .ok hkey) (hl : l.2.hkey < hkey) (hx : hkey < x.2.hkey) :
    live k = none := by
  by_contra hne
  obtain ⟨v, hv⟩ := Option.ne_none_iff_exists'.mp hne
  obtain ⟨c, hc, hck, _⟩ := h.cell k v hv
  have heq : c.2.hkey = hkey := Except.ok.inj (hck.symm.trans hk)
  rcases ho.below_or_above c hc with hle | hle
  · exact absurd hl (BitVec.not_lt.mpr (heq ▸ hle))
  · exact absurd hx (BitVec.not_lt.mpr (heq ▸ hle))

theorem present {cells : List Cell} (hkeys : Separates keys) (h : Tracks keys live cells)
    (hk : k ∈ keys) (hc : c ∈ cells) (hsum : TrieHash.sum k = .ok c.2.hkey)
    (hhead : LeafOpening.head.hkey < c.2.hkey) (htail : c.2.hkey < LeafOpening.tail.hkey) :
    live k ≠ none := by
  obtain ⟨k', v, hv, hk', _⟩ := h.live c hc hhead htail
  have heq : k' = k := hkeys k' (h.known k' (by simp [hv])) k hk _ hk' hsum
  rw [← heq, hv]
  simp

omit [TrieHash] in
theorem mem_middle (d : Cell) : d ∈ as ++ l :: c :: x :: bs ↔ d = c ∨ d ∈ as ++ l :: x :: bs := by
  simp only [List.mem_append, List.mem_cons]
  tauto

theorem known_update {cells : List Cell} (h : Tracks keys live cells) (hk : k ∈ keys) (o : Option Bytes) :
    ∀ k', Function.update live k o k' ≠ none → k' ∈ keys := by
  intro k' hk'
  by_cases heq : k' = k
  · rw [heq]
    exact hk
  · rw [Function.update_of_ne heq] at hk'
    exact h.known k' hk'

theorem insert (h : Tracks keys live (as ++ l :: x :: bs)) (hk : k ∈ keys) (i : UInt64) {e : Entry}
    (hkey : TrieHash.sum k = .ok e.hkey) (hval : TrieHash.sum v = .ok e.hval)
    (habsent : live k = none) :
    Tracks keys (Function.update live k (some v)) (as ++ l :: (i, e) :: x :: bs) := by
  refine ⟨h.known_update hk _, ?_, ?_⟩
  · intro k' v' hv'
    by_cases heq : k' = k
    · subst heq
      rw [Function.update_self] at hv'
      obtain rfl := Option.some.inj hv'
      exact ⟨(i, e), (mem_middle _).mpr (Or.inl rfl), hkey, hval⟩
    · rw [Function.update_of_ne heq] at hv'
      obtain ⟨c, hc, hcase⟩ := h.cell k' v' hv'
      exact ⟨c, (mem_middle c).mpr (Or.inr hc), hcase⟩
  · intro c hc hhead htail
    rcases (mem_middle c).mp hc with rfl | hc
    · exact ⟨k, v, Function.update_self .., hkey, hval⟩
    · obtain ⟨k', v', hv', hcase⟩ := h.live c hc hhead htail
      have hne : k' ≠ k := by
        rintro rfl
        rw [habsent] at hv'
        cases hv'
      exact ⟨k', v', by rw [Function.update_of_ne hne, hv'], hcase⟩

theorem erase (ho : Ordered (as ++ l :: c :: x :: bs) free) (hkeys : Separates keys)
    (h : Tracks keys live (as ++ l :: c :: x :: bs)) (hk : k ∈ keys)
    (hkey : TrieHash.sum k = .ok c.2.hkey) :
    Tracks keys (Function.update live k none) (as ++ l :: x :: bs) := by
  refine ⟨h.known_update hk _, ?_, ?_⟩
  · intro k' v' hv'
    by_cases heq : k' = k
    · subst heq
      rw [Function.update_self] at hv'
      cases hv'
    · rw [Function.update_of_ne heq] at hv'
      obtain ⟨d, hd, hdk, hdv⟩ := h.cell k' v' hv'
      rcases (mem_middle d).mp hd with rfl | hd
      · exact absurd (hkeys k' (h.known k' (by simp [hv'])) k hk _ hdk hkey) heq
      · exact ⟨d, hd, hdk, hdv⟩
  · intro d hd hhead htail
    obtain ⟨k', v', hv', hdk, hdv⟩ := h.live d ((mem_middle d).mpr (Or.inr hd)) hhead htail
    have hne : k' ≠ k := by
      rintro rfl
      exact ho.hkey_ne hd (Except.ok.inj (hdk.symm.trans hkey))
    exact ⟨k', v', by rw [Function.update_of_ne hne, hv'], hdk, hdv⟩

/-- An update is an erasure and an insertion at the same place. -/
theorem update (ho : Ordered (as ++ l :: c :: x :: bs) free) (hkeys : Separates keys)
    (h : Tracks keys live (as ++ l :: c :: x :: bs)) (hk : k ∈ keys)
    (hkey : TrieHash.sum k = .ok c.2.hkey) {hval : SH256} (hv : TrieHash.sum v = .ok hval) :
    Tracks keys (Function.update live k (some v))
      (as ++ l :: (c.1, ⟨c.2.hkey, hval⟩) :: x :: bs) := by
  have herased : Tracks keys (Function.update live k none) (as ++ l :: x :: bs) := erase ho hkeys h hk hkey
  rw [← Function.update_idem (a := k) (v := none)]
  apply herased.insert hk c.1 (e := ⟨c.2.hkey, hval⟩) hkey hv
  exact Function.update_self ..

theorem remove_absent (h : Tracks keys live bs) (habsent : live k = none) :
    Tracks keys (Function.update live k none) bs := by
  have hsame : Function.update live k none = live := by
    rw [← habsent]
    exact Function.update_eq_self ..
  rw [hsame]
  exact h

end Tracks

end Tracks

structure Later (cells : List Cell) (free : UInt64) (cells' : List Cell) (free' : UInt64) : Prop where
  grown : free.toNat ≤ free'.toNat
  index : ∀ i ∈ cells'.map Prod.fst, i ∈ cells.map Prod.fst ∨ free.toNat ≤ i.toNat

theorem Later.refl (cells : List Cell) (free : UInt64) : Later cells free cells free :=
  ⟨le_rfl, fun _ hi => Or.inl hi⟩

theorem Later.trans {a b c : List Cell} {n m k : UInt64} (h : Later a n b m) (h' : Later b m c k) :
    Later a n c k := by
  refine ⟨h.grown.trans h'.grown, ?_⟩
  intro i hi
  rcases h'.index i hi with hb | hm
  · exact h.index i hb
  · exact Or.inr (h.grown.trans hm)

section Steps

variable [TrieHash] {D : Type} [Database D] [NodeStore D]

structure Stored (keys : Set Bytes) (E : Set Bytes) (s : Session D) (live : Bytes → Option Bytes)
    (cells : List Cell) (free : UInt64) : Prop where
  tree : Represents E s free (treeMap cells)
  ordered : Ordered cells free
  tracks : Tracks keys live cells

def Answers (E : Set Bytes) (s : Session D) (key : Bytes) : Prop :=
  ∀ hkey, TrieHash.sum key = .ok hkey →
    ∃ r, Database.getNearestKeys s.db s.trie.rootHash hkey = some r ∧
      ∀ n m, Represents E s n m → Neighbours m hkey r

variable {keys E : Set Bytes}

/-- The leaves of a tree as one doubly linked list, sorted by key, from the head at index 0 to the
tail at index 1. -/
structure LinkedLeaves (m : IndexMap) (free : UInt64) (live : Bytes → Option Bytes)
    (leaves : List (UInt64 × LeafOpening)) : Prop where
  stored : ∀ i v, m i = some v ↔ ∃ l : LeafOpening, (i, l) ∈ leaves ∧ l.leafValue = v
  head : ∃ next, leaves.head? = some (0, LeafOpening.head.newNextLeaf next)
  tail : ∃ prev, leaves.getLast? = some (1, LeafOpening.tail.newPrevLeaf prev)
  sorted : leaves.Pairwise fun a b => a.2.hkey < b.2.hkey
  linked : leaves.IsChain fun a b => a.2.nextLeaf = b.1 ∧ b.2.prevLeaf = a.1
  indices : (leaves.map Prod.fst).Nodup
  used : ∀ e ∈ leaves, e.1.toNat < free.toNat
  empty : ∀ i, free.toNat ≤ i.toNat → m i = none
  live_leaf : ∀ k v, live k = some v →
    ∃! e, e ∈ leaves ∧ TrieHash.sum k = .ok e.2.hkey ∧ TrieHash.sum v = .ok e.2.hval
  leaf_live : ∀ e ∈ leaves, e.1 ≠ 0 → e.1 ≠ 1 →
    ∃! k, ∃ v, live k = some v ∧ TrieHash.sum k = .ok e.2.hkey ∧ TrieHash.sum v = .ok e.2.hval

theorem Stored.linkedLeaves (hkeys : Separates keys) {s : Session D} {live : Bytes → Option Bytes}
    {cells : List Cell} {free : UInt64} (h : Stored keys E s live cells free) :
    LinkedLeaves (treeMap cells) free live ((link 0 1 cells).map fun e => (e.1, opening e.2)) := by
  obtain ⟨_, ho, htracks⟩ := h
  have hcell : ∀ e ∈ (link 0 1 cells).map (fun e => (e.1, opening e.2)),
      (e.1, (⟨e.2.hkey, e.2.hval⟩ : Entry)) ∈ cells := by
    intro e he
    obtain ⟨r, hr, rfl⟩ := List.mem_map.mp he
    exact LinkedList.mem_of_mem_link hr
  have hsorted : ((link 0 1 cells).map fun e => (e.1, opening e.2)).Pairwise
      fun a b => a.2.hkey < b.2.hkey := by
    have hpay := ho.sorted
    rw [← LinkedList.link_payloads 0 1 cells, List.pairwise_map] at hpay
    rw [List.pairwise_map]
    exact hpay
  refine ⟨?_, ?_, ?_, hsorted, ?_, ?_, ?_, ?_, ?_, ?_⟩
  · intro i v
    constructor
    · intro hv
      obtain ⟨r, hr, rfl⟩ := Option.map_eq_some_iff.mp hv
      have hmem := (LinkedList.store_eq_some_iff ho.nodup).mp hr
      exact ⟨opening r, List.mem_map_of_mem hmem, rfl⟩
    · rintro ⟨l, hl, rfl⟩
      obtain ⟨r, hr, heq⟩ := List.mem_map.mp hl
      obtain ⟨rfl, rfl⟩ := Prod.mk.inj heq
      exact (treeMap_eq_some_iff ho.nodup).mpr ⟨r.2, hr, rfl⟩
  · cases cells with
    | nil => cases ho.head
    | cons c rest =>
      obtain rfl : c = Cell.head := Option.some.inj ho.head
      exact ⟨_, rfl⟩
  · obtain ⟨init, rfl⟩ := List.getLast?_eq_some_iff.mp ho.tail
    refine ⟨last 0 init, ?_⟩
    rw [LinkedList.link_append, List.map_append, List.getLast?_append]
    rfl
  · rw [List.isChain_map]
    exact LinkedList.link_isChain 0 1 cells
  · rw [List.map_map]
    change ((link 0 1 cells).map Prod.fst).Nodup
    rw [LinkedList.link_indices]
    exact ho.nodup
  · intro e he
    exact ho.fresh _ (hcell e he)
  · intro i hi
    apply treeMap_none
    intro hmem
    obtain ⟨c, hc, rfl⟩ := List.mem_map.mp hmem
    exact absurd (ho.fresh c hc) (by omega)
  · intro k v hv
    obtain ⟨c, hc, hk, hval⟩ := htracks.cell k v hv
    obtain ⟨r, hr, _, hpay⟩ := LinkedList.exists_mem_link 0 1 hc
    refine ⟨(r.1, opening r.2), ⟨List.mem_map_of_mem hr, ?_, ?_⟩, ?_⟩
    · rw [hk, ← hpay]
      rfl
    · rw [hval, ← hpay]
      rfl
    · rintro e ⟨he, hek, _⟩
      refine eq_of_increasing (fun a : UInt64 × LeafOpening => a.2.hkey) hsorted he
        (List.mem_map_of_mem hr) ?_
      have heq : e.2.hkey = c.2.hkey := Except.ok.inj (hek.symm.trans hk)
      rw [heq, ← hpay]
      rfl
  · intro e he h0 h1
    have hmem := hcell e he
    obtain ⟨k, v, hv, hk, hval⟩ := htracks.live _ hmem (ho.head_lt hmem h0) (ho.lt_tail hmem h1)
    refine ⟨k, ⟨v, hv, hk, hval⟩, ?_⟩
    rintro k' ⟨v', hv', hk', _⟩
    exact hkeys k' (htracks.known k' (by simp [hv'])) k (htracks.known k (by simp [hv])) _ hk' hk

theorem stored_ends {s : Session D} (h : Represents E s 2 (treeMap [Cell.head, Cell.tail])) :
    Stored keys E s (fun _ => none) [Cell.head, Cell.tail] 2 := by
  refine ⟨h, ordered_ends, ⟨?_, ?_, ?_⟩⟩
  · intro k hk
    exact absurd rfl hk
  · intro k v hv
    cases hv
  · intro c hc hhead htail
    rcases List.mem_cons.mp hc with rfl | hc
    · exact absurd hhead (BitVec.lt_irrefl _)
    · rw [List.mem_singleton.mp hc] at htail
      exact absurd htail (BitVec.lt_irrefl _)

variable [Profile] {parse : Bytes → Option LeafOpening}

namespace KeyOp

theorem run_moves (op : KeyOp) : Moves Extends (op.run parse : Call (Session D) Unit) := by
  cases op with
  | put k v => exact ZkTrie.put_moves k v
  | remove k => exact ZkTrie.remove_moves k

theorem runAll_moves (ops : List KeyOp) : Moves Extends (runAll parse ops : Call (Session D) Unit) := by
  induction ops with
  | nil => exact Moves.pure ()
  | cons op ops ih => exact (run_moves op).bind fun _ => ih

section OneKey

variable {as bs : List Cell} {l c x : Cell} {free : UInt64} {s : Session D} {k v : Bytes}
  {hkey hval : SH256}

theorem put_between (hE : CollisionFree E) (hparse : Decodes parse id)
    (h : Represents E s free (treeMap (as ++ l :: x :: bs))) (ho : Ordered (as ++ l :: x :: bs) free)
    (hl : l.2.hkey < hkey) (hx : hkey < x.2.hkey) (hfree : free.toNat < 2 ^ zkTrieDepth)
    (hsum : TrieHash.sum k = .ok hkey) (hv : TrieHash.sum v = .ok hval) (hanswer : Answers E s k) :
    Reaches E s (ZkTrie.put parse k v) fun _ s' =>
      Represents E s' (free + 1) (treeMap (as ++ l :: (free, ⟨hkey, hval⟩) :: x :: bs)) := by
  obtain ⟨r, hrange, hneigh⟩ := hanswer hkey hsum
  obtain rfl := (hneigh _ _ h).between ho hl hx
  have hnew := ho.insert (e := ⟨hkey, hval⟩) hl hx hfree
  refine (ZkTrie.put_insert_reaches hE hparse (fun _ _ => rfl) h ho (e := ⟨hkey, hval⟩) hl hx hfree
    (ho.index_lt (by simp)) hfree (ho.index_lt (by simp)) hsum hv hrange).mono ?_
  intro _ s' hs'
  rw [← treeMap_insert hnew.nodup]
  exact hs'.1

theorem put_at (hE : CollisionFree E) (hparse : Decodes parse id)
    (h : Represents E s free (treeMap (as ++ l :: c :: x :: bs)))
    (ho : Ordered (as ++ l :: c :: x :: bs) free) (hsum : TrieHash.sum k = .ok c.2.hkey)
    (hv : TrieHash.sum v = .ok hval) (hanswer : Answers E s k) :
    Reaches E s (ZkTrie.put parse k v) fun _ s' =>
      Represents E s' free (treeMap (as ++ l :: (c.1, ⟨c.2.hkey, hval⟩) :: x :: bs)) := by
  obtain ⟨r, hrange, hneigh⟩ := hanswer _ hsum
  obtain ⟨old, rfl, _⟩ := (hneigh _ _ h).at_cell ho
  refine (ZkTrie.put_update_reaches hE hparse h ho (ho.index_lt (by simp)) hsum hv hrange).mono ?_
  intro _ s' hs'
  rw [← treeMap_replace ho.nodup]
  exact hs'.1

theorem remove_at (hE : CollisionFree E) (hparse : Decodes parse id)
    (h : Represents E s free (treeMap (as ++ l :: c :: x :: bs)))
    (ho : Ordered (as ++ l :: c :: x :: bs) free) (hsum : TrieHash.sum k = .ok c.2.hkey)
    (hanswer : Answers E s k) :
    Reaches E s (ZkTrie.remove parse k) fun _ s' =>
      Represents E s' free (treeMap (as ++ l :: x :: bs)) := by
  obtain ⟨r, hrange, hneigh⟩ := hanswer _ hsum
  obtain ⟨old, rfl, _⟩ := (hneigh _ _ h).at_cell ho
  refine (ZkTrie.remove_reaches hE hparse (fun _ _ => rfl) h ho (ho.index_lt (by simp))
    (ho.index_lt (by simp)) (ho.index_lt (by simp)) hsum hrange).mono ?_
  intro _ s' hs'
  rw [← treeMap_erase ho.nodup]
  exact hs'.1

theorem remove_between (h : Represents E s free (treeMap (as ++ l :: x :: bs)))
    (ho : Ordered (as ++ l :: x :: bs) free) (hl : l.2.hkey < hkey) (hx : hkey < x.2.hkey)
    (hsum : TrieHash.sum k = .ok hkey) (hanswer : Answers E s k) :
    Reaches E s (ZkTrie.remove parse k) fun _ s' =>
      Represents E s' free (treeMap (as ++ l :: x :: bs)) := by
  obtain ⟨r, hrange, hneigh⟩ := hanswer hkey hsum
  obtain rfl := (hneigh _ _ h).between ho hl hx
  exact ZkTrie.remove_absent_reaches h hsum hrange

end OneKey

theorem run_reaches (hE : CollisionFree E) (hparse : Decodes parse id)
    (hkeys : Separates keys) (op : KeyOp) (hop : op.Accepted) (hmem : op.key ∈ keys)
    {s : Session D} {live : Bytes → Option Bytes} {cells : List Cell} {free : UInt64}
    (h : Stored keys E s live cells free) (hanswer : Answers E s op.key)
    (hroom : free.toNat + op.inserts live ≤ 2 ^ zkTrieDepth) :
    Reaches E s (op.run parse) fun _ s' => ∃ cells' free',
      Stored keys E s' (op.apply live) cells' free' ∧ Later cells free cells' free' ∧
      free'.toNat = free.toNat + op.inserts live := by
  obtain ⟨hkey, hsum, hhead, htail⟩ := hop.key
  obtain ⟨htree, ho, htracks⟩ := h
  rcases ho.locate hhead htail with ⟨as, l, x, bs, rfl, hl, hx⟩ | ⟨as, l, c, x, bs, rfl, hc⟩
  · have habsent := htracks.absent ho hsum hl hx
    cases op with
    | put k v =>
      obtain ⟨hval, hv⟩ := hop.value k v rfl
      have hone : inserts live (put k v) = 1 := if_pos habsent
      rw [hone] at hroom ⊢
      have hfree : free.toNat < 2 ^ zkTrieDepth := by omega
      have hnext := next_toNat hfree
      refine (put_between hE hparse htree ho hl hx hfree hsum hv hanswer).mono ?_
      intro _ s' htree'
      refine ⟨_, _, ⟨htree', ho.insert hl hx hfree, htracks.insert hmem free hsum hv habsent⟩, ⟨?_, ?_⟩, hnext⟩
      · omega
      · intro i hi
        simp only [List.map_append, List.map_cons, List.mem_append, List.mem_cons] at hi ⊢
        rcases hi with hi | rfl | rfl | hi
        · exact Or.inl (Or.inl hi)
        · exact Or.inl (Or.inr (Or.inl rfl))
        · exact Or.inr le_rfl
        · exact Or.inl (Or.inr (Or.inr hi))
    | remove k =>
      refine (remove_between htree ho hl hx hsum hanswer).mono ?_
      intro _ s' hs'
      exact ⟨_, free, ⟨hs', ho, htracks.remove_absent habsent⟩, Later.refl _ _, rfl⟩
  · subst hc
    cases op with
    | put k v =>
      obtain ⟨hval, hv⟩ := hop.value k v rfl
      have hpresent := htracks.present hkeys hmem (by simp) hsum hhead htail
      have hzero : inserts live (put k v) = 0 := if_neg hpresent
      rw [hzero]
      refine (put_at hE hparse htree ho hsum hv hanswer).mono ?_
      intro _ s' htree'
      refine ⟨_, free, ⟨htree', ho.update hval, htracks.update ho hkeys hmem hsum hv⟩, ⟨le_rfl, ?_⟩, rfl⟩
      intro i hi
      left
      simpa using hi
    | remove k =>
      refine (remove_at hE hparse htree ho hsum hanswer).mono ?_
      intro _ s' htree'
      refine ⟨_, free, ⟨htree', ho.erase, htracks.erase ho hkeys hmem hsum⟩, ⟨le_rfl, ?_⟩, rfl⟩
      intro i hi
      left
      simp only [List.map_append, List.map_cons, List.mem_append, List.mem_cons] at hi ⊢
      tauto

theorem runAll_reaches (hE : CollisionFree E) (hparse : Decodes parse id)
    (hkeys : Separates keys) (ops : List KeyOp) (haccepted : ∀ op ∈ ops, op.Accepted)
    (hmem : ∀ op ∈ ops, op.key ∈ keys) {s : Session D} {live : Bytes → Option Bytes}
    {cells : List Cell} {free : UInt64} (h : Stored keys E s live cells free)
    (hanswers : ∀ pre op post, ops = pre ++ op :: post → Answers E (runAll parse pre s).2 op.key)
    (hroom : free.toNat + insertions live ops ≤ 2 ^ zkTrieDepth) :
    Reaches E s (runAll parse ops) fun _ s' => ∃ cells' free',
      Stored keys E s' (ops.foldl apply live) cells' free' ∧ Later cells free cells' free' ∧
      ∀ pre post, ops = pre ++ post → ∃ s₁ cells₁ free₁, (runAll parse pre).Returns s () s₁ ∧
        Stored keys E s₁ (pre.foldl apply live) cells₁ free₁ ∧ Later cells₁ free₁ cells' free' ∧
        free₁.toNat = free.toNat + insertions live pre := by
  induction ops generalizing s live cells free with
  | nil =>
    refine Reaches.pure () ⟨cells, free, h, Later.refl _ _, ?_⟩
    intro pre post heq
    obtain rfl := (List.append_eq_nil_iff.mp heq.symm).1
    exact ⟨s, cells, free, rfl, h, Later.refl _ _, rfl⟩
  | cons op ops ih =>
    have hhead : op ∈ op :: ops := List.mem_cons_self ..
    rw [insertions] at hroom
    have hstep := run_reaches hE hparse hkeys op (haccepted op hhead) (hmem op hhead) h
      (hanswers [] op ops rfl) (by omega)
    refine hstep.self.bind (fun _ => runAll_moves ops) ?_
    rintro _ s₁ ⟨hret, cells₁, free₁, h₁, hlater₁, hfree₁⟩
    refine (ih (fun o ho => haccepted o (List.mem_cons_of_mem _ ho))
      (fun o ho => hmem o (List.mem_cons_of_mem _ ho)) h₁ ?_ (by omega)).mono ?_
    · intro pre o post heq
      have hrest : (runAll parse (op :: pre) s).2 = (runAll parse pre s₁).2 := by
        rw [runAll, Action.bind_apply, hret]
      rw [← hrest]
      exact hanswers (op :: pre) o post (by rw [heq]; rfl)
    · rintro _ s' ⟨cells', free', h', hlater', hsplit⟩
      refine ⟨cells', free', h', hlater₁.trans hlater', ?_⟩
      intro pre post heq
      cases pre with
      | nil => exact ⟨s, cells, free, rfl, h, hlater₁.trans hlater', rfl⟩
      | cons o pre =>
        obtain ⟨rfl, htail⟩ := List.cons.inj heq
        obtain ⟨s₂, cells₂, free₂, hret₂, h₂, hlater₂, hfree₂⟩ := hsplit pre post htail
        refine ⟨s₂, cells₂, free₂, hret.bind hret₂, h₂, hlater₂, ?_⟩
        rw [hfree₂, hfree₁, insertions, Nat.add_assoc]

end KeyOp

namespace KeyOp

/-- What the trie hash was taken of in a run from the empty trie. -/
def hashed (parse : Bytes → Option LeafOpening) (ops : List KeyOp) (db : D) : Set Bytes :=
  encodings (known (runAll parse ops (ZkTrie.empty db).2).2.db)

theorem empty_reaches (hE : CollisionFree E) (db : D) (hdb : Proper (NodeStore.nodes db))
    (hsub : encodings (known (ZkTrie.empty db).2.db) ⊆ E) :
    ∃ s₀, ZkTrie.empty db = (.ok (), s₀) ∧
      Stored keys E s₀ (fun _ => none) [Cell.head, Cell.tail] 2 := by
  have hgrow : Extends db (ZkTrie.empty db).2.db :=
    ZkTrie.setHeadAndTail_moves (⟨⟨initWorldState.1.hash⟩, db⟩ : Session D)
  have hinit := represents_initWorldState db hdb (hgrow.encodings_subset.trans hsub)
  obtain ⟨_, s₀, hret, hends⟩ := ZkTrie.setHeadAndTail_reaches hE hinit hsub
  exact ⟨s₀, hret, stored_ends hends⟩

/-- After any calls the leaves of the tree are the sorted linked list of the live keys, and an index
that was given up stays empty. -/
theorem runAll_linkedLeaves (hparse : Decodes parse id)
    (ops : List KeyOp) (haccepted : ∀ op ∈ ops, op.Accepted)
    (hdistinct : Separates {k | ∃ op ∈ ops, op.key = k})
    (hroom : insertions (fun _ => none) ops + 2 ≤ 2 ^ zkTrieDepth) (db : D)
    (hdb : Proper (NodeStore.nodes db)) (hhash : CollisionFree (hashed parse ops db))
    (hanswers : ∀ pre op post, ops = pre ++ op :: post →
      Answers (hashed parse ops db) (runAll parse pre (ZkTrie.empty db).2).2 op.key) :
    ∃ s₀, ZkTrie.empty db = (.ok (), s₀) ∧
      ∃ s free m leaves, (runAll parse ops).Returns s₀ () s ∧
        Represents (hashed parse ops db) s free m ∧ LinkedLeaves m free (live ops) leaves ∧
        ∀ pre post, ops = pre ++ post → ∃ s' free' m', (runAll parse pre).Returns s₀ () s' ∧
          Represents (hashed parse ops db) s' free' m' ∧
          ∀ i : UInt64, i.toNat < free'.toNat → m' i = none → m i = none := by
  have hgrow : Extends (ZkTrie.empty db).2.db (runAll parse ops (ZkTrie.empty db).2).2.db :=
    runAll_moves ops _
  obtain ⟨s₀, hempty, hstored⟩ := empty_reaches hhash db hdb hgrow.encodings_subset
  have hstart : (ZkTrie.empty db).2 = s₀ := by rw [hempty]
  have hsub : encodings (known (runAll parse ops s₀).2.db) ⊆ hashed parse ops db := by
    rw [hashed, hstart]
  have hfree : (2 : UInt64).toNat = 2 := rfl
  rw [hstart] at hanswers
  obtain ⟨_, s, hret, cells, free, hs, _, hsplit⟩ := runAll_reaches hhash hparse hdistinct ops
    haccepted (fun op hop => ⟨op, hop, rfl⟩) hstored hanswers (by omega) hsub
  refine ⟨s₀, hempty, s, free, treeMap cells, _, hret, hs.tree, hs.linkedLeaves hdistinct, ?_⟩
  intro pre post heq
  obtain ⟨s₁, cells₁, free₁, hret₁, h₁, hlater, _⟩ := hsplit pre post heq
  refine ⟨s₁, free₁, treeMap cells₁, hret₁, h₁.tree, ?_⟩
  intro i hi hnone
  apply treeMap_none
  intro hmem
  rcases hlater.index i hmem with hold | hle
  · obtain ⟨c, hc, rfl⟩ := List.mem_map.mp hold
    obtain ⟨k, hk, _⟩ := exists_treeMap h₁.ordered.nodup hc
    rw [hnone] at hk
    cases hk
  · omega

end KeyOp

end Steps

end LineaSgxProver.Zktrie
