import LineaSgxProver.Zktrie.LinkedLeaves

namespace LineaSgxProver.Zktrie

open Library
open ZkTrie (Decodes)

namespace KeyOp

variable [TrieHash] [Profile] {D : Type} [Database D] [NodeStore D] {parse : Bytes → Option LeafOpening}

/-- Calls that the trie can take from its start: with room for their insertions, on keys the hash
tells apart, over a database that answers truly. -/
structure Posed (parse : Bytes → Option LeafOpening) (E : Set Bytes) (db : D) (ops : List KeyOp) : Prop where
  accepted : ∀ op ∈ ops, op.Accepted
  distinct : Separates {k | ∃ op ∈ ops, op.key = k}
  room : insertions (fun _ => none) ops + 2 ≤ 2 ^ zkTrieDepth
  hashed : hashed parse ops db ⊆ E
  answers : ∀ pre op post, ops = pre ++ op :: post →
    Answers E (runAll parse pre (ZkTrie.empty db).2).2 op.key

theorem Posed.reached {E : Set Bytes} {db : D} {ops rest : List KeyOp} (hE : CollisionFree E)
    (hparse : Decodes parse id) (hdb : Proper (NodeStore.nodes db))
    (h : Posed parse E db (ops ++ rest)) :
    ∃ s₀ s cells free, ZkTrie.empty db = (.ok (), s₀) ∧ (runAll parse ops).Returns s₀ () s ∧
      Stored {k | ∃ op ∈ ops ++ rest, op.key = k} E s (live ops) cells free ∧
      free.toNat + insertions (live ops) rest ≤ 2 ^ zkTrieDepth ∧
      encodings (known (runAll parse rest s).2.db) ⊆ E ∧
      ∀ pre op post, rest = pre ++ op :: post → Answers E (runAll parse pre s).2 op.key := by
  have hgrow : Extends (ZkTrie.empty db).2.db (runAll parse (ops ++ rest) (ZkTrie.empty db).2).2.db :=
    runAll_moves _ _
  obtain ⟨s₀, hempty, hstored⟩ := empty_reaches hE db hdb (hgrow.encodings_subset.trans h.hashed)
  have hstart : (ZkTrie.empty db).2 = s₀ := by rw [hempty]
  have hsub : encodings (known (runAll parse (ops ++ rest) s₀).2.db) ⊆ E := by
    rw [← hstart]
    exact h.hashed
  have hanswers := h.answers
  have hroom := h.room
  have hfree : (2 : UInt64).toNat = 2 := rfl
  rw [hstart] at hanswers
  obtain ⟨_, _, _, _, _, _, _, hsplit⟩ := runAll_reaches hE hparse h.distinct _ h.accepted
    (fun op hop => ⟨op, hop, rfl⟩) hstored hanswers (by omega) hsub
  obtain ⟨s, cells, free, hret, hs, _, hcount⟩ := hsplit ops rest rfl
  have hafter (tail : List KeyOp) : (runAll parse (ops ++ tail) s₀).2 = (runAll parse tail s).2 := by
    rw [runAll_append, Action.bind_apply, hret]
  refine ⟨s₀, s, cells, free, hempty, hret, hs, ?_, ?_, ?_⟩
  · rw [insertions_append] at hroom
    rw [hcount, live]
    omega
  · rw [← hafter]
    exact hsub
  · intro pre op post heq
    rw [← hafter]
    exact hanswers (ops ++ pre) op post (by rw [heq, List.append_assoc])

section Locate

variable {keys E : Set Bytes} {s : Session D} {live : Bytes → Option Bytes} {cells : List Cell}
  {free : UInt64} {k v : Bytes} {hkey hval : SH256}

omit [Profile] in
theorem locate_absent (hkeys : Separates keys) (h : Stored keys E s live cells free) (hk : k ∈ keys)
    (hsum : TrieHash.sum k = .ok hkey) (hhead : LeafOpening.head.hkey < hkey)
    (htail : hkey < LeafOpening.tail.hkey) (habsent : live k = none) :
    ∃ as l x bs, cells = as ++ l :: x :: bs ∧ l.2.hkey < hkey ∧ hkey < x.2.hkey := by
  rcases h.ordered.locate hhead htail with hgap | ⟨as, l, c, x, bs, rfl, rfl⟩
  · exact hgap
  · exact absurd habsent (h.tracks.present hkeys hk (by simp) hsum hhead htail)

omit [Profile] in
theorem locate_present (h : Stored keys E s live cells free) (hsum : TrieHash.sum k = .ok hkey)
    (hhead : LeafOpening.head.hkey < hkey) (htail : hkey < LeafOpening.tail.hkey)
    (hv : TrieHash.sum v = .ok hval) (hlive : live k = some v) :
    ∃ as l c x bs, cells = as ++ l :: c :: x :: bs ∧ c.2 = ⟨hkey, hval⟩ := by
  rcases h.ordered.locate hhead htail with ⟨as, l, x, bs, rfl, hl, hx⟩ | ⟨as, l, c, x, bs, rfl, hc⟩
  · rw [h.tracks.absent h.ordered hsum hl hx] at hlive
    cases hlive
  · obtain ⟨d, hd, hdk, hdv⟩ := h.tracks.cell k v hlive
    have hkey : d.2.hkey = c.2.hkey := hc ▸ Except.ok.inj (hdk.symm.trans hsum)
    obtain rfl := h.ordered.eq_of_hkey hd (by simp) hkey
    have hval' : d.2.hval = hval := Except.ok.inj (hdv.symm.trans hv)
    refine ⟨as, l, d, x, bs, rfl, ?_⟩
    rw [← hc, ← hval']

end Locate

section Pairs

variable {E : Set Bytes} {as bs : List Cell} {l c x : Cell} {free : UInt64} {s : Session D}
  {k v v₁ v₂ : Bytes} {hkey hval hval₁ hval₂ : SH256}

omit [NodeStore D] in
theorem runAll_one (op : KeyOp) {s s' : Session D} (h : (op.run parse).Returns s () s') :
    (runAll parse [op]).Returns s () s' :=
  h.bind (Action.Returns.pure () s')

theorem runAll_one_reaches (op : KeyOp) {P : Session D → Prop}
    (h : Reaches E s (op.run parse) fun _ s' => P s') :
    Reaches E s (runAll parse [op]) fun _ s' => P s' :=
  h.bind (fun _ => Moves.pure ()) fun _ _ hs' => Reaches.pure () hs'

theorem put_remove_reaches (hE : CollisionFree E) (hparse : Decodes parse id)
    (h : Represents E s free (treeMap (as ++ l :: x :: bs))) (ho : Ordered (as ++ l :: x :: bs) free)
    (hl : l.2.hkey < hkey) (hx : hkey < x.2.hkey) (hfree : free.toNat < 2 ^ zkTrieDepth)
    (hsum : TrieHash.sum k = .ok hkey) (hv : TrieHash.sum v = .ok hval)
    (hanswers : ∀ pre op post, [put k v, remove k] = pre ++ op :: post →
      Answers E (runAll parse pre s).2 op.key) :
    Reaches E s (runAll parse [put k v, remove k]) fun _ s' =>
      Represents E s' (free + 1) (treeMap (as ++ l :: x :: bs)) := by
  have hput := put_between hE hparse h ho hl hx hfree hsum hv (hanswers [] (put k v) [remove k] rfl)
  refine hput.self.bind (fun _ => runAll_moves [remove k]) ?_
  rintro _ s₁ ⟨hret, h₁⟩
  have hanswer := hanswers [put k v] (remove k) [] rfl
  rw [runAll_one (put k v) hret] at hanswer
  refine (remove_at hE hparse h₁ (ho.insert (e := ⟨hkey, hval⟩) hl hx hfree) hsum hanswer).bind
    (fun _ => Moves.pure ()) ?_
  intro _ s₂ h₂
  exact Reaches.pure () h₂

theorem put_put_reaches (hE : CollisionFree E) (hparse : Decodes parse id)
    (h : Represents E s free (treeMap (as ++ l :: x :: bs))) (ho : Ordered (as ++ l :: x :: bs) free)
    (hl : l.2.hkey < hkey) (hx : hkey < x.2.hkey) (hfree : free.toNat < 2 ^ zkTrieDepth)
    (hsum : TrieHash.sum k = .ok hkey) (hv₁ : TrieHash.sum v₁ = .ok hval₁)
    (hv₂ : TrieHash.sum v₂ = .ok hval₂)
    (hanswers : ∀ pre op post, [put k v₁, put k v₂] = pre ++ op :: post →
      Answers E (runAll parse pre s).2 op.key) :
    Reaches E s (runAll parse [put k v₁, put k v₂]) fun _ s' =>
      Represents E s' (free + 1) (treeMap (as ++ l :: (free, ⟨hkey, hval₂⟩) :: x :: bs)) := by
  have hput := put_between hE hparse h ho hl hx hfree hsum hv₁ (hanswers [] (put k v₁) [put k v₂] rfl)
  refine hput.self.bind (fun _ => runAll_moves [put k v₂]) ?_
  rintro _ s₁ ⟨hret, h₁⟩
  have hanswer := hanswers [put k v₁] (put k v₂) [] rfl
  rw [runAll_one (put k v₁) hret] at hanswer
  refine (put_at hE hparse h₁ (ho.insert (e := ⟨hkey, hval₁⟩) hl hx hfree) hsum hv₂ hanswer).bind
    (fun _ => Moves.pure ()) ?_
  intro _ s₂ h₂
  exact Reaches.pure () h₂

end Pairs

/-- Of the root only the counter remembers an insertion that is undone, a value that is overwritten
leaves nothing behind, and writing the value that is there changes nothing. -/
theorem write_algebra {E : Set Bytes} (hE : CollisionFree E) (hparse : Decodes parse id) {db : D}
    (hdb : Proper (NodeStore.nodes db)) (ops : List KeyOp) (k : Bytes) :
    (∀ v₁, live ops k = none → Posed parse E db (ops ++ [put k v₁, remove k]) →
      ∃ s₀ s s', ZkTrie.empty db = (.ok (), s₀) ∧ (runAll parse ops).Returns s₀ () s ∧
        (runAll parse [put k v₁, remove k]).Returns s () s' ∧
        ∃ n n' root, ZkTrie.nextFreeNode s = .ok n ∧ ZkTrie.nextFreeNode s' = .ok n' ∧
          n'.toNat = n.toNat + 1 ∧ ZkTrie.subRootHash s = .ok root ∧ ZkTrie.subRootHash s' = .ok root) ∧
      (∀ v₁ v₂, live ops k = none → Posed parse E db (ops ++ [put k v₁, put k v₂]) →
        Posed parse E db (ops ++ [put k v₂]) →
        ∃ s₀ s s₁ s₂, ZkTrie.empty db = (.ok (), s₀) ∧ (runAll parse ops).Returns s₀ () s ∧
          (runAll parse [put k v₁, put k v₂]).Returns s () s₁ ∧
          (runAll parse [put k v₂]).Returns s () s₂ ∧ ZkTrie.topRootHash s₁ = ZkTrie.topRootHash s₂) ∧
      ∀ v, live ops k = some v → Posed parse E db (ops ++ [put k v]) →
        ∃ s₀ s s', ZkTrie.empty db = (.ok (), s₀) ∧ (runAll parse ops).Returns s₀ () s ∧
          (runAll parse [put k v]).Returns s () s' ∧ ZkTrie.topRootHash s' = ZkTrie.topRootHash s := by
  have hone (v : Bytes) (rest : List KeyOp) (habsent : live ops k = none) :
      1 ≤ insertions (live ops) (put k v :: rest) := by
    rw [insertions, inserts, if_pos habsent]
    omega
  refine ⟨?_, ?_, ?_⟩
  · intro v₁ habsent hposed
    obtain ⟨hkey, hsum, hhead, htail⟩ := (hposed.accepted (put k v₁) (by simp)).key
    obtain ⟨hval, hv⟩ := (hposed.accepted (put k v₁) (by simp)).value k v₁ rfl
    obtain ⟨s₀, s, cells, free, hempty, hret, hs, hroom, hsub, hanswers⟩ := hposed.reached hE hparse hdb
    have hfree : free.toNat < 2 ^ zkTrieDepth := by
      have := hone v₁ [remove k] habsent
      omega
    obtain ⟨as, l, x, bs, rfl, hl, hx⟩ := locate_absent hposed.distinct hs
      ⟨put k v₁, by simp, rfl⟩ hsum hhead htail habsent
    obtain ⟨_, s', hret', hs'⟩ := put_remove_reaches hE hparse hs.tree hs.ordered hl hx hfree hsum hv
      hanswers hsub
    have hnext := next_toNat hfree
    exact ⟨s₀, s, s', hempty, hret, hret', free, free + 1, _, hs.tree.nextFreeNode hE,
      hs'.nextFreeNode hE, hnext, hs.tree.subRootHash hE, hs'.subRootHash hE⟩
  · intro v₁ v₂ habsent hposed hposed'
    obtain ⟨hkey, hsum, hhead, htail⟩ := (hposed.accepted (put k v₁) (by simp)).key
    obtain ⟨hval₁, hv₁⟩ := (hposed.accepted (put k v₁) (by simp)).value k v₁ rfl
    obtain ⟨hval₂, hv₂⟩ := (hposed.accepted (put k v₂) (by simp)).value k v₂ rfl
    obtain ⟨s₀, s, cells, free, hempty, hret, hs, hroom, hsub, hanswers⟩ := hposed.reached hE hparse hdb
    obtain ⟨s₀', s', _, _, hempty', hret', _, _, hsub', hanswers'⟩ := hposed'.reached hE hparse hdb
    obtain rfl : s₀ = s₀' := (Prod.mk.inj (hempty.symm.trans hempty')).2
    obtain rfl : s = s' := (Prod.mk.inj (hret.symm.trans hret')).2
    have hfree : free.toNat < 2 ^ zkTrieDepth := by
      have := hone v₁ [put k v₂] habsent
      omega
    obtain ⟨as, l, x, bs, rfl, hl, hx⟩ := locate_absent hposed.distinct hs
      ⟨put k v₁, by simp, rfl⟩ hsum hhead htail habsent
    obtain ⟨_, s₁, hret₁, h₁⟩ := put_put_reaches hE hparse hs.tree hs.ordered hl hx hfree hsum hv₁ hv₂
      hanswers hsub
    have hput := put_between hE hparse hs.tree hs.ordered hl hx hfree hsum hv₂
      (hanswers' [] (put k v₂) [] rfl)
    obtain ⟨_, s₂, hret₂, h₂⟩ := runAll_one_reaches (put k v₂) hput hsub'
    exact ⟨s₀, s, s₁, s₂, hempty, hret, hret₁, hret₂, h₁.rootHash.trans h₂.rootHash.symm⟩
  · intro v hlive hposed
    obtain ⟨hkey, hsum, hhead, htail⟩ := (hposed.accepted (put k v) (by simp)).key
    obtain ⟨hval, hv⟩ := (hposed.accepted (put k v) (by simp)).value k v rfl
    obtain ⟨s₀, s, cells, free, hempty, hret, hs, _, hsub, hanswers⟩ := hposed.reached hE hparse hdb
    obtain ⟨as, l, c, x, bs, rfl, hc⟩ := locate_present hs hsum hhead htail hv hlive
    have hput := put_at hE hparse hs.tree hs.ordered (hc ▸ hsum) hv (hanswers [] (put k v) [] rfl)
    obtain ⟨_, s', hret', hs'⟩ := runAll_one_reaches (put k v) hput hsub
    have hsame : ((c.1, ⟨c.2.hkey, hval⟩) : Cell) = c := by
      rw [hc, ← hc]
    rw [hsame] at hs'
    exact ⟨s₀, s, s', hempty, hret, hret', hs'.rootHash.trans hs.tree.rootHash.symm⟩

end KeyOp

end LineaSgxProver.Zktrie
