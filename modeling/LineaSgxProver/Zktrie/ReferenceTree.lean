import LineaSgxProver.Zktrie.AdmittedOps
import LineaSgxProver.Zktrie.OlderNodes

namespace LineaSgxProver.Zktrie

open Library

/-- The trie as a map: the next free index and the leaves. -/
structure ReferenceTree where
  free : UInt64
  leaves : IndexMap

section Slots

theorem bits_mod (d n : ℕ) : bits d (n % 2 ^ d) = bits d n := by
  induction d generalizing n with
  | zero => rfl
  | succ d ih =>
    have hdiv : n % 2 ^ (d + 1) / 2 = n / 2 % 2 ^ d := by
      rw [pow_succ', Nat.mod_mul_right_div_self]
    have hmod : n % 2 ^ (d + 1) % 2 = n % 2 := Nat.mod_mod_of_dvd n (dvd_pow_self 2 (Nat.succ_ne_zero d))
    rw [bits, bits, hdiv, hmod, ih]

variable [Profile]

/-- The leaf that the path of an index comes to. -/
def slot (i : UInt64) : Option UInt64 :=
  if i.toNat < pathBound then some (UInt64.ofNat (i.toNat % 2 ^ zkTrieDepth)) else none

theorem slot_eq_none {i : UInt64} (h : slot i = none) : getLeafPath i = none := by
  unfold slot at h
  split_ifs at h with hbound
  rw [← getLeafPath_isSome] at hbound
  exact Option.not_isSome_iff_eq_none.mp hbound

theorem slot_eq_some {i j : UInt64} (h : slot i = some j) :
    getLeafPath i = some (leafPath (indexPath j)) ∧ j.toNat < 2 ^ zkTrieDepth := by
  unfold slot at h
  split_ifs at h with hbound
  rw [← getLeafPath_isSome] at hbound
  obtain ⟨path, hpath⟩ := Option.isSome_iff_exists.mp hbound
  have hlt : i.toNat % 2 ^ zkTrieDepth < 2 ^ zkTrieDepth := Nat.mod_lt _ (Nat.two_pow_pos _)
  have hword : 2 ^ zkTrieDepth < 2 ^ 64 := by decide
  have hj : j.toNat = i.toNat % 2 ^ zkTrieDepth := by
    rw [← Option.some.inj h, UInt64.toNat_ofNat', Nat.mod_eq_of_lt (hlt.trans hword)]
  refine ⟨?_, hj ▸ hlt⟩
  rw [hpath, getLeafPath_some hpath, indexPath, hj, bits_mod]

end Slots

section Reference

variable [TrieHash] [Profile] (parse : Bytes → Option LeafOpening)

namespace ReferenceTree

def root (t : ReferenceTree) : SH256 := worldRoot t.free (leavesOf t.leaves)

/-- The tree that `ZkTrie::empty` makes. -/
def fresh : ReferenceTree :=
  ⟨2, Function.update (Function.update (fun _ => none) 0 (some LeafOpening.head.leafValue)) 1
    (some LeafOpening.tail.leafValue)⟩

def opening (m : IndexMap) (i : UInt64) : Option LeafOpening := do
  let v ← m i
  parse v.1

def rewrite (m : IndexMap) (i : UInt64) (change : LeafOpening → LeafOpening) : Option IndexMap := do
  let l ← opening parse m i
  some (Function.update m i (some (change l).leafValue))

def insertLeaf (t : ReferenceTree) (hkey : SH256) (range : KeyRange) (value : Bytes) : Option ReferenceTree := do
  let left ← slot range.leftIndex
  let right ← slot range.rightIndex
  let m ← rewrite parse t.leaves left (·.newNextLeaf t.free)
  let new ← slot t.free
  let hval ← (TrieHash.sum value).toOption
  let leaf := LeafOpening.new range.leftIndex range.rightIndex hkey hval
  let m ← rewrite parse (Function.update m new (some leaf.leafValue)) right (·.newPrevLeaf t.free)
  let free ← addU64 t.free 1
  some ⟨free, m⟩

def updateLeaf (t : ReferenceTree) (current : FlattenedLeaf) (value : Bytes) : Option ReferenceTree := do
  let i ← slot current.leafIndex
  let hval ← (TrieHash.sum value).toOption
  let m ← rewrite parse t.leaves i (·.newHval hval)
  some ⟨t.free, m⟩

def deleteLeaf (t : ReferenceTree) (range : KeyRange) (current : FlattenedLeaf) : Option ReferenceTree := do
  let left ← slot range.leftIndex
  let right ← slot range.rightIndex
  let m ← rewrite parse t.leaves left (·.newNextLeaf range.rightIndex)
  let old ← slot current.leafIndex
  let _ ← opening parse m old
  let m ← rewrite parse (Function.update m old none) right (·.newPrevLeaf range.leftIndex)
  some ⟨t.free, m⟩

variable (index : SH256 → SH256 → Option KeyRange)

def put (t : ReferenceTree) (key value : Bytes) : Option ReferenceTree := do
  let hkey ← (TrieHash.sum key).toOption
  let range ← index t.root hkey
  match range.center with
  | none => t.insertLeaf parse hkey range value
  | some current => t.updateLeaf parse current value

def remove (t : ReferenceTree) (key : Bytes) : Option ReferenceTree := do
  let hkey ← (TrieHash.sum key).toOption
  let range ← index t.root hkey
  match range.center with
  | none => some t
  | some current => t.deleteLeaf parse range current

def read (t : ReferenceTree) (key : Bytes) : Option (Option Bytes) := do
  let hkey ← (TrieHash.sum key).toOption
  let range ← index t.root hkey
  some (range.center.map FlattenedLeaf.leafValue)

end ReferenceTree

end Reference

section Growing

variable [TrieHash] {D : Type} [Database D] [NodeStore D] {α β : Type}

/-- The call only adds to the nodes on record. -/
class Growing (x : Call (Session D) α) : Prop where
  moves : Moves Extends x

instance growing_bind {x : Call (Session D) α} {f : α → Call (Session D) β} [hx : Growing x]
    [hf : ∀ a, Growing (f a)] : Growing (x >>= f) := ⟨hx.moves.bind fun a => (hf a).moves⟩

instance growing_pure (a : α) : Growing (Pure.pure a : Call (Session D) α) := ⟨Moves.pure a⟩

instance growing_lift (r : Except (Fault Error) α) : Growing (Action.lift r : Call (Session D) α) := ⟨Moves.lift r⟩

instance growing_read (g : Session D → Except (Fault Error) α) : Growing (Action.read g) := ⟨Moves.read g⟩

instance growing_put (path value : Bytes) : Growing (SpareMerkleTrie.put path value : Call (Session D) Unit) :=
  ⟨SpareMerkleTrie.put_moves path value⟩

instance growing_remove (path : Bytes) : Growing (SpareMerkleTrie.remove path : Call (Session D) Unit) :=
  ⟨SpareMerkleTrie.remove_moves path⟩

instance growing_rewriteLeaf (parse : Bytes → Option LeafOpening) (path : Bytes) (change : LeafOpening → LeafOpening) :
    Growing (ZkTrie.rewriteLeaf parse path change : Call (Session D) Unit) := ⟨ZkTrie.rewriteLeaf_moves path change⟩

instance growing_updateIndex (k : SH256) (v : FlattenedLeaf) :
    Growing (ZkTrie.updateIndex k v : Call (Session D) Unit) := ⟨ZkTrie.updateIndex_moves k v⟩

instance growing_removeIndex (k : SH256) : Growing (ZkTrie.removeIndex k : Call (Session D) Unit) :=
  ⟨ZkTrie.removeIndex_moves k⟩

instance growing_increment [Profile] :
    Growing (ZkTrie.incrementNextFreeLeafNodeIndex : Call (Session D) UInt64) :=
  ⟨ZkTrie.incrementNextFreeLeafNodeIndex_moves⟩

end Growing

section Yields

variable [TrieHash] {D : Type} [Database D] [NodeStore D] {E : Set Bytes} {s : Session D}

/-- The call does as the reference: it returns where that is defined, and where it is not it stops, but
never at a missing node. -/
def Yields {α β : Type} (E : Set Bytes) (s : Session D) (x : Call (Session D) α) (r : Option β)
    (Q : β → α → Session D → Prop) : Prop :=
  encodings (known (x s).2.db) ⊆ E →
    match r with
    | some b => ∃ a t, x.Returns s a t ∧ Q b a t
    | none => ∃ e t, x.Stops s e t ∧ ¬ Missing e

variable {α β γ δ : Type} {x : Call (Session D) α} {f : α → Call (Session D) γ} {r : Option β} {g : β → Option δ}
  {P : β → α → Session D → Prop} {Q : δ → γ → Session D → Prop}

theorem Yields.after {a : α} {t : Session D} {r : Option δ} (h : x.Returns s a t) (hf : Yields E t (f a) r Q) :
    Yields E s (x >>= f) r Q := by
  intro hsub
  rw [h.bind_eq] at hsub
  have hthen := hf hsub
  cases r with
  | some b =>
    obtain ⟨c, u, hret, hQ⟩ := hthen
    exact ⟨c, u, h.bind hret, hQ⟩
  | none =>
    obtain ⟨e, u, hstop, hmissing⟩ := hthen
    exact ⟨e, u, h.stops hstop, hmissing⟩

theorem Yields.bind [hgrow : ∀ a, Growing (f a)] (h : Yields E s x r P)
    (hf : ∀ b a t, P b a t → Yields E t (f a) (g b) Q) : Yields E s (x >>= f) (r >>= g) Q := by
  intro hsub
  have hbefore := (Extends.encodings_subset (Moves.bind_after x (fun a => (hgrow a).moves) s)).trans hsub
  have hfirst := h hbefore
  cases r with
  | some b =>
    obtain ⟨a, t, hret, ha⟩ := hfirst
    exact Yields.after hret (hf b a t ha) hsub
  | none =>
    obtain ⟨e, t, hstop, hmissing⟩ := hfirst
    exact ⟨e, t, hstop.head, hmissing⟩

theorem Yields.follow {f : α → Call (Session D) γ} {Q : β → γ → Session D → Prop} [∀ a, Growing (f a)]
    (h : Yields E s x r P) (hf : ∀ b a t, P b a t → Yields E t (f a) (some b) Q) : Yields E s (x >>= f) r Q := by
  have hbind := h.bind hf
  cases r <;> exact hbind

theorem Yields.after_reaches {P : α → Session D → Prop} {r : Option δ} [∀ a, Growing (f a)] (h : Reaches E s x P)
    (hf : ∀ a t, P a t → Yields E t (f a) r Q) : Yields E s (x >>= f) r Q :=
  Yields.bind (r := some ()) (P := fun _ a t => P a t) (g := fun _ => r) h fun _ => hf

theorem Yields.last {b : β → δ} {Q : δ → α → Session D → Prop} (h : Yields E s x r P)
    (hQ : ∀ c a t, P c a t → Q (b c) a t) : Yields E s x (r >>= fun c => some (b c)) Q := by
  intro hsub
  have hx := h hsub
  cases r with
  | some c =>
    obtain ⟨a, t, hret, ha⟩ := hx
    exact ⟨a, t, hret, hQ c a t ha⟩
  | none => exact hx

theorem Yields.pure {b : δ} (c : γ) (h : Q b c s) : Yields E s (Pure.pure c) (some b) Q :=
  fun _ => ⟨c, s, rfl, h⟩

theorem Yields.stops {e : Fault Error} {t : Session D} (h : x.Stops s e t) (hmissing : ¬ Missing e) :
    Yields E s x (none : Option β) P :=
  fun _ => ⟨e, t, h, hmissing⟩

theorem Yields.read {h : Session D → Except (Fault Error) β} {o : Option β} (hread : h s = orPanic o) :
    Yields E s (Action.read h) o fun b a t => a = b ∧ t = s := by
  intro _
  cases o with
  | some b => exact ⟨b, s, Action.Returns.read hread, rfl, rfl⟩
  | none => exact ⟨.panic, s, Action.Stops.read hread, fun h => nomatch h⟩

theorem Yields.slot [Profile] (i : UInt64) :
    Yields E s (Action.lift (orPanic (getLeafPath i))) (slot i) fun j path t =>
      path = leafPath (indexPath j) ∧ j.toNat < 2 ^ zkTrieDepth ∧ t = s := by
  intro _
  cases hslot : Zktrie.slot i with
  | some j =>
    obtain ⟨hpath, hj⟩ := slot_eq_some hslot
    rw [hpath]
    exact ⟨_, s, rfl, rfl, hj, rfl⟩
  | none =>
    rw [slot_eq_none hslot]
    exact ⟨.panic, s, rfl, fun h => nomatch h⟩

theorem Yields.hash (data : Bytes) :
    Yields E s (Action.lift (trieHash data)) (TrieHash.sum data).toOption fun h h' t => h' = h ∧ t = s := by
  intro _
  unfold trieHash
  cases TrieHash.sum data with
  | ok h => exact ⟨h, s, rfl, rfl, rfl⟩
  | error f =>
    cases f with
    | error msg => exact ⟨.error (.hashFail msg), s, rfl, fun h => nomatch h⟩
    | panic => exact ⟨.panic, s, rfl, fun h => nomatch h⟩

theorem Yields.hash_bind {data : Bytes} {f : SH256 → Call (Session D) γ} {g : SH256 → Option δ}
    (hf : ∀ h, Yields E s (f h) (g h) Q) :
    Yields E s (Action.lift (trieHash data) >>= f) ((TrieHash.sum data).toOption >>= g) Q := by
  unfold trieHash
  cases TrieHash.sum data with
  | ok h => exact Yields.after (Action.Returns.lift h s) (hf h)
  | error e =>
    cases e with
    | error msg => exact Yields.stops (Action.Stops.head rfl) fun h => nomatch h
    | panic => exact Yields.stops (Action.Stops.head rfl) fun h => nomatch h

theorem Yields.read_bind {h : Session D → Except (Fault Error) β} {f : β → Call (Session D) γ} {o : Option β}
    (hread : h s = orPanic o) (hf : ∀ b, Yields E s (f b) (g b) Q) :
    Yields E s (Action.read h >>= f) (o >>= g) Q := by
  cases o with
  | some b => exact Yields.after (Action.Returns.read hread) (hf b)
  | none => exact Yields.stops (Action.Stops.read hread).head fun h => nomatch h

end Yields

namespace ReferenceTree

variable [TrieHash] {D : Type} [Database D] [NodeStore D] {E : Set Bytes} {s : Session D} {n : UInt64} {m : IndexMap}
  {parse : Bytes → Option LeafOpening}

theorem parseNode_yields (hE : CollisionFree E) (h : Represents E s n m) {i : UInt64}
    (hi : i.toNat < 2 ^ zkTrieDepth) :
    Yields E s (Action.read (ZkTrie.parseNode parse (leafPath (indexPath i)))) (opening parse m i)
      fun l l' t => l' = l ∧ t = s := by
  have hget := h.getNode hE hi hi
  unfold opening
  cases hm : m i with
  | none =>
    rw [hm] at hget
    have hread : ZkTrie.parseNode parse (leafPath (indexPath i)) s =
        .error (.error (.zkTrieKeyNotFound (leafPath (indexPath i)))) := by
      unfold ZkTrie.parseNode
      rw [hget]
      rfl
    exact Yields.stops (Action.Stops.read hread) fun h => nomatch h
  | some v =>
    rw [hm] at hget
    have hread : ZkTrie.parseNode parse (leafPath (indexPath i)) s = orPanic (parse v.1) := by
      unfold ZkTrie.parseNode
      rw [hget]
      rfl
    exact Yields.read hread

theorem rewriteLeaf_yields (hE : CollisionFree E) (h : Represents E s n m) {i : UInt64}
    (hi : i.toNat < 2 ^ zkTrieDepth) (change : LeafOpening → LeafOpening) :
    Yields E s (ZkTrie.rewriteLeaf parse (leafPath (indexPath i)) change) (rewrite parse m i change)
      fun m' _ t => Represents E t n m' := by
  unfold ZkTrie.rewriteLeaf rewrite
  apply (parseNode_yields hE h hi).bind
  rintro l l' t ⟨hl, ht⟩ hsub
  subst hl ht
  obtain ⟨_, u, hret, h', _⟩ := h.put hE hi hi (change l').leafValue hsub
  exact ⟨(), u, hret, h'⟩

theorem put_reaches (hE : CollisionFree E) (h : Represents E s n m) {i : UInt64} (hi : i.toNat < 2 ^ zkTrieDepth)
    (l : LeafOpening) :
    Reaches E s (SpareMerkleTrie.put (leafPath (indexPath i)) l.toBytes) fun _ t =>
      Represents E t n (Function.update m i (some l.leafValue)) :=
  (h.put hE hi hi l.leafValue).mono fun _ _ h' => h'.1

variable [Profile]

theorem incrementNextFreeLeafNodeIndex_yields (hE : CollisionFree E) (h : Represents E s n m) :
    Yields E s ZkTrie.incrementNextFreeLeafNodeIndex (addU64 n 1) fun free _ t => Represents E t free m := by
  unfold ZkTrie.incrementNextFreeLeafNodeIndex
  apply Yields.after (Action.Returns.read (h.nextFreeNode hE))
  cases addU64 n 1 with
  | none => exact Yields.stops (Action.Stops.head rfl) fun h => nomatch h
  | some free =>
    apply Yields.after (Action.Returns.lift free s)
    have hset := (h.setNextFreeNode hE free).bind (f := fun _ => pure free)
      (Q := fun free' t => free' = free ∧ Represents E t free m) (fun _ => Moves.pure _) fun _ t ht =>
        Reaches.pure _ ⟨rfl, ht⟩
    intro hsub
    obtain ⟨free', t, hret, _, ht⟩ := hset hsub
    exact ⟨free', t, hret, ht⟩

theorem insertLeaf_yields (hE : CollisionFree E) {t : ReferenceTree} (h : Represents E s t.free t.leaves)
    (hkey : SH256) (range : KeyRange) (value : Bytes) :
    Yields E s (ZkTrie.insertLeaf parse hkey range value) (t.insertLeaf parse hkey range value)
      fun t' _ s' => Represents E s' t'.free t'.leaves := by
  unfold ZkTrie.insertLeaf ReferenceTree.insertLeaf
  apply (Yields.slot range.leftIndex).bind
  rintro left _ _ ⟨rfl, hleft, rfl⟩
  apply (Yields.slot range.rightIndex).bind
  rintro right _ _ ⟨rfl, hright, rfl⟩
  apply Yields.after (Action.Returns.read (h.nextFreeNode hE))
  apply (rewriteLeaf_yields hE h hleft (·.newNextLeaf t.free)).bind
  rintro m₁ _ s₁ h₁
  apply (Yields.slot t.free).bind
  rintro new _ _ ⟨rfl, hnew, rfl⟩
  apply (Yields.hash value).bind
  rintro _ hval s₁ ⟨rfl, rfl⟩
  obtain ⟨s₂, hindex, h₂⟩ := ZkTrie.updateIndex_returns h₁ hkey ⟨t.free, value⟩
  apply Yields.after hindex
  apply Yields.after_reaches (put_reaches hE h₂ hnew (LeafOpening.new range.leftIndex range.rightIndex hkey hval))
  intro _ s₃ h₃
  apply (rewriteLeaf_yields hE h₃ hright (·.newPrevLeaf t.free)).bind
  rintro m₄ _ s₄ h₄
  apply (incrementNextFreeLeafNodeIndex_yields hE h₄).bind
  rintro free _ s₅ h₅
  exact Yields.pure () h₅

theorem updateLeaf_yields (hE : CollisionFree E) {t : ReferenceTree} (h : Represents E s t.free t.leaves)
    (hkey : SH256) (current : FlattenedLeaf) (value : Bytes) :
    Yields E s (ZkTrie.updateLeaf parse hkey current value) (t.updateLeaf parse current value)
      fun t' _ s' => Represents E s' t'.free t'.leaves := by
  unfold ZkTrie.updateLeaf ReferenceTree.updateLeaf
  apply (Yields.slot current.leafIndex).bind
  rintro i _ _ ⟨rfl, hi, rfl⟩
  apply (Yields.hash value).bind
  rintro _ hval s ⟨rfl, rfl⟩
  obtain ⟨s₁, hindex, h₁⟩ := ZkTrie.updateIndex_returns h hkey ⟨current.leafIndex, value⟩
  apply Yields.after hindex
  exact (rewriteLeaf_yields hE h₁ hi (·.newHval hval)).last fun _ _ _ h => h

/-- The steps of a removal once its index entry is known. -/
theorem deleteLeaf_yields (hE : CollisionFree E) {t : ReferenceTree} (h : Represents E s t.free t.leaves)
    (hkey : SH256) (range : KeyRange) (current : FlattenedLeaf) :
    Yields E s (do
      let leftLeafPath ← Action.lift (orPanic range.leftPath)
      let rightLeafPath ← Action.lift (orPanic range.rightPath)
      ZkTrie.rewriteLeaf parse leftLeafPath (·.newNextLeaf range.rightIndex)
      let leafPathToDelete ← Action.lift (orPanic (getLeafPath current.leafIndex))
      let _ ← Action.read (ZkTrie.parseNode parse leafPathToDelete)
      ZkTrie.removeIndex hkey
      SpareMerkleTrie.remove leafPathToDelete
      ZkTrie.rewriteLeaf parse rightLeafPath (·.newPrevLeaf range.leftIndex)) (t.deleteLeaf parse range current)
      fun t' _ s' => Represents E s' t'.free t'.leaves := by
  unfold ReferenceTree.deleteLeaf
  apply (Yields.slot range.leftIndex).bind
  rintro left _ _ ⟨rfl, hleft, rfl⟩
  apply (Yields.slot range.rightIndex).bind
  rintro right _ _ ⟨rfl, hright, rfl⟩
  apply (rewriteLeaf_yields hE h hleft (·.newNextLeaf range.rightIndex)).bind
  rintro m₁ _ s₁ h₁
  apply (Yields.slot current.leafIndex).bind
  rintro old _ s₁ ⟨rfl, hold, rfl⟩
  apply (parseNode_yields hE h₁ hold).bind
  rintro _ _ s₁ ⟨rfl, rfl⟩
  obtain ⟨s₂, hindex, h₂⟩ := ZkTrie.removeIndex_returns h₁ hkey
  apply Yields.after hindex
  apply Yields.after_reaches (h₂.remove hE hold hold)
  intro _ s₃ h₃
  exact (rewriteLeaf_yields hE h₃ hright (·.newPrevLeaf range.leftIndex)).last fun _ _ _ h => h

section Calls

variable {index : SH256 → SH256 → Option KeyRange}
  (hindex : ∀ root hkey, Database.getNearestKeys s.db root hkey = index root hkey)

include hindex

omit [Profile] in
theorem nearestKeys_eq {t : ReferenceTree} (h : Represents E s t.free t.leaves) (hkey : SH256) :
    ZkTrie.nearestKeys hkey s = orPanic (index t.root hkey) := by
  rw [ZkTrie.nearestKeys, hindex, ZkTrie.topRootHash, h.rootHash]
  rfl

theorem put_yields (hE : CollisionFree E) {t : ReferenceTree} (h : Represents E s t.free t.leaves)
    (key value : Bytes) :
    Yields E s (ZkTrie.put parse key value) (t.put parse index key value) fun t' _ s' =>
      Represents E s' t'.free t'.leaves := by
  unfold ZkTrie.put ReferenceTree.put
  apply Yields.hash_bind
  intro hkey
  apply Yields.read_bind (nearestKeys_eq hindex h hkey)
  intro range
  apply Yields.after (Action.Returns.read (h.subRootHash hE))
  have hend {t' : ReferenceTree} {s' : Session D} (h' : Represents E s' t'.free t'.leaves) :
      Yields E s' (do
        let _ ← Action.read ZkTrie.subRootHash
        pure ()) (some t') fun t' _ s' => Represents E s' t'.free t'.leaves :=
    Yields.after (Action.Returns.read (h'.subRootHash hE)) (Yields.pure () h')
  cases range.center with
  | none => exact (insertLeaf_yields hE h hkey range value).follow fun _ _ _ h' => hend h'
  | some current => exact (updateLeaf_yields hE h hkey current value).follow fun _ _ _ h' => hend h'

theorem remove_yields (hE : CollisionFree E) {t : ReferenceTree} (h : Represents E s t.free t.leaves) (key : Bytes) :
    Yields E s (ZkTrie.remove parse key) (t.remove parse index key) fun t' _ s' =>
      Represents E s' t'.free t'.leaves := by
  unfold ZkTrie.remove ReferenceTree.remove
  apply Yields.hash_bind
  intro hkey
  apply Yields.read_bind (nearestKeys_eq hindex h hkey)
  intro range
  cases range.center with
  | none => exact Yields.pure () h
  | some current => exact deleteLeaf_yields hE h hkey range current

omit [NodeStore D] [Profile] hindex in
theorem read_eq (key : Bytes) :
    (Action.read (ZkTrie.read key) : Call (Session D) (Option Bytes)) = (do
      let hkey ← Action.lift (trieHash key)
      let range ← Action.read (ZkTrie.nearestKeys hkey)
      pure (range.center.map FlattenedLeaf.leafValue)) := by
  funext s
  simp only [Action.bind_apply, Action.read, Action.lift, ZkTrie.read]
  cases trieHash key with
  | error e => rfl
  | ok hkey =>
    simp only [ok_bind]
    cases ZkTrie.nearestKeys hkey s with
    | error e => rfl
    | ok range =>
      simp only [ok_bind]
      cases range.center <;> rfl

omit [Profile] in
theorem read_yields {t : ReferenceTree} (h : Represents E s t.free t.leaves) (key : Bytes) :
    Yields E s (Action.read (ZkTrie.read key)) (t.read index key) fun a a' s' => a' = a ∧ s' = s := by
  rw [read_eq]
  unfold ReferenceTree.read
  apply Yields.hash_bind
  intro hkey
  apply Yields.read_bind (nearestKeys_eq hindex h hkey)
  intro range
  exact Yields.pure _ ⟨rfl, rfl⟩

end Calls

end ReferenceTree

end LineaSgxProver.Zktrie
