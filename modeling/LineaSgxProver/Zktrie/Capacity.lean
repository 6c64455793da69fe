import LineaSgxProver.Zktrie.AdmittedOps
import LineaSgxProver.Zktrie.WriteAlgebra

namespace LineaSgxProver.Zktrie

open Library
open MerkleTree (Leaves)
open ZkTrie (Decodes)

namespace OneKey

def keyCell (i : UInt64) : Cell := (i, ⟨1, 1⟩)

/-- The trees that a run on one key goes through. -/
inductive Stage where
  | blank
  | head
  | ends
  | linked
  | placed
  | full
  | unlinked
  | dropped

namespace Stage

def map (i : UInt64) : Stage → IndexMap
  | blank => fun _ => none
  | head => Function.update (fun _ => none) 0 (some LeafOpening.head.leafValue)
  | ends => treeMap [Cell.head, Cell.tail]
  | linked => insertLeft [] Cell.head (keyCell i) Cell.tail []
  | placed => insertNew [] Cell.head (keyCell i) Cell.tail []
  | full => treeMap [Cell.head, keyCell i, Cell.tail]
  | unlinked => deleteLeft [] Cell.head (keyCell i) Cell.tail []
  | dropped => deleteOld [] Cell.head (keyCell i) Cell.tail []

def tag : Stage → ℕ
  | blank => 0
  | head => 1
  | ends => 2
  | linked => 3
  | placed => 4
  | full => 5
  | unlinked => 6
  | dropped => 7

theorem tag_lt (st : Stage) : st.tag < 8 := by
  cases st <;> decide

theorem tag_injective {st st' : Stage} (h : st.tag = st'.tag) : st = st' := by
  cases st <;> cases st' <;> first | rfl | cases h

end Stage

/-- The key's tree at a stage of its insertion or removal, with the index that the key is given. -/
abbrev Phase := Stage × UInt64

def phaseMap (f : Phase) : IndexMap := f.1.map f.2

def phaseNumber (f : Phase) : ℕ := f.1.tag * 2 ^ 64 + f.2.toNat

theorem mix_injective {r x y x' y' : ℕ} (hy : y < r) (hy' : y' < r) (h : x * r + y = x' * r + y') :
    x = x' ∧ y = y' := by
  have hr : 0 < r := by omega
  have hx : (x * r + y) / r = (x' * r + y') / r := by rw [h]
  rw [Nat.add_comm, Nat.add_mul_div_right _ _ hr, Nat.div_eq_of_lt hy, Nat.add_comm (x' * r),
    Nat.add_mul_div_right _ _ hr, Nat.div_eq_of_lt hy'] at hx
  obtain rfl : x = x' := by omega
  exact ⟨rfl, by omega⟩

theorem phaseNumber_lt (f : Phase) : phaseNumber f < 2 ^ 67 := by
  have htag := f.1.tag_lt
  have hi := f.2.toNat_lt
  unfold phaseNumber
  omega

theorem phaseNumber_injective {f f' : Phase} (h : phaseNumber f = phaseNumber f') : f = f' := by
  obtain ⟨htag, hi⟩ := mix_injective f.2.toNat_lt f'.2.toNat_lt h
  exact Prod.ext (Stage.tag_injective htag) (UInt64.toNat_inj.mp hi)

def placeNumber : Place Phase → ℕ
  | .block q f => 1 + 2 * ((q.length * 2 ^ 40 + indexOf q) * 2 ^ 67 + phaseNumber f)
  | .top free f => 2 + 2 * (free.toNat * 2 ^ 67 + phaseNumber f)

theorem indexOf_lt_word {q : List Bool} (hq : q.length ≤ zkTrieDepth) : indexOf q < 2 ^ 40 :=
  (indexOf_lt q).trans_le (Nat.pow_le_pow_right (by decide) hq)

theorem placeNumber_bounds {p : Place Phase} (hp : p.Inside) :
    0 < placeNumber p ∧ placeNumber p < 2 ^ 255 := by
  cases p with
  | block q f =>
    have hq : q.length ≤ 40 := hp
    have hindex := indexOf_lt_word hp
    have hf := phaseNumber_lt f
    simp only [placeNumber]
    omega
  | top free f =>
    have hfree := free.toNat_lt
    have hf := phaseNumber_lt f
    simp only [placeNumber]
    omega

theorem placeNumber_injective {p p' : Place Phase} (hp : p.Inside) (hp' : p'.Inside)
    (h : placeNumber p = placeNumber p') : p = p' := by
  cases p with
  | block q f =>
    cases p' with
    | top free f' =>
      simp only [placeNumber] at h
      omega
    | block q' f' =>
      simp only [placeNumber] at h
      have hsum : (q.length * 2 ^ 40 + indexOf q) * 2 ^ 67 + phaseNumber f =
          (q'.length * 2 ^ 40 + indexOf q') * 2 ^ 67 + phaseNumber f' := by omega
      obtain ⟨hq, hf⟩ := mix_injective (phaseNumber_lt f) (phaseNumber_lt f') hsum
      obtain ⟨hlen, hindex⟩ := mix_injective (indexOf_lt_word hp) (indexOf_lt_word hp') hq
      have hpath : q = q' := by
        rw [← bits_indexOf q, ← bits_indexOf q', hlen, hindex]
      rw [hpath, phaseNumber_injective hf]
  | top free f =>
    cases p' with
    | block q' f' =>
      simp only [placeNumber] at h
      omega
    | top free' f' =>
      simp only [placeNumber] at h
      have hsum : free.toNat * 2 ^ 67 + phaseNumber f = free'.toNat * 2 ^ 67 + phaseNumber f' := by omega
      obtain ⟨hfree, hf⟩ := mix_injective (phaseNumber_lt f) (phaseNumber_lt f') hsum
      rw [UInt64.toNat_inj.mp hfree, phaseNumber_injective hf]

def numbering : Numbering Phase where
  slot p := BitVec.ofNat 256 (placeNumber p)
  nonzero p hp h := by
    obtain ⟨hpos, hlt⟩ := placeNumber_bounds hp
    have hnat := congrArg BitVec.toNat h
    rw [BitVec.toNat_ofNat, Nat.mod_eq_of_lt (hlt.trans (by decide))] at hnat
    change placeNumber p = 0 at hnat
    omega
  injective p p' hp hp' h := by
    have hnat := congrArg BitVec.toNat h
    rw [BitVec.toNat_ofNat, BitVec.toNat_ofNat,
      Nat.mod_eq_of_lt ((placeNumber_bounds hp).2.trans (by decide)),
      Nat.mod_eq_of_lt ((placeNumber_bounds hp').2.trans (by decide))] at hnat
    exact placeNumber_injective hp hp' hnat

def key : Bytes := [1]

end OneKey

def readLeaf (buf : Bytes) : Option LeafOpening :=
  some ⟨SH256.ofBytes ((buf.drop 64).take 32), SH256.ofBytes (buf.drop 96),
    UInt64.ofNat (BigEndian.decode (buf.take 32)), UInt64.ofNat (BigEndian.decode ((buf.drop 32).take 32))⟩

theorem readLeaf_decodes : Decodes readLeaf id := by
  intro l
  have hword : ∀ n : UInt64, UInt64.ofNat (BigEndian.decode (BigEndian.encode 32 n.toNat)) = n := by
    intro n
    rw [BigEndian.decode_encode 32 _ (n.toNat_lt.trans (by decide)), UInt64.ofNat_toNat]
  have hprev : l.toBytes.take 32 = BigEndian.encode 32 l.prevLeaf.toNat := by
    unfold LeafOpening.toBytes
    rw [List.append_assoc, List.append_assoc]
    exact List.take_left' (by simp)
  have hnext : (l.toBytes.drop 32).take 32 = BigEndian.encode 32 l.nextLeaf.toNat := by
    unfold LeafOpening.toBytes
    rw [List.append_assoc, List.append_assoc, List.drop_left' (by simp)]
    exact List.take_left' (by simp)
  have hkey : (l.toBytes.drop 64).take 32 = SH256.bytes l.hkey := by
    unfold LeafOpening.toBytes
    rw [List.append_assoc, List.drop_left' (by simp)]
    exact List.take_left' (by simp)
  have hval : l.toBytes.drop 96 = SH256.bytes l.hval := by
    unfold LeafOpening.toBytes
    exact List.drop_left' (by simp)
  rw [readLeaf, hprev, hnext, hkey, hval, hword, hword, SH256.ofBytes_bytes, SH256.ofBytes_bytes]
  rfl

structure ListDB [TrieHash] where
  raw : PrefixDB

namespace ListDB

variable [TrieHash]

def nearest (db : ListDB) (root : SH256) : Option KeyRange :=
  match SpareMerkleTrie.getNode (leafPath (indexPath 0)) (⟨⟨root⟩, db.raw⟩ : Session PrefixDB) with
  | .ok (some node) => do
    let data ← node.raw.value
    let head ← readLeaf data
    some ⟨0, if head.nextLeaf = 1 then none else some ⟨head.nextLeaf, OneKey.key⟩, 1⟩
  | _ => none

instance : Database ListDB where
  getNode db key := Database.getNode db.raw key
  updateNode key node := Action.zoom ListDB.raw (fun raw _ => ⟨raw⟩) (Database.updateNode key node)
  getNearestKeys db root _ := db.nearest root
  updateIndex _ _ db := db
  removeIndex _ db := db

instance : NodeStore ListDB where
  nodes db := NodeStore.nodes db.raw
  getNode_eq db key := NodeStore.getNode_eq db.raw key
  updateNode_eq db key node := by
    obtain ⟨raw, hret, hnodes⟩ := NodeStore.updateNode_eq db.raw key node
    refine ⟨⟨raw⟩, ?_, hnodes⟩
    change Action.zoom ListDB.raw (fun raw _ => ⟨raw⟩) (Database.updateNode key node) db = _
    unfold Action.zoom
    rw [hret]
  nodes_updateIndex _ _ _ := rfl
  nodes_removeIndex _ _ := rfl

theorem nearest_eq {E : Set Bytes} (hE : CollisionFree E) {s : Session ListDB} {n : UInt64} {m : IndexMap}
    (h : Represents E s n m) {l : LeafOpening} (hl : m 0 = some l.leafValue) (hkey : SH256) :
    Database.getNearestKeys s.db s.trie.rootHash hkey =
      some ⟨0, if l.nextLeaf = 1 then none else some ⟨l.nextLeaf, OneKey.key⟩, 1⟩ := by
  have hraw : Represents E (⟨s.trie, s.db.raw⟩ : Session PrefixDB) n m :=
    ⟨h.rootHash, ⟨h.sound.proper, h.sound.within⟩, h.top, h.cover⟩
  have hzero : (0 : UInt64).toNat < 2 ^ zkTrieDepth := by decide
  have hget := hraw.getNode hE hzero hzero
  change ListDB.nearest s.db s.trie.rootHash = _
  unfold ListDB.nearest
  have hsession : (⟨⟨s.trie.rootHash⟩, s.db.raw⟩ : Session PrefixDB) = ⟨s.trie, s.db.raw⟩ := rfl
  rw [hsession, hget, hl]
  change ((readLeaf l.toBytes).bind fun head => some (⟨0, if head.nextLeaf = 1 then none
    else some ⟨head.nextLeaf, OneKey.key⟩, 1⟩ : KeyRange)) = _
  rw [readLeaf_decodes]
  rfl

end ListDB

namespace OneKey

def emptyDB [TrieHash] : ListDB := ⟨⟨0, MemStore.new⟩⟩

abbrev hashes : Set Bytes := TableHash.encodings numbering phaseMap

structure Plain (msg : Bytes) : Prop where
  ne_nil : msg ≠ []
  not_branch : msg.length ≠ 64
  not_leaf : msg.length ≠ 128

theorem ordered_full {i free : UInt64} (hi : 2 ≤ i.toNat) (hlt : i.toNat < free.toNat)
    (hbound : free.toNat ≤ 2 ^ zkTrieDepth) : Ordered [Cell.head, keyCell i, Cell.tail] free := by
  have hends : Ordered ([] ++ Cell.head :: Cell.tail :: []) i := ordered_ends.grow hi (by omega)
  have hfull := hends.insert (e := ⟨1, 1⟩) (by decide) (by decide) (by omega : i.toNat < 2 ^ zkTrieDepth)
  have hnext : (i + 1).toNat = i.toNat + 1 := by
    have hword : 2 ^ zkTrieDepth < 2 ^ 64 := by decide
    rw [UInt64.toNat_add, Nat.mod_eq_of_lt (by simp; omega)]
    rfl
  exact hfull.grow (by omega) hbound

theorem nodup_full {i : UInt64} (hi : 2 ≤ i.toNat) (hbound : i.toNat ≤ 2 ^ zkTrieDepth) :
    (([] ++ Cell.head :: keyCell i :: Cell.tail :: [] : List Cell).map Prod.fst).Nodup := by
  have hzero : (0 : UInt64) ≠ i := by
    rintro rfl
    cases hi
  have hone : i ≠ 1 := by
    rintro rfl
    exact absurd hi (by decide)
  simp [Cell.head, Cell.tail, keyCell, hzero, hone]

theorem zero_lt : (0 : UInt64).toNat < 2 ^ zkTrieDepth := by decide

theorem one_lt : (1 : UInt64).toNat < 2 ^ zkTrieDepth := by decide

theorem ends_head : treeMap [Cell.head, Cell.tail] 0 = some LeafOpening.head.leafValue := rfl

section Steps

variable [TrieHash] (htable : ∀ b, TrieHash.sum b = TableHash.sum numbering phaseMap b)
  {s : Session ListDB} {free i : UInt64} {v : Bytes}

include htable

theorem collisionFree : CollisionFree hashes := TableHash.collisionFree htable

theorem admits (st : Stage) (i : UInt64) : Admits hashes (st.map i) :=
  fun free => TableHash.commits htable free (st, i)

theorem sum_plain (hv : Plain v) : TrieHash.sum v = .ok 1 := by
  rw [htable]
  exact TableHash.sum_other hv.ne_nil hv.not_branch hv.not_leaf

theorem sum_key : TrieHash.sum key = .ok 1 :=
  sum_plain htable ⟨by decide, by decide, by decide⟩

theorem nearest_ends (h : Represents hashes s free (treeMap [Cell.head, Cell.tail])) :
    Database.getNearestKeys s.db s.trie.rootHash 1 = some ⟨0, none, 1⟩ :=
  ListDB.nearest_eq (collisionFree htable) h ends_head 1

theorem nearest_full (h : Represents hashes s free (treeMap [Cell.head, keyCell i, Cell.tail]))
    (hi : 2 ≤ i.toNat) (hbound : i.toNat ≤ 2 ^ zkTrieDepth) :
    Database.getNearestKeys s.db s.trie.rootHash 1 = some ⟨0, some ⟨i, key⟩, 1⟩ := by
  have hone : i ≠ 1 := by
    rintro rfl
    exact absurd hi (by decide)
  have hhead := (treeMap_three (nodup_full hi hbound)).1
  rw [ListDB.nearest_eq (collisionFree htable) h hhead 1]
  change some (⟨0, if i = 1 then none else some ⟨i, key⟩, 1⟩ : KeyRange) = _
  rw [if_neg hone]

variable [Profile]

theorem put_new (h : Represents hashes s free (treeMap [Cell.head, Cell.tail])) (hv : Plain v)
    (hlow : 2 ≤ free.toNat) (hfree : free.toNat < 2 ^ zkTrieDepth) :
    ∃ s', (ZkTrie.put readLeaf key v).Returns s () s' ∧
      Represents hashes s' (free + 1) (treeMap [Cell.head, keyCell free, Cell.tail]) := by
  have hE := collisionFree htable
  have hnodup := nodup_full hlow hfree.le
  have hm₁ : Function.update (treeMap [Cell.head, Cell.tail]) 0
      (some (LeafOpening.head.newNextLeaf free).leafValue) = Stage.linked.map free := rfl
  have hm₂ : Function.update (Stage.linked.map free) free (some (LeafOpening.new 0 1 1 1).leafValue) =
      Stage.placed.map free := rfl
  obtain ⟨s', hins, h'⟩ := ZkTrie.insertLeaf_returns hE readLeaf_decodes h zero_lt one_lt hfree zero_lt hfree
    one_lt ends_head hm₁ hm₂ (insertNew_right hnodup) (treeMap_insert hnodup) (admits htable .linked free)
    (admits htable .placed free) (admits htable .full free) (sum_plain htable hv)
  exact ⟨s', ZkTrie.put_of_insert hE h (sum_key htable) (nearest_ends htable h) hins h', h'⟩

theorem put_same (h : Represents hashes s free (treeMap [Cell.head, keyCell i, Cell.tail])) (hv : Plain v)
    (hi : 2 ≤ i.toNat) (hlt : i.toNat < 2 ^ zkTrieDepth) :
    ∃ s', (ZkTrie.put readLeaf key v).Returns s () s' ∧
      Represents hashes s' free (treeMap [Cell.head, keyCell i, Cell.tail]) := by
  have hE := collisionFree htable
  have hnodup := nodup_full hi hlt.le
  obtain ⟨s', hupd, h'⟩ := ZkTrie.updateLeaf_returns hE readLeaf_decodes h hlt hlt (treeMap_three hnodup).2.1
    (treeMap_replace hnodup ⟨1, 1⟩) (admits htable .full i) key (sum_plain htable hv)
  exact ⟨s', ZkTrie.put_of_update hE h (sum_key htable) (nearest_full htable h hi hlt.le) hupd h', h'⟩

theorem put_full (h : Represents hashes s free (treeMap [Cell.head, Cell.tail]))
    (hfull : getLeafPath free = none) :
    ∃ s', (ZkTrie.put readLeaf key v).Stops s .panic s' ∧
      Represents hashes s' free (Stage.linked.map free) := by
  have hE := collisionFree htable
  have hm₁ : Function.update (treeMap [Cell.head, Cell.tail]) 0
      (some (LeafOpening.head.newNextLeaf free).leafValue) = Stage.linked.map free := rfl
  obtain ⟨s', hins, h'⟩ := ZkTrie.insertLeaf_stops hE readLeaf_decodes h zero_lt one_lt zero_lt ends_head hm₁
    (admits htable .linked free) hfull
  exact ⟨s', ZkTrie.put_stops hE h (sum_key htable) (nearest_ends htable h) hins, h'⟩

theorem remove_key (h : Represents hashes s free (treeMap [Cell.head, keyCell i, Cell.tail]))
    (hi : 2 ≤ i.toNat) (hlt : i.toNat < 2 ^ zkTrieDepth) :
    ∃ s', (ZkTrie.remove readLeaf key).Returns s () s' ∧
      Represents hashes s' free (treeMap [Cell.head, Cell.tail]) := by
  have hE := collisionFree htable
  have hnodup := nodup_full hi hlt.le
  have hm₁ : Function.update (treeMap [Cell.head, keyCell i, Cell.tail]) 0
      (some ((LeafOpening.head.newNextLeaf i).newNextLeaf 1).leafValue) = Stage.unlinked.map i := rfl
  have hm₂ : Function.update (Stage.unlinked.map i) i none = Stage.dropped.map i := rfl
  obtain ⟨s', hret, h'⟩ := ZkTrie.remove_returns hE readLeaf_decodes h zero_lt hlt one_lt zero_lt hlt one_lt
    (treeMap_three hnodup).1 hm₁ (deleteLeft_old hnodup) hm₂ (deleteOld_right hnodup)
    (treeMap_erase hnodup) (admits htable .unlinked i) (admits htable .dropped i) (admits htable .ends i)
    (sum_key htable) (nearest_full htable h hi hlt.le)
  exact ⟨s', hret, h'⟩

theorem remove_none (h : Represents hashes s free (treeMap [Cell.head, Cell.tail])) :
    (ZkTrie.remove readLeaf key).Returns s () s := by
  have hhash : trieHash key = .ok 1 := by rw [trieHash, sum_key htable]
  have hnear : ZkTrie.nearestKeys 1 s = .ok ⟨0, none, 1⟩ := by
    rw [ZkTrie.nearestKeys, nearest_ends htable h]
    rfl
  unfold ZkTrie.remove
  rw [hhash]
  apply (Action.Returns.lift _ _).bind
  apply (Action.Returns.read hnear).bind
  exact Action.Returns.pure () s

end Steps

inductive Held [TrieHash] (s : Session ListDB) (free : UInt64) : Bool → Prop
  | absent : Represents hashes s free (treeMap [Cell.head, Cell.tail]) → Held s free false
  | present (i : UInt64) : 2 ≤ i.toNat → i.toNat < free.toNat →
    Represents hashes s free (treeMap [Cell.head, keyCell i, Cell.tail]) → Held s free true

structure OnKey (op : KeyOp) : Prop where
  key : op.key = key
  value : ∀ k v, op = .put k v → Plain v

section Runs

variable [TrieHash] (htable : ∀ b, TrieHash.sum b = TableHash.sum numbering phaseMap b)
  {s : Session ListDB} {free : UInt64} {present : Bool}

include htable

omit htable in
theorem Held.within (h : Held s free present) : encodings (known s.db) ⊆ hashes := by
  cases h with
  | absent h => exact h.sound.within
  | present i _ _ h => exact h.sound.within

theorem Held.answers (h : Held s free present) (hlow : 2 ≤ free.toNat)
    (hbound : free.toNat ≤ 2 ^ zkTrieDepth) : Answers hashes s key := by
  have hE := collisionFree htable
  intro hkey hsum
  obtain rfl : 1 = hkey := Except.ok.inj ((sum_key htable).symm.trans hsum)
  cases h with
  | absent h =>
    refine ⟨_, nearest_ends htable h, ?_⟩
    intro n m hm
    have hordered : Ordered ([] ++ Cell.head :: Cell.tail :: []) free := ordered_ends.grow hlow hbound
    have hends : Neighbours (treeMap [Cell.head, Cell.tail]) 1 ⟨0, none, 1⟩ :=
      neighbours_between hordered (by decide) (by decide)
    exact hends.congr (fun i hi => h.commits.agree hE hm.commits hi) zero_lt one_lt (fun c hc => nomatch hc)
  | present i hi hlt h =>
    refine ⟨_, nearest_full htable h hi (by omega), ?_⟩
    intro n m hm
    have hordered : Ordered ([] ++ Cell.head :: keyCell i :: Cell.tail :: []) free :=
      ordered_full hi hlt hbound
    have hfull : Neighbours (treeMap [Cell.head, keyCell i, Cell.tail]) 1 ⟨0, some ⟨i, key⟩, 1⟩ :=
      neighbours_at hordered (sum_key htable)
    refine hfull.congr (fun j hj => h.commits.agree hE hm.commits hj) zero_lt one_lt ?_
    rintro c ⟨⟩
    change i.toNat < 2 ^ zkTrieDepth
    omega

variable [Profile]

theorem run_held {op : KeyOp} (hop : OnKey op) {live : Bytes → Option Bytes}
    (h : Held s free (live key).isSome) (hlow : 2 ≤ free.toNat)
    (hroom : free.toNat + op.inserts live ≤ 2 ^ zkTrieDepth) :
    ∃ s' free', (op.run readLeaf).Returns s () s' ∧ Held s' free' (op.apply live key).isSome ∧
      free'.toNat = free.toNat + op.inserts live := by
  have hkey := hop.key
  generalize hp : (live key).isSome = present at h
  cases op with
  | put k v =>
    obtain rfl : k = key := hkey
    have hv := hop.value key v rfl
    have hafter : (KeyOp.apply live (.put key v) key).isSome = true := by
      simp [KeyOp.apply]
    rw [hafter]
    cases h with
    | absent h =>
      have hone : KeyOp.inserts live (.put key v) = 1 := if_pos (by simpa using hp)
      rw [hone] at hroom ⊢
      have hnext := next_toNat (show free.toNat < 2 ^ zkTrieDepth by omega)
      obtain ⟨s', hret, h'⟩ := put_new htable h hv hlow (by omega)
      exact ⟨s', free + 1, hret, .present free hlow (by omega) h', hnext⟩
    | present i hi hlt h =>
      have hzero : KeyOp.inserts live (.put key v) = 0 := if_neg (by
        intro hnone
        rw [hnone] at hp
        cases hp)
      rw [hzero] at hroom ⊢
      obtain ⟨s', hret, h'⟩ := put_same htable h hv hi (by omega)
      exact ⟨s', free, hret, .present i hi hlt h', rfl⟩
  | remove k =>
    obtain rfl : k = key := hkey
    have hafter : (KeyOp.apply live (.remove key) key).isSome = false := by
      simp [KeyOp.apply]
    rw [hafter]
    cases h with
    | absent h => exact ⟨s, free, remove_none htable h, .absent h, rfl⟩
    | present i hi hlt h =>
      have hbound : free.toNat ≤ 2 ^ zkTrieDepth := hroom
      obtain ⟨s', hret, h'⟩ := remove_key htable h hi (by omega)
      exact ⟨s', free, hret, .absent h', rfl⟩

theorem runAll_held {ops : List KeyOp} (hops : ∀ op ∈ ops, OnKey op) {live : Bytes → Option Bytes}
    (h : Held s free (live key).isSome) (hlow : 2 ≤ free.toNat)
    (hroom : free.toNat + KeyOp.insertions live ops ≤ 2 ^ zkTrieDepth) :
    ∃ s' free', (KeyOp.runAll readLeaf ops).Returns s () s' ∧
      Held s' free' (ops.foldl KeyOp.apply live key).isSome ∧
      free'.toNat = free.toNat + KeyOp.insertions live ops := by
  induction ops generalizing s free live with
  | nil => exact ⟨s, free, rfl, h, rfl⟩
  | cons op ops ih =>
    rw [KeyOp.insertions] at hroom ⊢
    obtain ⟨s₁, free₁, hret₁, h₁, hfree₁⟩ :=
      run_held htable (hops op (List.mem_cons_self ..)) h hlow (by omega)
    obtain ⟨s₂, free₂, hret₂, h₂, hfree₂⟩ :=
      ih (fun o ho => hops o (List.mem_cons_of_mem _ ho)) h₁ (by omega) (by omega)
    exact ⟨s₂, free₂, hret₁.bind hret₂, h₂, by omega⟩

omit htable [Profile] in
theorem answers_mono {E F : Set Bytes} (hEF : E ⊆ F) {k : Bytes} (h : Answers F s k) : Answers E s k := by
  intro hkey hsum
  obtain ⟨r, hr, hneigh⟩ := h hkey hsum
  refine ⟨r, hr, ?_⟩
  intro n m hm
  exact hneigh n m ⟨hm.rootHash, ⟨hm.sound.proper, hm.sound.within.trans hEF⟩, hm.top, hm.cover⟩

omit htable [Profile] in
theorem separates_key {ops : List KeyOp} (hops : ∀ op ∈ ops, OnKey op) :
    Separates {k | ∃ op ∈ ops, op.key = k} := by
  rintro _ ⟨a, ha, rfl⟩ _ ⟨b, hb, rfl⟩ _ _ _
  rw [(hops a ha).key, (hops b hb).key]

omit [Profile] in
theorem accepted {op : KeyOp} (hop : OnKey op) : op.Accepted where
  key := by
    rw [hop.key]
    exact ⟨1, sum_key htable, by decide, by decide⟩
  value k v hv := ⟨1, sum_plain htable (hop.value k v hv)⟩

theorem start : ∃ s₀, ZkTrie.empty emptyDB = (.ok (), s₀) ∧ Held s₀ 2 false := by
  have hE := collisionFree htable
  have hinit := represents_initWorldState (E := hashes) emptyDB (fun e he => nomatch he) (by
    change encodings (emptyTrieNode ++ []) ⊆ hashes
    rw [List.append_nil]
    exact TableHash.empty_within (f := (.blank, 0)) htable leavesOf_none)
  obtain ⟨s₀, hret, h₀⟩ := ZkTrie.setHeadAndTail_returns hE hinit rfl treeMap_ends.symm
    (admits htable .head 0) (admits htable .ends 0)
  exact ⟨s₀, hret, .absent h₀⟩

theorem run_from_empty {ops : List KeyOp} (hops : ∀ op ∈ ops, OnKey op)
    (hroom : KeyOp.insertions (fun _ => none) ops + 2 ≤ 2 ^ zkTrieDepth) :
    ∃ s free, (KeyOp.runAll readLeaf ops).Returns (ZkTrie.empty emptyDB).2 () s ∧
      Held s free (KeyOp.live ops key).isSome ∧
      free.toNat = 2 + KeyOp.insertions (fun _ => none) ops := by
  obtain ⟨s₀, hempty, h₀⟩ := start htable
  have htwo : (2 : UInt64).toNat = 2 := rfl
  have hfit : (2 : UInt64).toNat + KeyOp.insertions (fun _ => none) ops ≤ 2 ^ zkTrieDepth := by omega
  obtain ⟨s, free, hret, h, hfree⟩ := runAll_held htable hops (by exact h₀) le_rfl hfit
  rw [hempty]
  exact ⟨s, free, hret, h, by omega⟩

theorem posed {ops : List KeyOp} (hops : ∀ op ∈ ops, OnKey op)
    (hroom : KeyOp.insertions (fun _ => none) ops + 2 ≤ 2 ^ zkTrieDepth) :
    KeyOp.Posed readLeaf hashes emptyDB ops where
  accepted op hop := accepted htable (hops op hop)
  distinct := separates_key hops
  room := hroom
  hashed := by
    obtain ⟨s, free, hret, h, _⟩ := run_from_empty htable hops hroom
    rw [KeyOp.hashed, hret]
    exact h.within
  answers := by
    rintro pre op post rfl
    rw [KeyOp.insertions_append] at hroom
    obtain ⟨s, free, hret, h, hfree⟩ :=
      run_from_empty htable (fun o ho => hops o (List.mem_append_left _ ho)) (by omega)
    rw [hret, (hops op (by simp)).key]
    exact h.answers htable (by omega) (by omega)

end Runs

def pairs (n : ℕ) : List KeyOp := (List.replicate n [.put key key, .remove key]).flatten

theorem pairs_succ (n : ℕ) : pairs (n + 1) = .put key key :: .remove key :: pairs n := rfl

@[simp] theorem plain_iff {v : Bytes} : Plain v ↔ v ≠ [] ∧ v.length ≠ 64 ∧ v.length ≠ 128 :=
  ⟨fun h => ⟨h.ne_nil, h.not_branch, h.not_leaf⟩, fun h => ⟨h.1, h.2.1, h.2.2⟩⟩

@[simp] theorem onKey_put_iff {k v : Bytes} : OnKey (.put k v) ↔ k = key ∧ Plain v := by
  constructor
  · intro h
    exact ⟨h.key, h.value k v rfl⟩
  · rintro ⟨rfl, hv⟩
    refine ⟨rfl, ?_⟩
    rintro k w ⟨⟩
    exact hv

@[simp] theorem onKey_remove_iff {k : Bytes} : OnKey (.remove k) ↔ k = key :=
  ⟨fun h => h.key, fun h => ⟨h, fun _ _ hput => nomatch hput⟩⟩

@[simp] theorem key_eq : key = [1] := rfl

theorem onKey_pairs (n : ℕ) : ∀ op ∈ pairs n, OnKey op := by
  intro op hop
  obtain ⟨l, hl, hop⟩ := List.mem_flatten.mp hop
  rw [List.eq_of_mem_replicate hl] at hop
  rcases List.mem_pair.mp hop with rfl | rfl
  · simp
  · simp

theorem apply_put_remove {live : Bytes → Option Bytes} (h : live key = none) :
    KeyOp.apply (KeyOp.apply live (.put key key)) (.remove key) = live := by
  simp only [KeyOp.apply, Function.update_idem]
  rw [← h, Function.update_eq_self]

theorem foldl_pairs (n : ℕ) {live : Bytes → Option Bytes} (h : live key = none) :
    (pairs n).foldl KeyOp.apply live = live := by
  induction n with
  | zero => rfl
  | succ n ih =>
    rw [pairs_succ, List.foldl_cons, List.foldl_cons, apply_put_remove h, ih]

theorem insertions_pairs (n : ℕ) {live : Bytes → Option Bytes} (h : live key = none) :
    KeyOp.insertions live (pairs n) = n := by
  induction n with
  | zero => rfl
  | succ n ih =>
    have hone : KeyOp.inserts live (.put key key) = 1 := if_pos h
    rw [pairs_succ, KeyOp.insertions, KeyOp.insertions, apply_put_remove h, ih, hone]
    change 1 + (0 + n) = n + 1
    omega

theorem insertions_exhausted {n : ℕ} (hn : n + 2 = 2 ^ zkTrieDepth) :
    KeyOp.insertions (fun _ => none) (pairs n ++ [.put key key, .remove key]) < 2 ^ zkTrieDepth := by
  have hone : KeyOp.insertions (fun _ => none) [.put key key, .remove key] = 1 := rfl
  rw [KeyOp.insertions_append, insertions_pairs n rfl, foldl_pairs n rfl, hone]
  omega

theorem before_last {n : ℕ} {pre post : List KeyOp} {last op : KeyOp}
    (h : pairs n ++ [last] = pre ++ op :: post) :
    (∀ o ∈ pre, OnKey o) ∧ KeyOp.insertions (fun _ => none) pre ≤ n := by
  have hpairs : pairs n = pre ++ (op :: post).dropLast := by
    rw [← List.dropLast_append_of_ne_nil (by simp), ← h, List.dropLast_concat]
  constructor
  · intro o ho
    apply onKey_pairs n
    rw [hpairs]
    exact List.mem_append_left _ ho
  · have hn : KeyOp.insertions (fun _ => none) (pairs n) = n := insertions_pairs n rfl
    rw [hpairs, KeyOp.insertions_append] at hn
    omega

def again : List KeyOp := [.put key key, .remove key, .put key [7]]

theorem onKey_again : ∀ op ∈ again, OnKey op := by
  simp [again]

theorem insertions_again : KeyOp.insertions (fun _ => none) again + 2 ≤ 2 ^ zkTrieDepth := by
  decide

section Exhausted

variable [TrieHash] (htable : ∀ b, TrieHash.sum b = TableHash.sum numbering phaseMap b) [Profile]
  {n : ℕ}

include htable

theorem exhausted (hn : n + 2 = 2 ^ zkTrieDepth) (hchecks : Profile.overflowChecks = true)
    (rest : List KeyOp) :
    ∃ s s', (KeyOp.runAll readLeaf (pairs n)).Returns (ZkTrie.empty emptyDB).2 () s ∧
      (KeyOp.runAll readLeaf (.put key key :: rest)).Stops s .panic s' ∧
      encodings (known s'.db) ⊆ hashes := by
  have hinsertions : KeyOp.insertions (fun _ => none) (pairs n) = n := insertions_pairs n rfl
  obtain ⟨s, free, hret, h, hfree⟩ := run_from_empty htable (onKey_pairs n) (by omega)
  rw [KeyOp.live, foldl_pairs n rfl] at h
  cases h with
  | absent h =>
    have hpath : getLeafPath free = none := by
      rw [← Option.not_isSome_iff_eq_none, getLeafPath_isSome, pathBound, if_pos hchecks]
      omega
    obtain ⟨s', hstop, h'⟩ := put_full htable h hpath
    exact ⟨s, s', hret, hstop.head, h'.sound.within⟩

/-- Before every call that the trie has room for, the database has answered truly. -/
theorem answers_from_empty {pre : List KeyOp} (hpre : ∀ op ∈ pre, OnKey op)
    (hroom : KeyOp.insertions (fun _ => none) pre + 2 ≤ 2 ^ zkTrieDepth) :
    Answers hashes (KeyOp.runAll readLeaf pre (ZkTrie.empty emptyDB).2).2 key := by
  obtain ⟨s, free, hret, h, hfree⟩ := run_from_empty htable hpre hroom
  rw [hret]
  exact h.answers htable (by omega) (by omega)

theorem exhausted_hashed (hn : n + 2 = 2 ^ zkTrieDepth) (hchecks : Profile.overflowChecks = true)
    (rest : List KeyOp) : KeyOp.hashed readLeaf (pairs n ++ .put key key :: rest) emptyDB ⊆ hashes := by
  obtain ⟨s, s', hret, hstop, hwithin⟩ := exhausted htable hn hchecks rest
  rw [KeyOp.hashed, KeyOp.runAll_append, hret.stops hstop]
  exact hwithin

theorem exhausted_not_returns (hn : n + 2 = 2 ^ zkTrieDepth) (hchecks : Profile.overflowChecks = true)
    (rest : List KeyOp) : ¬ ∃ s, (KeyOp.runAll readLeaf (pairs n ++ .put key key :: rest)).Returns
      (ZkTrie.empty emptyDB).2 () s := by
  rintro ⟨t, hall⟩
  obtain ⟨s, s', hret, hstop, _⟩ := exhausted htable hn hchecks rest
  rw [KeyOp.runAll_append] at hall
  cases hall.symm.trans (hret.stops hstop)

theorem answers_before (hn : n + 2 = 2 ^ zkTrieDepth) {last op : KeyOp} {pre post : List KeyOp}
    (heq : pairs n ++ [last] = pre ++ op :: post) :
    Answers hashes (KeyOp.runAll readLeaf pre (ZkTrie.empty emptyDB).2).2 key := by
  obtain ⟨honkey, hcount⟩ := before_last heq
  exact answers_from_empty htable honkey (by omega)

theorem runAll_exhausted_of (hn : n + 2 = 2 ^ zkTrieDepth) (hchecks : Profile.overflowChecks = true) :
    (∀ op ∈ pairs n ++ [.put key key], op.Accepted) ∧
      Separates {k | ∃ op ∈ pairs n ++ [.put key key], op.key = k} ∧
      KeyOp.insertions (fun _ => none) (pairs n ++ [.put key key]) < 2 ^ zkTrieDepth ∧
      Proper (NodeStore.nodes emptyDB) ∧
      CollisionFree (KeyOp.hashed readLeaf (pairs n ++ [.put key key]) emptyDB) ∧
      (∀ pre op post, pairs n ++ [.put key key] = pre ++ op :: post →
        Answers (KeyOp.hashed readLeaf (pairs n ++ [.put key key]) emptyDB)
          (KeyOp.runAll readLeaf pre (ZkTrie.empty emptyDB).2).2 op.key) ∧
      ¬ ∃ s, (KeyOp.runAll readLeaf (pairs n ++ [.put key key])).Returns (ZkTrie.empty emptyDB).2 () s := by
  have honkey : ∀ op ∈ pairs n ++ [.put key key], OnKey op := by
    intro op hop
    rcases List.mem_append.mp hop with hop | hop
    · exact onKey_pairs n op hop
    · rw [List.mem_singleton.mp hop]
      simp
  have hhashed := exhausted_hashed htable hn hchecks []
  refine ⟨?_, separates_key honkey, ?_, ?_, ?_, ?_, exhausted_not_returns htable hn hchecks []⟩
  · intro op hop
    exact accepted htable (honkey op hop)
  · have hone : KeyOp.insertions (fun _ => none) [.put key key] = 1 := rfl
    rw [KeyOp.insertions_append, insertions_pairs n rfl, foldl_pairs n rfl, hone]
    omega
  · exact fun e he => nomatch he
  · exact (collisionFree htable).mono hhashed
  · intro pre op post heq
    have hmem : op ∈ pairs n ++ [.put key key] := by
      rw [heq]
      simp
    rw [(honkey op hmem).key]
    exact answers_mono hhashed (answers_before htable hn heq)

theorem write_algebra_exhausted_of (hn : n + 2 = 2 ^ zkTrieDepth)
    (hchecks : Profile.overflowChecks = true) :
    KeyOp.live (pairs n) key = none ∧
      (∀ op ∈ pairs n ++ [.put key key, .remove key], op.Accepted) ∧
      Separates {k | ∃ op ∈ pairs n ++ [.put key key, .remove key], op.key = k} ∧
      KeyOp.insertions (fun _ => none) (pairs n ++ [.put key key, .remove key]) < 2 ^ zkTrieDepth ∧
      Proper (NodeStore.nodes emptyDB) ∧ CollisionFree hashes ∧
      KeyOp.hashed readLeaf (pairs n ++ [.put key key, .remove key]) emptyDB ⊆ hashes ∧
      (∀ pre op post, pairs n ++ [.put key key, .remove key] = pre ++ op :: post →
        ∀ s, (KeyOp.runAll readLeaf pre).Returns (ZkTrie.empty emptyDB).2 () s →
          Answers hashes s op.key) ∧
      ∃ s, (KeyOp.runAll readLeaf (pairs n)).Returns (ZkTrie.empty emptyDB).2 () s ∧
        ¬ ∃ s', (KeyOp.runAll readLeaf [.put key key, .remove key]).Returns s () s' := by
  have honkey : ∀ op ∈ pairs n ++ [.put key key, .remove key], OnKey op := by
    intro op hop
    rcases List.mem_append.mp hop with hop | hop
    · exact onKey_pairs n op hop
    · rcases List.mem_pair.mp hop with rfl | rfl
      · simp
      · simp
  obtain ⟨s, s', hret, hstop, _⟩ := exhausted htable hn hchecks [.remove key]
  refine ⟨?_, ?_, separates_key honkey, insertions_exhausted hn, ?_, collisionFree htable,
    exhausted_hashed htable hn hchecks [.remove key], ?_, s, hret, ?_⟩
  · rw [KeyOp.live, foldl_pairs n rfl]
  · intro op hop
    exact accepted htable (honkey op hop)
  · intro e he
    cases he
  · intro pre op post heq t ht
    have hmem : op ∈ pairs n ++ [.put key key, .remove key] := by
      rw [heq]
      simp
    have hlast : (pairs n ++ [.put key key]) ++ [.remove key] = pre ++ op :: post := by
      rw [← heq]
      simp
    rw [(honkey op hmem).key]
    rcases List.eq_nil_or_concat post with rfl | ⟨front, last, rfl⟩
    · -- the removal: the put before it did not return
      obtain ⟨rfl, _⟩ := List.append_inj' hlast rfl
      exact absurd ⟨t, ht⟩ (exhausted_not_returns htable hn hchecks [])
    · have hput : pairs n ++ [.put key key] = pre ++ op :: front := by
        rw [List.concat_eq_append, ← List.cons_append, ← List.append_assoc] at hlast
        exact (List.append_inj' hlast rfl).1
      have hanswer := answers_before htable hn hput
      rw [ht] at hanswer
      exact hanswer
  · rintro ⟨t, ht⟩
    cases ht.symm.trans hstop

end Exhausted

end OneKey

namespace KeyOp

open OneKey (pairs emptyDB hashes)

/-- The head and the tail take two of the leaves, so that fewer insertions fit than there are leaves. -/
theorem runAll_exhausted :
    letI := TableHash.hash OneKey.numbering OneKey.phaseMap
    letI := debugProfile
    Decodes readLeaf id ∧ ∃ ops : List KeyOp, (∀ op ∈ ops, op.Accepted) ∧
      Separates {k | ∃ op ∈ ops, op.key = k} ∧ insertions (fun _ => none) ops < 2 ^ zkTrieDepth ∧
      Proper (NodeStore.nodes emptyDB) ∧ CollisionFree (hashed readLeaf ops emptyDB) ∧
      (∀ pre op post, ops = pre ++ op :: post →
        Answers (hashed readLeaf ops emptyDB) (runAll readLeaf pre (ZkTrie.empty emptyDB).2).2 op.key) ∧
      ¬ ∃ s, (runAll readLeaf ops).Returns (ZkTrie.empty emptyDB).2 () s := by
  let := TableHash.hash OneKey.numbering OneKey.phaseMap
  let := debugProfile
  exact ⟨readLeaf_decodes, _, OneKey.runAll_exhausted_of (fun _ => rfl)
    (Nat.sub_add_cancel (by decide : 2 ≤ 2 ^ zkTrieDepth)) rfl⟩

theorem write_algebra_exhausted :
    letI := TableHash.hash OneKey.numbering OneKey.phaseMap
    letI := debugProfile
    Decodes readLeaf id ∧ ∃ ops k v, live ops k = none ∧
      (∀ op ∈ ops ++ [put k v, remove k], op.Accepted) ∧
      Separates {a | ∃ op ∈ ops ++ [put k v, remove k], op.key = a} ∧
      insertions (fun _ => none) (ops ++ [put k v, remove k]) < 2 ^ zkTrieDepth ∧
      Proper (NodeStore.nodes emptyDB) ∧ CollisionFree hashes ∧
      hashed readLeaf (ops ++ [put k v, remove k]) emptyDB ⊆ hashes ∧
      (∀ pre op post, ops ++ [put k v, remove k] = pre ++ op :: post →
        ∀ s, (runAll readLeaf pre).Returns (ZkTrie.empty emptyDB).2 () s → Answers hashes s op.key) ∧
      ∃ s, (runAll readLeaf ops).Returns (ZkTrie.empty emptyDB).2 () s ∧
        ¬ ∃ s', (runAll readLeaf [put k v, remove k]).Returns s () s' := by
  let := TableHash.hash OneKey.numbering OneKey.phaseMap
  let := debugProfile
  exact ⟨readLeaf_decodes, pairs (2 ^ zkTrieDepth - 2), OneKey.key, OneKey.key,
    OneKey.write_algebra_exhausted_of (fun _ => rfl)
    (Nat.sub_add_cancel (by decide : 2 ≤ 2 ^ zkTrieDepth)) rfl⟩

theorem runAll_linkedLeaves_sample :
    letI := TableHash.hash OneKey.numbering OneKey.phaseMap
    letI := debugProfile
    ∃ s₀, ZkTrie.empty emptyDB = (.ok (), s₀) ∧ ∃ s free m leaves,
      (runAll readLeaf OneKey.again).Returns s₀ () s ∧ LinkedLeaves m free (live OneKey.again) leaves := by
  let := TableHash.hash OneKey.numbering OneKey.phaseMap
  let := debugProfile
  have hposed := OneKey.posed (fun _ => rfl) OneKey.onKey_again OneKey.insertions_again
  have hdb : Proper (NodeStore.nodes emptyDB) := fun e he => nomatch (he : e ∈ [])
  obtain ⟨s₀, hempty, s, free, m, leaves, hret, _, hlinked, _⟩ :=
    runAll_linkedLeaves readLeaf_decodes OneKey.again hposed.accepted hposed.distinct hposed.room emptyDB
      hdb ((OneKey.collisionFree fun _ => rfl).mono hposed.hashed)
      (fun pre op post heq => OneKey.answers_mono hposed.hashed (hposed.answers pre op post heq))
  exact ⟨s₀, hempty, s, free, m, leaves, hret, hlinked⟩

theorem write_algebra_sample :
    letI := TableHash.hash OneKey.numbering OneKey.phaseMap
    letI := debugProfile
    (∃ s s', (runAll readLeaf (pairs 1)).Returns (ZkTrie.empty emptyDB).2 () s ∧
        (runAll readLeaf [put OneKey.key [7], remove OneKey.key]).Returns s () s' ∧
        ∃ n n' root, ZkTrie.nextFreeNode s = .ok n ∧ ZkTrie.nextFreeNode s' = .ok n' ∧
          n'.toNat = n.toNat + 1 ∧ ZkTrie.subRootHash s = .ok root ∧ ZkTrie.subRootHash s' = .ok root) ∧
      (∃ s s₁ s₂, (runAll readLeaf (pairs 1)).Returns (ZkTrie.empty emptyDB).2 () s ∧
        (runAll readLeaf [put OneKey.key [7], put OneKey.key [8]]).Returns s () s₁ ∧
        (runAll readLeaf [put OneKey.key [8]]).Returns s () s₂ ∧
        ZkTrie.topRootHash s₁ = ZkTrie.topRootHash s₂) ∧
      ∃ s s', (runAll readLeaf OneKey.again).Returns (ZkTrie.empty emptyDB).2 () s ∧
        (runAll readLeaf [put OneKey.key [7]]).Returns s () s' ∧
        ZkTrie.topRootHash s' = ZkTrie.topRootHash s := by
  let := TableHash.hash OneKey.numbering OneKey.phaseMap
  let := debugProfile
  have hdb : Proper (NodeStore.nodes emptyDB) := fun e he => nomatch (he : e ∈ [])
  have hE : CollisionFree hashes := OneKey.collisionFree fun _ => rfl
  have hnone : live (pairs 1) OneKey.key = none := by
    rw [live, OneKey.foldl_pairs 1 rfl]
  have hsome : live OneKey.again OneKey.key = some [7] := rfl
  have hundone : Posed readLeaf hashes emptyDB (pairs 1 ++ [put OneKey.key [7], remove OneKey.key]) :=
    OneKey.posed (fun _ => rfl) (by simp [pairs]) (by decide)
  have htwice : Posed readLeaf hashes emptyDB (pairs 1 ++ [put OneKey.key [7], put OneKey.key [8]]) :=
    OneKey.posed (fun _ => rfl) (by simp [pairs]) (by decide)
  have honce : Posed readLeaf hashes emptyDB (pairs 1 ++ [put OneKey.key [8]]) :=
    OneKey.posed (fun _ => rfl) (by simp [pairs]) (by decide)
  have hsame : Posed readLeaf hashes emptyDB (OneKey.again ++ [put OneKey.key [7]]) :=
    OneKey.posed (fun _ => rfl) (by simp [OneKey.again]) (by decide)
  have habsent := write_algebra hE readLeaf_decodes hdb (pairs 1) OneKey.key
  have hpresent := write_algebra hE readLeaf_decodes hdb OneKey.again OneKey.key
  refine ⟨?_, ?_, ?_⟩
  · obtain ⟨s₀, s, s', hempty, hret, hret', hroots⟩ := habsent.1 [7] hnone hundone
    rw [hempty]
    exact ⟨s, s', hret, hret', hroots⟩
  · obtain ⟨s₀, s, s₁, s₂, hempty, hret, hret₁, hret₂, hroots⟩ := habsent.2.1 [7] [8] hnone htwice honce
    rw [hempty]
    exact ⟨s, s₁, s₂, hret, hret₁, hret₂, hroots⟩
  · obtain ⟨s₀, s, s', hempty, hret, hret', hroots⟩ := hpresent.2.2 [7] hsome hsame
    rw [hempty]
    exact ⟨s, s', hret, hret', hroots⟩

end KeyOp

end LineaSgxProver.Zktrie
