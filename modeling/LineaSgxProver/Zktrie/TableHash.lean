import LineaSgxProver.Zktrie.IndexMap

namespace LineaSgxProver.Zktrie

open Library
open MerkleTree (Leaves)

inductive Place (ι : Type) where
  | block (q : List Bool) (f : ι)
  | top (free : UInt64) (f : ι)

def Place.Inside {ι : Type} : Place ι → Prop
  | block q _ => q.length ≤ zkTrieDepth
  | top _ _ => True

structure Numbering (ι : Type) where
  slot : Place ι → SH256
  nonzero : ∀ p, p.Inside → slot p ≠ 0
  injective : ∀ p p', p.Inside → p'.Inside → slot p = slot p' → p = p'

inductive Subtree where
  | block (d : ℕ) (m : Leaves LeafValue)
  | top (free : UInt64) (m : Leaves LeafValue)

def Place.subtree {ι : Type} (family : ι → IndexMap) : Place ι → Subtree
  | block q f => .block (zkTrieDepth - q.length) fun p => leavesOf (family f) (q ++ p)
  | top free f => .top free (leavesOf (family f))

namespace TableHash

variable {ι : Type} (N : Numbering ι) (family : ι → IndexMap)

def Listed (x : Subtree) : Prop := ∃ p : Place ι, p.Inside ∧ p.subtree family = x

open Classical in
noncomputable def code (x : Subtree) : SH256 :=
  if x = .block 0 Leaves.none then 0
  else if h : Listed family x then N.slot h.choose
  else 0

/-- The block that the hash of a subtree is taken of. -/
noncomputable def encode : Subtree → Option Bytes
  | .block 0 m => (m []).map (·.1)
  | .block (d + 1) m => some (SH256.bytes (code N family (.block d (m.below false))) ++
      SH256.bytes (code N family (.block d (m.below true))))
  | .top free m => some (SH256.bytes (formatNodeIndex free) ++
      SH256.bytes (code N family (.block zkTrieDepth m)))

open Classical in
noncomputable def sum (msg : Bytes) : Except (Fault String) SH256 :=
  if msg = [] then .error (.error "message is empty")
  else if h : ∃ x, Listed family x ∧ encode N family x = some msg then .ok (code N family h.choose)
  else .ok 1

noncomputable abbrev hash : TrieHash where
  sum := sum N family
  sum_blocks msg hne _ := by
    unfold sum
    rw [if_neg hne]
    split_ifs <;> rfl

variable {N family}

theorem listed_below {d : ℕ} {m : Leaves LeafValue} (h : Listed family (.block (d + 1) m)) (b : Bool) :
    Listed family (.block d (m.below b)) := by
  obtain ⟨p, hp, hx⟩ := h
  cases p with
  | top free f => cases hx
  | block q f =>
    obtain ⟨hd, hm⟩ := Subtree.block.inj hx
    refine ⟨.block (q ++ [b]) f, ?_, ?_⟩
    · change (q ++ [b]).length ≤ zkTrieDepth
      rw [List.length_append, List.length_singleton]
      omega
    · have hheight : zkTrieDepth - (q ++ [b]).length = d := by
        rw [List.length_append, List.length_singleton]
        omega
      have hleaves : (fun p => leavesOf (family f) (q ++ [b] ++ p)) = m.below b := by
        funext p
        rw [← hm, List.append_assoc]
        rfl
      change Subtree.block _ _ = _
      rw [hheight, hleaves]

theorem listed_under {free : UInt64} {m : Leaves LeafValue} (h : Listed family (.top free m)) :
    Listed family (.block zkTrieDepth m) := by
  obtain ⟨p, _, hx⟩ := h
  cases p with
  | block q f => cases hx
  | top free f =>
    obtain ⟨_, rfl⟩ := Subtree.top.inj hx
    exact ⟨.block [] f, Nat.zero_le _, rfl⟩

/-- A listed tree has leaves at its bottom only. -/
theorem Listed.leaf_length {d : ℕ} {m : Leaves LeafValue} (h : Listed family (.block d m))
    {p : List Bool} (hp : p.length ≠ d) : m p = none := by
  obtain ⟨place, hinside, hx⟩ := h
  cases place with
  | top free f => cases hx
  | block q f =>
    obtain ⟨rfl, rfl⟩ := Subtree.block.inj hx
    have hq : q.length ≤ zkTrieDepth := hinside
    apply if_neg
    rw [List.length_append]
    omega

theorem code_injective {x y : Subtree} (hx : Listed family x) (hy : Listed family y)
    (h : code N family x = code N family y) : x = y := by
  unfold code at h
  rw [dif_pos hx, dif_pos hy] at h
  split_ifs at h with hx₀ hy₀ hy₀
  · rw [hx₀, hy₀]
  · exact absurd h.symm (N.nonzero _ hy.choose_spec.1)
  · exact absurd h (N.nonzero _ hx.choose_spec.1)
  · have hplace := N.injective _ _ hx.choose_spec.1 hy.choose_spec.1 h
    rw [← hx.choose_spec.2, hplace, hy.choose_spec.2]

theorem block_ext {d : ℕ} {m m' : Leaves LeafValue} (h : Listed family (.block (d + 1) m))
    (h' : Listed family (.block (d + 1) m')) (hbelow : ∀ b, m.below b = m'.below b) : m = m' := by
  funext p
  cases p with
  | nil => rw [h.leaf_length (by simp), h'.leaf_length (by simp)]
  | cons b p => exact congrFun (hbelow b) p

theorem leaf_ext {m m' : Leaves LeafValue} (h : Listed family (.block 0 m))
    (h' : Listed family (.block 0 m')) (hleaf : m [] = m' []) : m = m' := by
  funext p
  cases p with
  | nil => exact hleaf
  | cons b p => rw [h.leaf_length (by simp), h'.leaf_length (by simp)]

theorem Listed.le {d : ℕ} {m : Leaves LeafValue} (h : Listed family (.block d m)) : d ≤ zkTrieDepth := by
  obtain ⟨p, _, hx⟩ := h
  cases p with
  | top free f => cases hx
  | block q f =>
    obtain ⟨rfl, _⟩ := Subtree.block.inj hx
    exact Nat.sub_le _ _

theorem halves_injective {l r l' r' : SH256}
    (h : SH256.bytes l ++ SH256.bytes r = SH256.bytes l' ++ SH256.bytes r') : l = l' ∧ r = r' := by
  obtain ⟨hl, hr⟩ := List.append_inj h (by simp)
  exact ⟨SH256.bytes_injective hl, SH256.bytes_injective hr⟩

theorem encode_length {x : Subtree} {b : Bytes} (h : encode N family x = some b) :
    b.length = 128 ∧ (∃ m, x = .block 0 m) ∨ b.length = 64 ∧ ∀ m, x ≠ .block 0 m := by
  match x with
  | .block 0 m =>
    left
    obtain ⟨v, _, rfl⟩ := Option.map_eq_some_iff.mp h
    exact ⟨v.2, m, rfl⟩
  | .block (d + 1) m =>
    right
    rw [← Option.some.inj h]
    exact ⟨by simp, fun _ h => nomatch h⟩
  | .top free m =>
    right
    rw [← Option.some.inj h]
    exact ⟨by simp, fun _ h => nomatch h⟩

theorem encode_injective {x y : Subtree} (hx : Listed family x) (hy : Listed family y) {b : Bytes}
    (hxb : encode N family x = some b) (hyb : encode N family y = some b) : x = y := by
  have hxlen := encode_length hxb
  have hylen := encode_length hyb
  match x, y with
  | .block 0 m, .block 0 m' =>
    obtain ⟨v, hv, rfl⟩ := Option.map_eq_some_iff.mp hxb
    obtain ⟨v', hv', hval⟩ := Option.map_eq_some_iff.mp hyb
    rw [leaf_ext hx hy (by rw [hv, hv', Subtype.ext hval])]
  | .block 0 m, .block (d + 1) m' => simp at hxlen hylen; omega
  | .block 0 m, .top free m' => simp at hxlen hylen; omega
  | .block (d + 1) m, .block 0 m' => simp at hxlen hylen; omega
  | .top free m, .block 0 m' => simp at hxlen hylen; omega
  | .block (d + 1) m, .block (d' + 1) m' =>
    obtain ⟨hl, hr⟩ := halves_injective (Option.some.inj (hxb.trans hyb.symm))
    obtain ⟨rfl, hleft⟩ := Subtree.block.inj
      (code_injective (listed_below hx false) (listed_below hy false) hl)
    obtain ⟨_, hright⟩ := Subtree.block.inj
      (code_injective (listed_below hx true) (listed_below hy true) hr)
    rw [block_ext hx hy (Bool.rec hleft hright)]
  | .block (d + 1) m, .top free m' =>
    obtain ⟨_, hr⟩ := halves_injective (Option.some.inj (hxb.trans hyb.symm))
    have hheight := (Subtree.block.inj (code_injective (listed_below hx true) (listed_under hy) hr)).1
    have hle := hx.le
    omega
  | .top free m, .block (d' + 1) m' =>
    obtain ⟨_, hr⟩ := halves_injective (Option.some.inj (hxb.trans hyb.symm))
    have hheight := (Subtree.block.inj (code_injective (listed_under hx) (listed_below hy true) hr)).1
    have hle := hy.le
    omega
  | .top free m, .top free' m' =>
    obtain ⟨hl, hr⟩ := halves_injective (Option.some.inj (hxb.trans hyb.symm))
    rw [formatNodeIndex_injective hl,
      (Subtree.block.inj (code_injective (listed_under hx) (listed_under hy) hr)).2]

theorem sum_encode {x : Subtree} (hx : Listed family x) {b : Bytes} (h : encode N family x = some b) :
    sum N family b = .ok (code N family x) := by
  have hne : b ≠ [] := by
    have hlen := encode_length h
    apply List.ne_nil_of_length_pos
    omega
  have hex : ∃ y, Listed family y ∧ encode N family y = some b := ⟨x, hx, h⟩
  unfold sum
  rw [if_neg hne, dif_pos hex, encode_injective hex.choose_spec.1 hx hex.choose_spec.2 h]

theorem sum_other {msg : Bytes} (hne : msg ≠ []) (h64 : msg.length ≠ 64) (h128 : msg.length ≠ 128) :
    sum N family msg = .ok 1 := by
  unfold sum
  rw [if_neg hne, dif_neg]
  rintro ⟨x, _, hx⟩
  have hlen := encode_length hx
  omega

def encodings (N : Numbering ι) (family : ι → IndexMap) : Set Bytes :=
  {b | ∃ x, Listed family x ∧ encode N family x = some b}

theorem code_ne_zero {x : Subtree} (hx : Listed family x) {b : Bytes}
    (h : encode N family x = some b) : code N family x ≠ 0 := by
  unfold code
  rw [dif_pos hx, if_neg]
  · exact N.nonzero _ hx.choose_spec.1
  · rintro rfl
    cases h

section Trees

variable [TrieHash] (htable : ∀ b, TrieHash.sum b = sum N family b)

include htable

theorem collisionFree : CollisionFree (encodings N family) := by
  constructor
  · rintro x ⟨s, hs, hx⟩ y ⟨t, ht, hy⟩ h hxh hyh
    rw [htable, sum_encode hs hx] at hxh
    rw [htable, sum_encode ht hy] at hyh
    obtain rfl := code_injective hs ht ((Except.ok.inj hxh).trans (Except.ok.inj hyh).symm)
    exact Option.some.inj (hx.symm.trans hy)
  · rintro x ⟨s, hs, hx⟩ hzero
    rw [htable, sum_encode hs hx] at hzero
    exact code_ne_zero hs hx (Except.ok.inj hzero)

theorem digest_eq {x : Subtree} (hx : Listed family x) {n : TreeNode} {b : Bytes}
    (hn : (Node.ofTree n).raw.toBytes = some b) (hb : encode N family x = some b) :
    treeDigest n = code N family x := by
  have hsum := (Node.ofTree n).sum_of_toBytes hn
  rw [htable, sum_encode hx hb] at hsum
  exact (Except.ok.inj hsum).symm

theorem root_eq {d : ℕ} {m : Leaves LeafValue} (h : Listed family (.block d m)) :
    MerkleTree.root treeDigest d m = code N family (.block d m) := by
  induction d generalizing m with
  | zero =>
    cases hm : m [] with
    | none =>
      have hnone : m = Leaves.none := by
        funext p
        cases p with
        | nil => exact hm
        | cons b p => exact h.leaf_length (by simp)
      subst hnone
      unfold code
      rw [if_pos rfl]
      rfl
    | some v =>
      have htop : MerkleTree.top treeDigest 0 m = .leaf v := by
        change MerkleTree.bottom (m []) = _
        rw [hm]
        rfl
      unfold MerkleTree.root
      rw [htop]
      apply digest_eq htable h (b := v.1) rfl
      rw [encode, hm]
      rfl
  | succ d ih =>
    apply digest_eq htable h rfl
    rw [encode, ← ih (listed_below h false), ← ih (listed_below h true)]
    rfl

theorem nodes_within {d : ℕ} {m : Leaves LeafValue} (h : Listed family (.block d m)) :
    ∀ x ∈ MerkleTree.nodes treeDigest d m, x ∈ within (encodings N family) := by
  induction d generalizing m with
  | zero =>
    intro x hx b hb
    rw [Set.mem_singleton_iff.mp hx] at hb
    refine ⟨_, h, ?_⟩
    change (Node.ofTree (MerkleTree.bottom (m []))).raw.toBytes = some b at hb
    rw [encode]
    cases hm : m [] with
    | none =>
      rw [hm] at hb
      cases hb
    | some v =>
      rw [hm] at hb
      exact hb
  | succ d ih =>
    rintro x (rfl | hx | hx)
    · intro b hb
      refine ⟨_, h, ?_⟩
      rw [encode, ← root_eq htable (listed_below h false), ← root_eq htable (listed_below h true)]
      exact hb
    · exact ih (listed_below h false) x hx
    · exact ih (listed_below h true) x hx

theorem top_within (free : UInt64) (f : ι) :
    worldTop free (leavesOf (family f)) ∈ within (encodings N family) := by
  intro b hb
  have hlisted : Listed family (.top free (leavesOf (family f))) := ⟨.top free f, trivial, rfl⟩
  refine ⟨_, hlisted, ?_⟩
  rw [encode, ← root_eq htable (listed_under hlisted)]
  exact hb

/-- Where one of the trees is empty, so is the table of empty subtrees among what is hashed. -/
theorem empty_within {f : ι} (hf : leavesOf (family f) = Leaves.none) :
    Zktrie.encodings emptyTrieNode ⊆ encodings N family := by
  have hblock (d : ℕ) (hd : d ≤ zkTrieDepth) : Listed family (.block d Leaves.none) := by
    refine ⟨.block (List.replicate (zkTrieDepth - d) false) f, ?_, ?_⟩
    · change (List.replicate (zkTrieDepth - d) false).length ≤ zkTrieDepth
      rw [List.length_replicate]
      omega
    · have hheight : zkTrieDepth - (List.replicate (zkTrieDepth - d) false).length = d := by
        rw [List.length_replicate]
        omega
      change Subtree.block _ _ = _
      rw [hheight, hf]
      rfl
  have hempty (k : ℕ) (hk : k ≤ zkTrieDepth) : Zktrie.encodings (emptyNodes k) ⊆ encodings N family := by
    induction k with
    | zero =>
      rintro b ⟨e, he, hb⟩
      rw [List.mem_singleton.mp he] at hb
      exact nodes_within htable (hblock 0 hk) _ (MerkleTree.top_mem_nodes _ 0 _) b hb
    | succ k ih =>
      rintro b ⟨e, he, hb⟩
      rcases List.mem_cons.mp he with rfl | he
      · exact nodes_within htable (hblock (k + 1) hk) _ (MerkleTree.top_mem_nodes _ _ _) b hb
      · exact ih (by omega) ⟨e, he, hb⟩
  rw [emptyTrieNode, initWorldState_eq]
  rintro b ⟨e, he, hb⟩
  rcases List.mem_cons.mp he with rfl | he
  · have htop := top_within htable 0 f
    rw [hf] at htop
    exact htop b hb
  · exact hempty zkTrieDepth le_rfl ⟨e, he, hb⟩

/-- A word outside the trees that is hashed to one is told apart from them, if no slot is one. -/
theorem collisionFree_insert {word : Bytes} (hslot : ∀ p : Place ι, p.Inside → N.slot p ≠ 1)
    (hword : sum N family word = .ok 1) : CollisionFree (insert word (encodings N family)) := by
  have hone {x : Subtree} (hx : Listed family x) : code N family x ≠ 1 := by
    unfold code
    rw [dif_pos hx]
    split_ifs
    · decide
    · exact hslot _ hx.choose_spec.1
  have hfree := collisionFree htable
  have hne {b : Bytes} (hb : b ∈ encodings N family) : TrieHash.sum b ≠ .ok 1 := by
    obtain ⟨x, hx, hxb⟩ := hb
    rw [htable, sum_encode hx hxb]
    intro h
    exact hone hx (Except.ok.inj h)
  have hsum : TrieHash.sum word = .ok 1 := (htable word).trans hword
  constructor
  · rintro x (rfl | hx) y (rfl | hy) h hxh hyh
    · rfl
    · exact absurd (hyh.trans (hxh.symm.trans hsum)) (hne hy)
    · exact absurd (hxh.trans (hyh.symm.trans hsum)) (hne hx)
    · exact hfree.injective x hx y hy h hxh hyh
  · rintro x (rfl | hx)
    · rw [hsum]
      intro h
      exact absurd (Except.ok.inj h) (by decide)
    · exact hfree.nonzero x hx

theorem commits (free : UInt64) (f : ι) :
    Commits (encodings N family) (worldRoot free (leavesOf (family f))) free (family f) where
  root_eq := rfl
  top := top_within htable free f
  nodes := nodes_within htable (listed_under ⟨.top 0 f, trivial, rfl⟩)

end Trees

end TableHash

end LineaSgxProver.Zktrie
