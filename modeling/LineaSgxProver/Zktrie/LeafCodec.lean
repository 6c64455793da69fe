import LineaSgxProver.Library.LinkedList
import LineaSgxProver.Library.Simulation
import LineaSgxProver.Zktrie.TraceCodec
import LineaSgxProver.Zktrie.Trie

namespace LineaSgxProver.Zktrie

open Library

namespace LeafOpening

def garbled (l : LeafOpening) : LeafOpening := l.newNextLeaf l.prevLeaf

theorem garbled_eq_iff {l : LeafOpening} : l.garbled = l ↔ l.prevLeaf = l.nextLeaf := by
  constructor
  · intro h
    exact congrArg nextLeaf h
  · intro h
    cases l
    simp only at h
    simp [garbled, newNextLeaf, h]

theorem asU64_encode (n : UInt64) : SU256.asU64 (SH256.ofBytes (BigEndian.encode 32 n.toNat)) = some n := by
  have hn : n.toNat < 256 ^ 32 := n.toNat_lt.trans (by decide)
  rw [SU256.asU64_eq_some, SH256.ofBytes_toNat _ (by simp), BigEndian.decode_encode 32 _ hn]

theorem parse_words {w₀ w₁ w₂ w₃ : Bytes} (h₀ : w₀.length = 32) (h₁ : w₁.length = 32)
    (h₂ : w₂.length = 32) (h₃ : w₃.length = 32) :
    parse (w₀ ++ w₁ ++ w₂ ++ w₃) =
      (SU256.asU64 (SH256.ofBytes w₀)).map fun prev => ⟨SH256.ofBytes w₂, SH256.ofBytes w₃, prev, prev⟩ := by
  have hlen : ¬ (w₀ ++ w₁ ++ w₂ ++ w₃).length < 96 := by
    simp only [List.length_append]
    omega
  have hval : SH256.fromSlice ((w₀ ++ w₁ ++ w₂ ++ w₃).drop 96) = some (SH256.ofBytes w₃) := by
    rw [List.drop_left' (by simp [h₀, h₁, h₂]), SH256.fromSlice, if_pos h₃]
  have hprev : (w₀ ++ w₁ ++ w₂ ++ w₃).take 32 = w₀ := by
    rw [List.append_assoc, List.append_assoc, List.take_left' h₀]
  have hkey : ((w₀ ++ w₁ ++ w₂ ++ w₃).drop 64).take 32 = w₂ := by
    rw [List.append_assoc, List.drop_left' (by simp [h₀, h₁]), List.take_left' h₂]
  unfold parse
  rw [if_neg hlen, hval, hprev, hkey, Option.map_eq_bind]
  rfl

theorem parse_toBytes (l : LeafOpening) : parse l.toBytes = some l.garbled := by
  rw [toBytes, parse_words (by simp) (by simp) (by simp) (by simp), asU64_encode, SH256.ofBytes_bytes,
    SH256.ofBytes_bytes]
  rfl

/-- A buffer comes back from the codec exactly when its first two words agree. -/
theorem toBytes_parse_iff {buf : Bytes} (hlen : buf.length = 128)
    (hprev : BigEndian.decode (buf.take 32) < 2 ^ 64) :
    (∃ l, parse buf = some l ∧ l.toBytes = buf) ↔ buf.take 32 = (buf.drop 32).take 32 := by
  obtain ⟨w₀, rest, rfl, h₀, hlen⟩ := exists_word (n := 96) hlen
  obtain ⟨w₁, rest, rfl, h₁, hlen⟩ := exists_word (n := 64) hlen
  obtain ⟨w₂, w₃, rfl, h₂, h₃⟩ := exists_word (n := 32) hlen
  simp only [← List.append_assoc] at *
  have hfirst : (w₀ ++ w₁ ++ w₂ ++ w₃).take 32 = w₀ := by
    rw [List.append_assoc, List.append_assoc, List.take_left' h₀]
  have hsecond : ((w₀ ++ w₁ ++ w₂ ++ w₃).drop 32).take 32 = w₁ := by
    rw [List.append_assoc, List.append_assoc, List.drop_left' h₀, List.take_left' h₁]
  rw [hfirst] at hprev
  rw [hfirst, hsecond, parse_words h₀ h₁ h₂ h₃, SU256.asU64, SH256.ofBytes_toNat _ h₀.le, if_pos hprev]
  have hword : BigEndian.encode 32 (UInt64.ofNat (BigEndian.decode w₀)).toNat = w₀ := by
    rw [UInt64.toNat_ofNat', Nat.mod_eq_of_lt hprev, ← h₀, BigEndian.encode_decode]
  have hbytes : toBytes ⟨SH256.ofBytes w₂, SH256.ofBytes w₃, UInt64.ofNat (BigEndian.decode w₀),
      UInt64.ofNat (BigEndian.decode w₀)⟩ = w₀ ++ w₀ ++ w₂ ++ w₃ := by
    rw [toBytes, hword, SH256.bytes_ofBytes w₂ h₂, SH256.bytes_ofBytes w₃ h₃]
  constructor
  · rintro ⟨l, hl, hback⟩
    rw [← Option.some.inj hl, hbytes] at hback
    simpa using hback
  · intro heq
    refine ⟨_, rfl, ?_⟩
    rw [hbytes, heq]

end LeafOpening

namespace ZkTrie

variable [TrieHash] {D : Type} [Database D]

theorem rewriteLeaf_eq {s : Session D} {path : Bytes} {node : Node} {l : LeafOpening}
    (hget : SpareMerkleTrie.getNode path s = .ok (some node)) (hdata : node.raw.value = some l.toBytes)
    (change : LeafOpening → LeafOpening) :
    rewriteLeaf LeafOpening.parse path change s =
      SpareMerkleTrie.put path (change l.garbled).toBytes s := by
  have hparse : parseNode LeafOpening.parse path s = .ok l.garbled := by
    unfold parseNode
    simp only [hget, ok_bind, hdata, LeafOpening.parse_toBytes, orPanic_some]
  unfold rewriteLeaf
  rw [Action.bind_apply, Action.read, hparse]

end ZkTrie

section Traces

namespace Trace

def openings : Trace → List LeafOpening
  | read t => [t.leaf]
  | readZero t => [t.leftLeaf, t.rightLeaf]
  | insertion t => [t.priorLeftLeaf, t.priorRightLeaf]
  | update t => [t.priorUpdatedLeaf]
  | deletion t => [t.priorLeftLeaf, t.priorDeleteLeaf, t.priorRightLeaf]

def mapOpenings (f : LeafOpening → LeafOpening) : Trace → Trace
  | read t => read { t with leaf := f t.leaf }
  | readZero t => readZero { t with leftLeaf := f t.leftLeaf, rightLeaf := f t.rightLeaf }
  | insertion t =>
    insertion { t with priorLeftLeaf := f t.priorLeftLeaf, priorRightLeaf := f t.priorRightLeaf }
  | update t => update { t with priorUpdatedLeaf := f t.priorUpdatedLeaf }
  | deletion t =>
    deletion { t with
      priorLeftLeaf := f t.priorLeftLeaf
      priorDeleteLeaf := f t.priorDeleteLeaf
      priorRightLeaf := f t.priorRightLeaf }

theorem openings_mapOpenings (f : LeafOpening → LeafOpening) (t : Trace) :
    (t.mapOpenings f).openings = t.openings.map f := by
  cases t <;> rfl

end Trace

section Structs

variable {V ε E : Type}

/-- The decoders read what the encoders have written, up to a change of the openings. -/
structure Inverts (d : Decoders V ε) (e : Encoders E) (view : E → V) (f : LeafOpening → LeafOpening) : Prop where
  u64 : ∀ n, d.u64 (view (e.u64 n)) = .ok n
  sh256 : ∀ h, d.sh256 (view (e.sh256 h)) = .ok h
  hexBytes : ∀ b, d.hexBytes (view (e.hexBytes b)) = .ok b
  leafOpening : ∀ l, d.leafOpening (view (e.leafOpening l)) = .ok (f l)
  traceProof : ∀ p, d.traceProof (view (e.traceProof p)) = .ok p

variable {d : Decoders V ε} {e : Encoders E} {view : E → V} {f : LeafOpening → LeafOpening} (h : Inverts d e view f)

include h

open Fields (Reads)

theorem Inverts.read (t : ReadTrace) : (ReadTrace.fields d).Reads ((t.members e).map (Prod.map id view))
    { t with leaf := f t.leaf } :=
  (Reads.done ReadTrace.mk)
    |>.field (h.hexBytes t.location)
    |>.field (h.u64 t.nextFreeNode)
    |>.field (h.sh256 t.subRoot)
    |>.field (h.leafOpening t.leaf)
    |>.field (h.traceProof t.proof)
    |>.field (h.hexBytes t.key)
    |>.field (h.hexBytes t.value)

theorem Inverts.readZero (t : ReadZeroTrace) :
    (ReadZeroTrace.fields d).Reads ((t.members e).map (Prod.map id view))
      { t with leftLeaf := f t.leftLeaf, rightLeaf := f t.rightLeaf } :=
  (Reads.done ReadZeroTrace.mk)
    |>.field (h.hexBytes t.location)
    |>.field (h.u64 t.nextFreeNode)
    |>.field (h.sh256 t.subRoot)
    |>.field (h.leafOpening t.leftLeaf)
    |>.field (h.leafOpening t.rightLeaf)
    |>.field (h.traceProof t.leftProof)
    |>.field (h.traceProof t.rightProof)
    |>.field (h.hexBytes t.key)

theorem Inverts.insertion (t : InsertionTrace) :
    (InsertionTrace.fields d).Reads ((t.members e).map (Prod.map id view))
      { t with priorLeftLeaf := f t.priorLeftLeaf, priorRightLeaf := f t.priorRightLeaf } :=
  (Reads.done InsertionTrace.mk)
    |>.field (h.hexBytes t.location)
    |>.field (h.u64 t.newNextFreeNode)
    |>.field (h.sh256 t.oldSubRoot)
    |>.field (h.sh256 t.newSubRoot)
    |>.field (h.traceProof t.leftProof)
    |>.field (h.traceProof t.newProof)
    |>.field (h.traceProof t.rightProof)
    |>.field (h.hexBytes t.key)
    |>.field (h.hexBytes t.value)
    |>.field (h.leafOpening t.priorLeftLeaf)
    |>.field (h.leafOpening t.priorRightLeaf)

theorem Inverts.update (t : UpdateTrace) :
    (UpdateTrace.fields d).Reads ((t.members e).map (Prod.map id view))
      { t with priorUpdatedLeaf := f t.priorUpdatedLeaf } :=
  (Reads.done UpdateTrace.mk)
    |>.field (h.hexBytes t.location)
    |>.field (h.u64 t.newNextFreeNode)
    |>.field (h.sh256 t.oldSubRoot)
    |>.field (h.sh256 t.newSubRoot)
    |>.field (h.traceProof t.proof)
    |>.field (h.hexBytes t.key)
    |>.field (h.hexBytes t.oldValue)
    |>.field (h.hexBytes t.newValue)
    |>.field (h.leafOpening t.priorUpdatedLeaf)

theorem Inverts.deletion (t : DeletionTrace) :
    (DeletionTrace.fields d).Reads ((t.members e).map (Prod.map id view))
      { t with
        priorLeftLeaf := f t.priorLeftLeaf
        priorDeleteLeaf := f t.priorDeleteLeaf
        priorRightLeaf := f t.priorRightLeaf } :=
  (Reads.done DeletionTrace.mk)
    |>.field (h.hexBytes t.location)
    |>.field (h.u64 t.newNextFreeNode)
    |>.field (h.sh256 t.oldSubRoot)
    |>.field (h.sh256 t.newSubRoot)
    |>.field (h.traceProof t.leftProof)
    |>.field (h.traceProof t.deleteProof)
    |>.field (h.traceProof t.rightProof)
    |>.field (h.hexBytes t.key)
    |>.field (h.hexBytes t.deleteValue)
    |>.field (h.leafOpening t.priorLeftLeaf)
    |>.field (h.leafOpening t.priorDeleteLeaf)
    |>.field (h.leafOpening t.priorRightLeaf)

end Structs

section Rlp

variable {r : RlpCrate} {view : RlpItem → r.View}

theorem TraceProof.decode_encode (hr : r.Documented view) (p : TraceProof) :
    TraceProof.decode r (view (RlpItem.encoders.traceProof p)) = .ok p := by
  have hindex : r.valAt r.u64 (view (RlpItem.encoders.traceProof p)) 0 = .ok p.leafIndex := by
    rw [RlpItem.encoders, hr.valAt_list r.u64 rfl, hr.u64_data]
  have hlist : r.nth (view (RlpItem.encoders.traceProof p)) 1 =
      .ok (view (.list (p.siblings.map RlpItem.ofSH256))) := hr.nth_list rfl
  have hsiblings : ((List.range p.siblings.length).mapM fun i =>
      r.valAt r.sh256 (view (.list (p.siblings.map RlpItem.ofSH256))) i) = .ok p.siblings := by
    apply mapM_eq_ok.mpr
    apply List.forall₂_iff_get.mpr
    refine ⟨List.length_range, fun i _ hi => ?_⟩
    have hitem : (p.siblings.map RlpItem.ofSH256)[i]? = some (.ofSH256 p.siblings[i]) := by
      rw [List.getElem?_map, List.getElem?_eq_getElem hi]
      rfl
    rw [List.get_eq_getElem, List.getElem_range, hr.valAt_list r.sh256 hitem, hr.sh256_data]
    rfl
  unfold TraceProof.decode
  rw [hindex, ok_bind, hlist, ok_bind, hr.itemCount_list, ok_bind, List.length_map, hsiblings]
  rfl

theorem RlpCrate.Documented.inverts (hr : r.Documented view) :
    Inverts r.decoders RlpItem.encoders view LeafOpening.garbled where
  u64 := hr.u64_data
  sh256 := hr.sh256_data
  hexBytes := hr.hexBytes_data
  leafOpening l := by
    show LeafOpening.decode r (view (.data l.toBytes)) = _
    unfold LeafOpening.decode
    rw [hr.bytes_data, ok_bind, LeafOpening.parse_toBytes]
    rfl
  traceProof := TraceProof.decode_encode hr

theorem RlpCrate.Documented.derived_members (hr : r.Documented view) {α : Type}
    {fields : Fields r.View (Fault r.DecoderError) α} {members : List (String × RlpItem)} {a : α}
    (h : fields.Reads (members.map (Prod.map id view)) a) :
    r.derived fields (view (.list (members.map Prod.snd))) = .ok a := by
  apply hr.derived_list h
  rw [List.map_map, List.map_map]
  rfl

/-- RLP garbles every opening of a trace. -/
theorem Trace.decode_toRlp (hr : r.Documented view) (t : Trace) :
    Trace.decode r (view t.toRlp) = .ok (t.mapOpenings LeafOpening.garbled) := by
  have hty : BigEndian.decode (BigEndian.encode 4 t.traceType.toNat) = t.traceType.toNat := by
    apply BigEndian.decode_encode
    cases t <;> simp only [traceType] <;> decide
  unfold Trace.decode Trace.toRlp
  rw [hr.nth_list rfl, ok_bind, hr.nth_list rfl, ok_bind, hr.bytes_data, ok_bind, if_neg (by simp)]
  show (r.nth _ 1 >>= _) = _
  rw [hr.nth_list rfl, ok_bind, hty]
  cases t with
  | read t => exact congrArg (Functor.map read) (hr.derived_members (hr.inverts.read t))
  | readZero t => exact congrArg (Functor.map readZero) (hr.derived_members (hr.inverts.readZero t))
  | insertion t => exact congrArg (Functor.map insertion) (hr.derived_members (hr.inverts.insertion t))
  | update t => exact congrArg (Functor.map update) (hr.derived_members (hr.inverts.update t))
  | deletion t => exact congrArg (Functor.map deletion) (hr.derived_members (hr.inverts.deletion t))

end Rlp

section Serde

variable {c : SerdeCrate} {value : Json → c.Value}

theorem SerdeCrate.Documented.inverts (hc : c.Documented value) : Inverts c.decoders Json.encoders value id where
  u64 := hc.u64_number
  sh256 := hc.sh256_hex
  hexBytes := hc.hexBytes_hex
  leafOpening l :=
    hc.derived_object (by simp) <| (Fields.Reads.done LeafOpening.mk)
      |>.field (hc.sh256_hex l.hkey)
      |>.field (hc.sh256_hex l.hval)
      |>.field (hc.u64_number l.prevLeaf)
      |>.field (hc.u64_number l.nextLeaf)
  traceProof p :=
    hc.derived_object (by simp) <| (Fields.Reads.done TraceProof.mk)
      |>.field (hc.u64_number p.leafIndex)
      |>.field (hc.vec_array (List.forall₂_map_left_iff.mpr (List.forall₂_same.mpr fun h _ => hc.sh256_hex h)))

theorem Trace.names_nodup {E : Type} (e : Encoders E) (t : Trace) :
    ("type" :: (t.members e).map Prod.fst).Nodup := by
  cases t <;> simp only [members, ReadTrace.members, ReadZeroTrace.members, InsertionTrace.members,
    UpdateTrace.members, DeletionTrace.members, List.map_cons, List.map_nil] <;> decide

theorem Trace.deserialize_toJson (hc : c.Documented value) (t : Trace) :
    Trace.deserialize c (value t.toJson) = .ok t := by
  obtain ⟨htype, hnodup⟩ := List.nodup_cons.mp (t.names_nodup Json.encoders)
  have hmembers : ∀ {α} {fields : Fields c.Value (Fault c.Error) α} {a},
      fields.Reads ((t.members Json.encoders).map (Prod.map id value)) a →
        c.derived fields (value (.object (t.members Json.encoders))) = .ok a :=
    hc.derived_object hnodup
  unfold Trace.deserialize Trace.toJson
  rw [hc.rawTrace_object _ htype, ok_bind]
  cases t with
  | read t => exact congrArg (Functor.map read) (hmembers (hc.inverts.read t))
  | readZero t => exact congrArg (Functor.map readZero) (hmembers (hc.inverts.readZero t))
  | insertion t => exact congrArg (Functor.map insertion) (hmembers (hc.inverts.insertion t))
  | update t => exact congrArg (Functor.map update) (hmembers (hc.inverts.update t))
  | deletion t => exact congrArg (Functor.map deletion) (hmembers (hc.inverts.deletion t))

end Serde

end Traces

namespace LeafOpening

theorem newHval_garbled_iff (l : LeafOpening) (hval : SH256) :
    (l.garbled.newHval hval).toBytes = (l.newHval hval).toBytes ↔ l.prevLeaf = l.nextLeaf := by
  constructor
  · intro h
    exact congrArg nextLeaf (toBytes_injective h)
  · intro h
    rw [garbled_eq_iff.mpr h]

theorem newPrevLeaf_garbled_iff (l : LeafOpening) (prevLeaf : UInt64) :
    (l.garbled.newPrevLeaf prevLeaf).toBytes = (l.newPrevLeaf prevLeaf).toBytes ↔
      l.prevLeaf = l.nextLeaf := by
  constructor
  · intro h
    exact congrArg nextLeaf (toBytes_injective h)
  · intro h
    rw [garbled_eq_iff.mpr h]

theorem map_garbled_iff (ls : List LeafOpening) :
    ls.map garbled = ls ↔ ∀ l ∈ ls, l.prevLeaf = l.nextLeaf := by
  have hself : ls.map garbled = ls.map id ↔ ∀ l ∈ ls, garbled l = id l := List.map_inj_left
  rw [List.map_id] at hself
  simp only [hself, id_eq, garbled_eq_iff]

/-- The codec is faithful to an opening, a buffer, a rewritten leaf and a trace's openings exactly when
the two pointers of each agree; only a rewrite of the next pointer itself is always right. -/
theorem codec_iff [TrieHash] {D : Type} [Database D] (l : LeafOpening) {buf : Bytes}
    (hlen : buf.length = 128) (hprev : BigEndian.decode (buf.take 32) < 2 ^ 64) {s : Session D}
    {path : Bytes} {node : Node} (hget : SpareMerkleTrie.getNode path s = .ok (some node))
    (hdata : node.raw.value = some l.toBytes) {r : RlpCrate} {view : RlpItem → r.View} (hr : r.Documented view)
    {c : SerdeCrate} {value : Json → c.Value} (hc : c.Documented value) (t : Trace) :
    (parse l.toBytes = some l ↔ l.prevLeaf = l.nextLeaf) ∧
      ((∃ k, parse buf = some k ∧ k.toBytes = buf) ↔ buf.take 32 = (buf.drop 32).take 32) ∧
      (∀ change, ZkTrie.rewriteLeaf parse path change s =
        SpareMerkleTrie.put path (change l.garbled).toBytes s) ∧
      (∀ hval, (l.garbled.newHval hval).toBytes = (l.newHval hval).toBytes ↔ l.prevLeaf = l.nextLeaf) ∧
      (∀ nextLeaf, (l.garbled.newNextLeaf nextLeaf).toBytes = (l.newNextLeaf nextLeaf).toBytes) ∧
      (∀ prevLeaf, (l.garbled.newPrevLeaf prevLeaf).toBytes = (l.newPrevLeaf prevLeaf).toBytes ↔
        l.prevLeaf = l.nextLeaf) ∧
      ∃ rlp json, Trace.decode r (view t.toRlp) = .ok rlp ∧ Trace.deserialize c (value t.toJson) = .ok json ∧
        (rlp.openings = json.openings ↔ ∀ k ∈ t.openings, k.prevLeaf = k.nextLeaf) := by
  refine ⟨?_, toBytes_parse_iff hlen hprev, ZkTrie.rewriteLeaf_eq hget hdata, l.newHval_garbled_iff,
    fun _ => rfl, l.newPrevLeaf_garbled_iff, _, t, t.decode_toRlp hr, t.deserialize_toJson hc, ?_⟩
  · rw [parse_toBytes, Option.some.injEq, garbled_eq_iff]
  · rw [t.openings_mapOpenings, map_garbled_iff]

end LeafOpening

section Sample

variable {V ε α : Type}

def Fields.size {α : Type} : Fields V ε α → ℕ
  | .done _ => 0
  | .field rest _ _ => rest.size + 1

/-- The fields one by one, each from what `get` finds for its name and position. -/
def Fields.decode (get : String → ℕ → Except ε V) {α : Type} : Fields V ε α → Except ε α
  | .done a => .ok a
  | .field rest name decode => do
    let f ← rest.decode get
    let v ← get name rest.size
    let b ← decode v
    .ok (f b)

theorem Fields.Reads.length_eq {fields : Fields V ε α} {members : List (String × V)} {a : α}
    (h : fields.Reads members a) : members.length = fields.size := by
  induction h with
  | done => rfl
  | field _ _ ih => rw [List.length_append, ih, Fields.size, List.length_singleton]

theorem Fields.Reads.decode_eq {get : String → ℕ → Except ε V} {fields : Fields V ε α}
    {members : List (String × V)} {a : α} (h : fields.Reads members a)
    (hget : ∀ i name v, members[i]? = some (name, v) → get name i = .ok v) : fields.decode get = .ok a := by
  induction h with
  | done => rfl
  | @field _ _ rest members f name decode v b hrest hdecode ih =>
    have hf : rest.decode get = .ok f := by
      apply ih
      intro i other w hi
      have hlt : i < members.length := (List.getElem?_eq_some_iff.mp hi).1
      exact hget i other w (by rw [List.getElem?_append_left hlt, hi])
    have hv : get name rest.size = .ok v := by
      apply hget
      rw [← hrest.length_eq, List.getElem?_append_right le_rfl, Nat.sub_self]
      rfl
    rw [Fields.decode, hf, ok_bind, hv, ok_bind, hdecode]
    rfl

namespace RlpItem

def nth : RlpItem → ℕ → Except (Fault String) RlpItem
  | list items, i =>
    match items[i]? with
    | some item => .ok item
    | none => .error (.error "RlpIsTooShort")
  | data _, _ => .error (.error "RlpExpectedToBeList")

def bytes : RlpItem → Except (Fault String) Bytes
  | data b => .ok b
  | list _ => .error (.error "RlpExpectedToBeData")

def u64 (item : RlpItem) : Except (Fault String) UInt64 := do
  let b ← item.bytes
  if b.length ≤ 8 then
    if b.head? = some 0 then .error (.error "RlpInvalidIndirection")
    else .ok (UInt64.ofNat (BigEndian.decode b))
  else .error (.error "RlpIsTooBig")

def sh256 (item : RlpItem) : Except (Fault String) SH256 := do
  let b ← item.bytes
  if b.length < 32 then .error (.error "RlpIsTooShort")
  else if 32 < b.length then .error (.error "RlpIsTooBig")
  else .ok (SH256.ofBytes b)

theorem u64_ofU64 (n : UInt64) : (ofU64 n).u64 = .ok n := by
  let b := (BigEndian.encode 8 n.toNat).dropWhile (· = 0)
  have hlen : b.length ≤ 8 := by
    have hsub := (List.dropWhile_sublist (p := fun x : UInt8 => decide (x = 0))
      (l := BigEndian.encode 8 n.toNat)).length_le
    rwa [BigEndian.encode_length] at hsub
  have hhead : b.head? ≠ some 0 := by
    intro h
    have hnot := List.head?_dropWhile_not (fun x : UInt8 => decide (x = 0)) (BigEndian.encode 8 n.toNat)
    rw [show (BigEndian.encode 8 n.toNat).dropWhile (fun x => decide (x = 0)) = b from rfl, h] at hnot
    simp at hnot
  change (if b.length ≤ 8 then if b.head? = some 0 then _
    else Except.ok (UInt64.ofNat (BigEndian.decode b)) else _) = _
  rw [if_pos hlen, if_neg hhead, BigEndian.decode_dropWhile, BigEndian.decode_encode 8 _ n.toNat_lt,
    UInt64.ofNat_toNat]

theorem sh256_ofSH256 (h : SH256) : (ofSH256 h).sh256 = .ok h := by
  have hlen : (SH256.bytes h).length = 32 := SH256.bytes_length h
  unfold sh256 ofSH256 bytes
  change (if (SH256.bytes h).length < 32 then _ else if 32 < (SH256.bytes h).length then _ else _) = _
  rw [if_neg (by omega), if_neg (by omega), SH256.ofBytes_bytes]

theorem nth_list {items : List RlpItem} {i : ℕ} {item : RlpItem} (h : items[i]? = some item) :
    (list items).nth i = .ok item := by
  rw [nth, h]

end RlpItem

abbrev sampleRlp : RlpCrate where
  View := RlpItem
  DecoderError := String
  custom := id
  nth := RlpItem.nth
  valAt decode item i := item.nth i >>= decode
  itemCount
    | .list items => .ok items.length
    | .data _ => .error (.error "RlpExpectedToBeList")
  bytes := RlpItem.bytes
  u64 := RlpItem.u64
  sh256 := RlpItem.sh256
  hexBytes := RlpItem.bytes
  derived fields item := fields.decode fun _ i => item.nth i

theorem sampleRlp_documented : sampleRlp.Documented id where
  nth_list := RlpItem.nth_list
  valAt_list decode _ _ _ h := by
    show RlpItem.nth _ _ >>= decode = _
    rw [id, RlpItem.nth_list h]
    rfl
  itemCount_list _ := rfl
  bytes_data _ := rfl
  u64_data := RlpItem.u64_ofU64
  sh256_data := RlpItem.sh256_ofSH256
  hexBytes_data _ := rfl
  derived_list {_ _ members _ items} h hitems := by
    apply h.decode_eq
    intro i name v hi
    apply RlpItem.nth_list
    have hitem : (items.map id)[i]? = some v := by
      rw [← hitems, List.getElem?_map, hi]
      rfl
    rwa [List.map_id] at hitem

namespace Json

def u64 : Json → Except (Fault String) UInt64
  | number n => if n < 2 ^ 64 then .ok (UInt64.ofNat n) else .error (.error "invalid value")
  | _ => .error (.error "invalid type")

def bytes : Json → Except (Fault String) Bytes
  | hex b => .ok b
  | _ => .error (.error "invalid type")

def sh256 (j : Json) : Except (Fault String) SH256 := do
  let b ← j.bytes
  match SH256.fromSlice b with
  | some h => .ok h
  | none => .error (.error "invalid length")

def items : Json → Except (Fault String) (List Json)
  | array items => .ok items
  | _ => .error (.error "invalid type")

def members : Json → Except (Fault String) (List (String × Json))
  | object members => .ok members
  | _ => .error (.error "invalid type")

def member (members : List (String × Json)) (name : String) : Except (Fault String) Json :=
  match members.lookup name with
  | some j => .ok j
  | none => .error (.error "missing field")

theorem member_of_mem {members : List (String × Json)} {name : String} {j : Json}
    (hnodup : (members.map Prod.fst).Nodup) (h : (name, j) ∈ members) : member members name = .ok j := by
  have hlookup : members.lookup name = some j := (AssocList.toMap_eq_some_iff hnodup).mpr h
  rw [member, hlookup]

theorem u64_ofU64 (n : UInt64) : (ofU64 n).u64 = .ok n := by
  have hn : n.toNat < 2 ^ 64 := n.toNat_lt
  rw [ofU64, u64, if_pos hn, UInt64.ofNat_toNat]

theorem sh256_ofSH256 (h : SH256) : (ofSH256 h).sh256 = .ok h := by
  have hslice : SH256.fromSlice (SH256.bytes h) = some h := by
    rw [SH256.fromSlice, if_pos (SH256.bytes_length h), SH256.ofBytes_bytes]
  have hbytes : (ofSH256 h).bytes = .ok (SH256.bytes h) := rfl
  unfold sh256
  rw [hbytes, ok_bind, hslice]

end Json

abbrev sampleSerde : SerdeCrate where
  Value := Json
  Error := String
  u64 := Json.u64
  sh256 := Json.sh256
  hexBytes := Json.bytes
  vec decode j := do
    let items ← j.items
    items.mapM decode
  derived fields j := do
    let members ← j.members
    if members.length = fields.size then fields.decode fun name _ => Json.member members name
    else .error (.error "unknown field")
  rawTrace j := do
    let members ← j.members
    let ty ← Json.member members "type"
    let ty ← ty.u64
    .ok (ty, .object (members.filter (·.1 ≠ "type")))

theorem sampleSerde_documented : sampleSerde.Documented id where
  u64_number := Json.u64_ofU64
  sh256_hex := Json.sh256_ofSH256
  hexBytes_hex _ := rfl
  vec_array h := mapM_eq_ok.mpr h
  derived_object {_ fields members _} hnodup h := by
    rw [Prod.map_id, List.map_id] at h
    show (if members.length = fields.size then fields.decode fun name _ => Json.member members name
      else .error (.error "unknown field")) = _
    rw [if_pos h.length_eq]
    exact h.decode_eq fun _ _ _ hi => Json.member_of_mem hnodup (List.mem_of_getElem? hi)
  rawTrace_object ty members htype := by
    have hmember : Json.member (("type", .ofU64 ty) :: members) "type" = .ok (.ofU64 ty) := by
      rw [Json.member, List.lookup_cons_self]
    have hothers : (("type", Json.ofU64 ty) :: members).filter (·.1 ≠ "type") = members := by
      rw [List.filter_cons_of_neg (by simp), List.filter_eq_self]
      intro p hp
      have hne : p.1 ≠ "type" := fun h => htype (h ▸ List.mem_map_of_mem hp)
      simpa using hne
    show (do
      let ty ← Json.member (("type", .ofU64 ty) :: members) "type"
      let ty ← ty.u64
      .ok (ty, Json.object ((("type", Json.ofU64 ty) :: members).filter (·.1 ≠ "type")))) = _
    rw [hmember, ok_bind, Json.u64_ofU64, ok_bind, hothers]
    rfl

namespace LeafOpening

/-- A leaf that is its own neighbour on both sides. -/
def loop : LeafOpening := ⟨3, 4, 5, 5⟩

def sampleSession [TrieHash] : Session PrefixDB :=
  ⟨⟨2⟩, ⟨0, ⟨[(2, Node.ofLeafValue loop.leafValue)], ⟨[]⟩, []⟩⟩⟩

def sampleTrace (l : LeafOpening) : Trace := .read ⟨[], 2, 0, l, ⟨0, []⟩, [1], [7]⟩

theorem codec_iff_sample :
    letI := residueHash
    parse loop.toBytes = some loop ∧ (∃ k, parse loop.toBytes = some k ∧ k.toBytes = loop.toBytes) ∧
      (∀ change, ZkTrie.rewriteLeaf parse [LeafType.value] change sampleSession =
        SpareMerkleTrie.put [LeafType.value] (change loop).toBytes sampleSession) ∧
      ∃ rlp json, Trace.decode sampleRlp (sampleTrace loop).toRlp = .ok rlp ∧
        Trace.deserialize sampleSerde (sampleTrace loop).toJson = .ok json ∧ rlp.openings = json.openings := by
  let := residueHash
  have hvalue : (SpareMerkleTrie.getNode [LeafType.value] sampleSession).toOption.map
      (·.map (·.raw.value)) = some (some (some loop.toBytes)) := by
    decide +kernel
  obtain ⟨found, hfound, hsome⟩ := Option.map_eq_some_iff.mp hvalue
  obtain ⟨node, rfl, hdata⟩ := Option.map_eq_some_iff.mp hsome
  have hget : SpareMerkleTrie.getNode [LeafType.value] sampleSession = .ok (some node) := by
    cases h : SpareMerkleTrie.getNode [LeafType.value] sampleSession with
    | ok result =>
      rw [h] at hfound
      rw [Option.some.inj hfound]
    | error e =>
      rw [h] at hfound
      cases hfound
  obtain ⟨hparse, hbuf, hrewrite, _, _, _, rlp, json, hrlp, hjson, hopenings⟩ :=
    codec_iff loop loop.toBytes_length (by decide +kernel) hget hdata sampleRlp_documented sampleSerde_documented
      (sampleTrace loop)
  have hgarbled : loop.garbled = loop := by decide
  rw [hgarbled] at hrewrite
  exact ⟨hparse.mpr rfl, hbuf.mpr (by decide +kernel), hrewrite, rlp, json, hrlp, hjson,
    hopenings.mpr (by decide)⟩

/-- The head leaf comes back pointing to itself, and by RLP other than by JSON. -/
theorem head_garbled :
    parse head.toBytes = some ⟨0, 0, 0, 0⟩ ∧ parse head.toBytes ≠ some head ∧
      (∃ k, parse head.toBytes = some k ∧ k.toBytes ≠ head.toBytes) ∧
      ∃ rlp json, Trace.decode sampleRlp (sampleTrace head).toRlp = .ok rlp ∧
        Trace.deserialize sampleSerde (sampleTrace head).toJson = .ok json ∧ rlp.openings ≠ json.openings := by
  refine ⟨parse_toBytes head, ?_, ⟨_, parse_toBytes head, ?_⟩, _, _,
    (sampleTrace head).decode_toRlp sampleRlp_documented,
    (sampleTrace head).deserialize_toJson sampleSerde_documented, ?_⟩
  · rw [parse_toBytes]
    decide
  · intro h
    exact absurd (toBytes_injective h) (by decide)
  · decide

end LeafOpening

end Sample

end LineaSgxProver.Zktrie
