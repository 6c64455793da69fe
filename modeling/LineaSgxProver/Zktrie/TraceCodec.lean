import LineaSgxProver.Zktrie.Trace

namespace LineaSgxProver.Zktrie

open Library

/-- The fields of a struct in the order of their declaration, each with the decoder of its type. -/
inductive Fields (V ε : Type) : Type → Type 1 where
  | done {α : Type} (a : α) : Fields V ε α
  | field {α β : Type} (rest : Fields V ε (β → α)) (name : String) (decode : V → Except ε β) : Fields V ε α

/-- Every field is read from a member of its own, in this order. -/
inductive Fields.Reads {V ε : Type} : {α : Type} → Fields V ε α → List (String × V) → α → Prop where
  | done {α : Type} (a : α) : Reads (.done a) [] a
  | field {α β : Type} {rest : Fields V ε (β → α)} {members : List (String × V)} {f : β → α} {name : String}
      {decode : V → Except ε β} {v : V} {b : β} :
      Reads rest members f → decode v = .ok b → Reads (.field rest name decode) (members ++ [(name, v)]) (f b)

/-- The decoders of the types that the fields of a trace have. -/
structure Decoders (V ε : Type) where
  u64 : V → Except ε UInt64
  sh256 : V → Except ε SH256
  hexBytes : V → Except ε Bytes
  leafOpening : V → Except ε LeafOpening
  traceProof : V → Except ε TraceProof

section Structs

variable {V ε : Type} (d : Decoders V ε)

def ReadTrace.fields : Fields V ε ReadTrace :=
  Fields.done ReadTrace.mk
    |>.field "location" d.hexBytes
    |>.field "nextFreeNode" d.u64
    |>.field "subRoot" d.sh256
    |>.field "leaf" d.leafOpening
    |>.field "proof" d.traceProof
    |>.field "key" d.hexBytes
    |>.field "value" d.hexBytes

def ReadZeroTrace.fields : Fields V ε ReadZeroTrace :=
  Fields.done ReadZeroTrace.mk
    |>.field "location" d.hexBytes
    |>.field "nextFreeNode" d.u64
    |>.field "subRoot" d.sh256
    |>.field "leftLeaf" d.leafOpening
    |>.field "rightLeaf" d.leafOpening
    |>.field "leftProof" d.traceProof
    |>.field "rightProof" d.traceProof
    |>.field "key" d.hexBytes

def InsertionTrace.fields : Fields V ε InsertionTrace :=
  Fields.done InsertionTrace.mk
    |>.field "location" d.hexBytes
    |>.field "newNextFreeNode" d.u64
    |>.field "oldSubRoot" d.sh256
    |>.field "newSubRoot" d.sh256
    |>.field "leftProof" d.traceProof
    |>.field "newProof" d.traceProof
    |>.field "rightProof" d.traceProof
    |>.field "key" d.hexBytes
    |>.field "value" d.hexBytes
    |>.field "priorLeftLeaf" d.leafOpening
    |>.field "priorRightLeaf" d.leafOpening

def UpdateTrace.fields : Fields V ε UpdateTrace :=
  Fields.done UpdateTrace.mk
    |>.field "location" d.hexBytes
    |>.field "newNextFreeNode" d.u64
    |>.field "oldSubRoot" d.sh256
    |>.field "newSubRoot" d.sh256
    |>.field "proof" d.traceProof
    |>.field "key" d.hexBytes
    |>.field "oldValue" d.hexBytes
    |>.field "newValue" d.hexBytes
    |>.field "priorUpdatedLeaf" d.leafOpening

def DeletionTrace.fields : Fields V ε DeletionTrace :=
  Fields.done DeletionTrace.mk
    |>.field "location" d.hexBytes
    |>.field "newNextFreeNode" d.u64
    |>.field "oldSubRoot" d.sh256
    |>.field "newSubRoot" d.sh256
    |>.field "leftProof" d.traceProof
    |>.field "deleteProof" d.traceProof
    |>.field "rightProof" d.traceProof
    |>.field "key" d.hexBytes
    |>.field "deleteValue" d.hexBytes
    |>.field "priorLeftLeaf" d.leafOpening
    |>.field "priorDeleteLeaf" d.leafOpening
    |>.field "priorRightLeaf" d.leafOpening

end Structs

/-- What the decoders call of the crates `rlp` and `rlp_derive`. -/
structure RlpCrate where
  View : Type
  DecoderError : Type
  custom : String → DecoderError
  /-- `at` -/
  nth : View → ℕ → Except (Fault DecoderError) View
  valAt {α : Type} : (View → Except (Fault DecoderError) α) → View → ℕ → Except (Fault DecoderError) α
  itemCount : View → Except (Fault DecoderError) ℕ
  bytes : View → Except (Fault DecoderError) Bytes
  u64 : View → Except (Fault DecoderError) UInt64
  sh256 : View → Except (Fault DecoderError) SH256
  hexBytes : View → Except (Fault DecoderError) Bytes
  /-- `#[derive(RlpDecodable)]` -/
  derived {α : Type} : Fields View (Fault DecoderError) α → View → Except (Fault DecoderError) α

section Rlp

variable (r : RlpCrate)

def LeafOpening.decode (rlp : r.View) : Except (Fault r.DecoderError) LeafOpening := do
  let val ← r.bytes rlp
  orPanic (parse val)

def TraceProof.decode (rlp : r.View) : Except (Fault r.DecoderError) TraceProof := do
  let leafIndex ← r.valAt r.u64 rlp 0
  let rlp ← r.nth rlp 1
  let count ← r.itemCount rlp
  let siblings ← (List.range count).mapM fun i => r.valAt r.sh256 rlp i
  .ok ⟨leafIndex, siblings⟩

def RlpCrate.decoders : Decoders r.View (Fault r.DecoderError) :=
  ⟨r.u64, r.sh256, r.hexBytes, LeafOpening.decode r, TraceProof.decode r⟩

def Trace.decode (rlp : r.View) : Except (Fault r.DecoderError) Trace := do
  let rlp ← r.nth rlp 0
  let item ← r.nth rlp 0
  let ty ← r.bytes item
  if ty.length ≠ 4 then .error (.error (r.custom "ty expected to 4 bytes"))
  let rlp ← r.nth rlp 1
  match BigEndian.decode ty with
  | 4 => .deletion <$> r.derived (DeletionTrace.fields r.decoders) rlp
  | 3 => .update <$> r.derived (UpdateTrace.fields r.decoders) rlp
  | 2 => .insertion <$> r.derived (InsertionTrace.fields r.decoders) rlp
  | 1 => .readZero <$> r.derived (ReadZeroTrace.fields r.decoders) rlp
  | 0 => .read <$> r.derived (ReadTrace.fields r.decoders) rlp
  | _ => .error (.error (r.custom "unknown trace type"))

end Rlp

/-- What the traces take of the crates `serde` and `serde_json`, and of the types whose `Deserialize` comes
with them. -/
structure SerdeCrate where
  Value : Type
  Error : Type
  u64 : Value → Except (Fault Error) UInt64
  sh256 : Value → Except (Fault Error) SH256
  hexBytes : Value → Except (Fault Error) Bytes
  vec {α : Type} : (Value → Except (Fault Error) α) → Value → Except (Fault Error) (List α)
  /-- `#[derive(Deserialize)]` with `deny_unknown_fields` and `rename_all = "camelCase"` -/
  derived {α : Type} : Fields Value (Fault Error) α → Value → Except (Fault Error) α
  /-- `RawTrace`, whose `value` is flattened -/
  rawTrace : Value → Except (Fault Error) (UInt64 × Value)

section Serde

variable (s : SerdeCrate)

def LeafOpening.deserialize : s.Value → Except (Fault s.Error) LeafOpening :=
  s.derived
    (Fields.done LeafOpening.mk
      |>.field "hkey" s.sh256
      |>.field "hval" s.sh256
      |>.field "prevLeaf" s.u64
      |>.field "nextLeaf" s.u64)

def TraceProof.deserialize : s.Value → Except (Fault s.Error) TraceProof :=
  s.derived
    (Fields.done TraceProof.mk
      |>.field "leafIndex" s.u64
      |>.field "siblings" (s.vec s.sh256))

def SerdeCrate.decoders : Decoders s.Value (Fault s.Error) :=
  ⟨s.u64, s.sh256, s.hexBytes, LeafOpening.deserialize s, TraceProof.deserialize s⟩

def Trace.deserialize (value : s.Value) : Except (Fault s.Error) Trace := do
  let (ty, value) ← s.rawTrace value
  match ty.toNat with
  | 0 => .read <$> s.derived (ReadTrace.fields s.decoders) value
  | 1 => .readZero <$> s.derived (ReadZeroTrace.fields s.decoders) value
  | 2 => .insertion <$> s.derived (InsertionTrace.fields s.decoders) value
  | 3 => .update <$> s.derived (UpdateTrace.fields s.decoders) value
  | 4 => .deletion <$> s.derived (DeletionTrace.fields s.decoders) value
  | _ => .error .panic

end Serde

/-- How a format writes the types that the fields of a trace have. -/
structure Encoders (E : Type) where
  u64 : UInt64 → E
  sh256 : SH256 → E
  hexBytes : Bytes → E
  leafOpening : LeafOpening → E
  traceProof : TraceProof → E

section Members

variable {E : Type} (e : Encoders E)

def ReadTrace.members (t : ReadTrace) : List (String × E) :=
  [("location", e.hexBytes t.location), ("nextFreeNode", e.u64 t.nextFreeNode), ("subRoot", e.sh256 t.subRoot),
    ("leaf", e.leafOpening t.leaf), ("proof", e.traceProof t.proof), ("key", e.hexBytes t.key),
    ("value", e.hexBytes t.value)]

def ReadZeroTrace.members (t : ReadZeroTrace) : List (String × E) :=
  [("location", e.hexBytes t.location), ("nextFreeNode", e.u64 t.nextFreeNode), ("subRoot", e.sh256 t.subRoot),
    ("leftLeaf", e.leafOpening t.leftLeaf), ("rightLeaf", e.leafOpening t.rightLeaf),
    ("leftProof", e.traceProof t.leftProof), ("rightProof", e.traceProof t.rightProof), ("key", e.hexBytes t.key)]

def InsertionTrace.members (t : InsertionTrace) : List (String × E) :=
  [("location", e.hexBytes t.location), ("newNextFreeNode", e.u64 t.newNextFreeNode),
    ("oldSubRoot", e.sh256 t.oldSubRoot), ("newSubRoot", e.sh256 t.newSubRoot),
    ("leftProof", e.traceProof t.leftProof), ("newProof", e.traceProof t.newProof),
    ("rightProof", e.traceProof t.rightProof), ("key", e.hexBytes t.key), ("value", e.hexBytes t.value),
    ("priorLeftLeaf", e.leafOpening t.priorLeftLeaf), ("priorRightLeaf", e.leafOpening t.priorRightLeaf)]

def UpdateTrace.members (t : UpdateTrace) : List (String × E) :=
  [("location", e.hexBytes t.location), ("newNextFreeNode", e.u64 t.newNextFreeNode),
    ("oldSubRoot", e.sh256 t.oldSubRoot), ("newSubRoot", e.sh256 t.newSubRoot), ("proof", e.traceProof t.proof),
    ("key", e.hexBytes t.key), ("oldValue", e.hexBytes t.oldValue), ("newValue", e.hexBytes t.newValue),
    ("priorUpdatedLeaf", e.leafOpening t.priorUpdatedLeaf)]

def DeletionTrace.members (t : DeletionTrace) : List (String × E) :=
  [("location", e.hexBytes t.location), ("newNextFreeNode", e.u64 t.newNextFreeNode),
    ("oldSubRoot", e.sh256 t.oldSubRoot), ("newSubRoot", e.sh256 t.newSubRoot),
    ("leftProof", e.traceProof t.leftProof), ("deleteProof", e.traceProof t.deleteProof),
    ("rightProof", e.traceProof t.rightProof), ("key", e.hexBytes t.key),
    ("deleteValue", e.hexBytes t.deleteValue), ("priorLeftLeaf", e.leafOpening t.priorLeftLeaf),
    ("priorDeleteLeaf", e.leafOpening t.priorDeleteLeaf), ("priorRightLeaf", e.leafOpening t.priorRightLeaf)]

namespace Trace

def members : Trace → List (String × E)
  | read t => t.members e
  | readZero t => t.members e
  | insertion t => t.members e
  | update t => t.members e
  | deletion t => t.members e

def traceType : Trace → UInt64
  | read _ => 0
  | readZero _ => 1
  | insertion _ => 2
  | update _ => 3
  | deletion _ => 4

end Trace

end Members

/-- An item of the RLP format. -/
inductive RlpItem where
  | data (b : Bytes)
  | list (items : List RlpItem)

namespace RlpItem

/-- A number is written without leading zeros. -/
def ofU64 (n : UInt64) : RlpItem := data ((BigEndian.encode 8 n.toNat).dropWhile (· = 0))

def ofSH256 (h : SH256) : RlpItem := data (SH256.bytes h)

def encoders : Encoders RlpItem where
  u64 := ofU64
  sh256 := ofSH256
  hexBytes := data
  leafOpening l := data l.toBytes
  traceProof p := list [ofU64 p.leafIndex, list (p.siblings.map ofSH256)]

end RlpItem

def Trace.toRlp (t : Trace) : RlpItem :=
  .list [.list [.data (BigEndian.encode 4 t.traceType.toNat), .list ((t.members RlpItem.encoders).map Prod.snd)]]

/-- A value of the JSON format; a string of hex digits is given by its bytes. -/
inductive Json where
  | number (n : ℕ)
  | hex (b : Bytes)
  | array (items : List Json)
  | object (members : List (String × Json))

namespace Json

def ofU64 (n : UInt64) : Json := number n.toNat

def ofSH256 (h : SH256) : Json := hex (SH256.bytes h)

def encoders : Encoders Json where
  u64 := ofU64
  sh256 := ofSH256
  hexBytes := hex
  leafOpening l :=
    object [("hkey", ofSH256 l.hkey), ("hval", ofSH256 l.hval), ("prevLeaf", ofU64 l.prevLeaf),
      ("nextLeaf", ofU64 l.nextLeaf)]
  traceProof p := object [("leafIndex", ofU64 p.leafIndex), ("siblings", array (p.siblings.map ofSH256))]

end Json

def Trace.toJson (t : Trace) : Json := .object (("type", .ofU64 t.traceType) :: t.members Json.encoders)

/-- The views of the crate on the items of the format. -/
structure RlpCrate.Documented (r : RlpCrate) (view : RlpItem → r.View) : Prop where
  nth_list : ∀ {items i item}, items[i]? = some item → r.nth (view (.list items)) i = .ok (view item)
  valAt_list : ∀ {α} (decode : r.View → Except (Fault r.DecoderError) α) {items i item}, items[i]? = some item →
    r.valAt decode (view (.list items)) i = decode (view item)
  itemCount_list : ∀ items, r.itemCount (view (.list items)) = .ok items.length
  bytes_data : ∀ b, r.bytes (view (.data b)) = .ok b
  u64_data : ∀ n, r.u64 (view (.ofU64 n)) = .ok n
  sh256_data : ∀ h, r.sh256 (view (.ofSH256 h)) = .ok h
  hexBytes_data : ∀ b, r.hexBytes (view (.data b)) = .ok b
  derived_list : ∀ {α} {fields : Fields r.View (Fault r.DecoderError) α} {members a items},
    fields.Reads members a → members.map Prod.snd = items.map view →
      r.derived fields (view (.list items)) = .ok a

/-- The values of the crate for those of the format. -/
structure SerdeCrate.Documented (s : SerdeCrate) (value : Json → s.Value) : Prop where
  u64_number : ∀ n, s.u64 (value (.ofU64 n)) = .ok n
  sh256_hex : ∀ h, s.sh256 (value (.ofSH256 h)) = .ok h
  hexBytes_hex : ∀ b, s.hexBytes (value (.hex b)) = .ok b
  vec_array : ∀ {α} {decode : s.Value → Except (Fault s.Error) α} {items as},
    List.Forall₂ (fun item a => decode (value item) = .ok a) items as → s.vec decode (value (.array items)) = .ok as
  derived_object : ∀ {α} {fields : Fields s.Value (Fault s.Error) α} {members : List (String × Json)} {a},
    (members.map Prod.fst).Nodup → fields.Reads (members.map (Prod.map id value)) a →
      s.derived fields (value (.object members)) = .ok a
  rawTrace_object : ∀ ty {members : List (String × Json)}, "type" ∉ members.map Prod.fst →
    s.rawTrace (value (.object (("type", .ofU64 ty) :: members))) = .ok (ty, value (.object members))

end LineaSgxProver.Zktrie
