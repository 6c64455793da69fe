import LineaSgxProver.Zktrie.Trie
import Mathlib.Data.List.Sort
import Mathlib.Logic.Function.Basic

namespace LineaSgxProver.Linea

open Library Zktrie

inductive TrieUpdate where
  | success
  | missing (node : SH256)
  deriving DecidableEq, Repr

class Trie (T : Type) (D : outParam Type) where
  rootHash : T → SH256
  get : T → Bytes → Action D (Fault String) Bytes
  /-- `none` where the implementation panics. -/
  update : List (Bytes × Bytes) → T × D → Option (List TrieUpdate) × T × D
  newRoot : T → SH256 → T

class CacheKey (K : Type) where
  bytes : K → Bytes

class CacheValueEnc (V : Type) where
  default : V
  encode : V → Bytes
  decode : Bytes → Except (Fault String) V

/-- Both maps of the source are read by key only, but for the keys of `dirty`, which come in order. -/
structure TrieCache (T K V : Type) where
  raw : T
  cache : K → Option V
  dirty : List K

namespace TrieCache

variable {T K V D O : Type}

def new (raw : T) : TrieCache T K V := ⟨raw, fun _ => none, []⟩

section Dirty

variable [DecidableEq K] [LE K] [DecidableLE K]

def insertDirty (k : K) (dirty : List K) : List K :=
  if k ∈ dirty then dirty else dirty.orderedInsert (· ≤ ·) k

theorem mem_insertDirty {k j : K} {dirty : List K} :
    j ∈ insertDirty k dirty ↔ j = k ∨ j ∈ dirty := by
  unfold insertDirty
  split_ifs with h
  · constructor
    · exact Or.inr
    · rintro (rfl | hj)
      · exact h
      · exact hj
  · exact List.mem_orderedInsert _

theorem nodup_insertDirty {k : K} {dirty : List K} (h : dirty.Nodup) : (insertDirty k dirty).Nodup := by
  unfold insertDirty
  split_ifs with hk
  · exact h
  · rw [(List.perm_orderedInsert _ k dirty).nodup_iff]
    exact List.nodup_cons.mpr ⟨hk, h⟩

theorem length_insertDirty (k : K) (dirty : List K) : (insertDirty k dirty).length ≤ dirty.length + 1 := by
  unfold insertDirty
  split_ifs
  · exact Nat.le_succ _
  · rw [List.orderedInsert_length]

end Dirty

section Calls

variable [Trie T D] [DecidableEq K] [LE K] [DecidableLE K] [CacheKey K] [CacheValueEnc V]

def rootHash (c : TrieCache T K V) : SH256 := Trie.rootHash c.raw

def revert (c : TrieCache T K V) (root : SH256) : Bool × TrieCache T K V :=
  if c.rootHash = root ∧ c.dirty.length = 0 then (false, c)
  else (true, ⟨Trie.newRoot c.raw root, fun _ => none, []⟩)

def visit (k : K) (f : V → Except (Fault String) (O × V × Bool)) (v : V) (c : TrieCache T K V) (db : D) :
    Except (Fault String) O × TrieCache T K V × D :=
  match f v with
  | .error e => (.error e, c, db)
  | .ok (out, v', dirty) =>
    (.ok out, ⟨c.raw, Function.update c.cache k (some v'),
      if dirty then insertDirty k c.dirty else c.dirty⟩, db)

def load (data : Bytes) : Except (Fault String) V :=
  if data.length = 0 then .ok CacheValueEnc.default else CacheValueEnc.decode data

def withKey (k : K) (f : V → Except (Fault String) (O × V × Bool)) :
    Action (TrieCache T K V × D) (Fault String) O := fun (c, db) =>
  match c.cache k with
  | some v => visit k f v c db
  | none =>
    match Trie.get c.raw (CacheKey.bytes k) db with
    | (.error e, db) => (.error e, c, db)
    | (.ok data, db) =>
      match load data with
      | .error e => (.error e, c, db)
      | .ok v => visit k f v { c with cache := Function.update c.cache k (some v) } db

def updates (c : TrieCache T K V) : List (Bytes × Bytes) :=
  c.dirty.map fun k =>
    (CacheKey.bytes k, match c.cache k with
      | none => []
      | some v => CacheValueEnc.encode v)

/-- The loop over the results: each key is no longer dirty, whatever its result. -/
def settle : List (TrieUpdate × K) → List K → List SH256 → List K × List SH256
  | [], dirty, missing => (dirty, missing)
  | (.missing node, k) :: rest, dirty, missing => settle rest (dirty.erase k) (missing ++ [node])
  | (.success, k) :: rest, dirty, missing => settle rest (dirty.erase k) missing

def flush : Action (TrieCache T K V × D) (Fault (List SH256)) Unit := fun (c, db) =>
  match Trie.update c.updates (c.raw, db) with
  | (none, raw, db) => (.error .panic, { c with raw := raw }, db)
  | (some results, raw, db) =>
    if results.length = c.dirty.length then
      let (dirty, missing) := settle (results.zip c.dirty) c.dirty []
      (if 0 < missing.length then .error (.error missing) else .ok (), ⟨raw, c.cache, dirty⟩, db)
    else (.error .panic, { c with raw := raw }, db)

end Calls

end TrieCache

end LineaSgxProver.Linea
