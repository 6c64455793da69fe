import LineaSgxProver.Zktrie.TraceStore

namespace LineaSgxProver.Linea

open Zktrie

/-- The block is not before the current one, or more than 256 blocks before it. -/
def outOfWindow (current target : UInt64) : Prop :=
  current ≤ target ∨ target.toNat < current.toNat - 256

instance (current target : UInt64) : Decidable (outOfWindow current target) := by
  unfold outOfWindow
  infer_instance

structure BlockHashCache where
  cache : BTreeMap UInt64 SH256

def BlockHashCache.getHash (c : BlockHashCache) (current target : UInt64) : SH256 :=
  if outOfWindow current target then 0 else (c.cache.get target).getD 0

structure BuilderFetcher where
  cache : BTreeMap UInt64 SH256

/-- `header` is the hash of the header that the client would return, if it returns one. -/
def BuilderFetcher.getHash (f : BuilderFetcher) (current target : UInt64) (header : Option SH256) :
    SH256 × BuilderFetcher :=
  if outOfWindow current target then (0, f)
  else
    match f.cache.get target with
    | some hash => (hash, f)
    | none =>
      match header with
      | some hash => (hash, ⟨f.cache.insert target hash⟩)
      | none => (0, f)

structure HashQuery where
  current : UInt64
  target : UInt64
  header : Option SH256

namespace HashQuery

def record : List HashQuery → BuilderFetcher → List SH256 × BuilderFetcher
  | [], f => ([], f)
  | q :: qs, f =>
    let (hash, f) := f.getHash q.current q.target q.header
    let (hashes, f) := record qs f
    (hash :: hashes, f)

/-- The hashes that `generate_pob` stores: each entry of the cache, in a new map. -/
def blockHashes (f : BuilderFetcher) : BTreeMap UInt64 SH256 :=
  f.cache.foldr (fun e hashes => hashes.insert e.1 e.2) []

def replay (c : BlockHashCache) (qs : List HashQuery) : List SH256 :=
  qs.map fun q => c.getHash q.current q.target

/-- What the client answered first about a block, among the queries for it in its window. -/
def firstAnswer (target : UInt64) (qs : List HashQuery) : Option SH256 :=
  qs.findSome? fun q => if ¬ outOfWindow q.current q.target ∧ q.target = target then q.header else none

/-- A block that the client failed on when it was first needed is not answered later on, unless by the
hash that stands for no block. -/
def FailsForGood (qs : List HashQuery) : Prop :=
  ∀ pre q post, qs = pre ++ q :: post → ¬ outOfWindow q.current q.target →
    firstAnswer q.target pre = none → q.header = none → ∀ hash, firstAnswer q.target post = some hash →
      hash = 0

theorem firstAnswer_append (target : UInt64) (qs rs : List HashQuery) :
    firstAnswer target (qs ++ rs) = (firstAnswer target qs).or (firstAnswer target rs) :=
  List.findSome?_append

theorem firstAnswer_cons (target : UInt64) (q : HashQuery) (qs : List HashQuery) :
    firstAnswer target (q :: qs) =
      (if ¬ outOfWindow q.current q.target ∧ q.target = target then q.header else none).or
        (firstAnswer target qs) := by
  unfold firstAnswer
  rw [List.findSome?_cons]
  cases (if ¬ outOfWindow q.current q.target ∧ q.target = target then q.header else none) <;> rfl

@[simp] theorem blockHashes_eq (f : BuilderFetcher) : blockHashes f = f.cache := by
  unfold blockHashes
  induction f.cache with
  | nil => rfl
  | cons e cache ih => rw [List.foldr_cons, ih, BTreeMap.insert]

theorem getHash_cache (f : BuilderFetcher) (q : HashQuery) (target : UInt64) :
    (f.getHash q.current q.target q.header).2.cache.get target =
      (f.cache.get target).or
        (if ¬ outOfWindow q.current q.target ∧ q.target = target then q.header else none) := by
  unfold BuilderFetcher.getHash
  by_cases hwindow : outOfWindow q.current q.target
  · simp [hwindow]
  · by_cases htarget : q.target = target
    · subst htarget
      cases hcache : f.cache.get q.target with
      | some hash => simp [hwindow, hcache]
      | none => cases hheader : q.header <;> simp [hwindow, hcache, BTreeMap.get_insert]
    · cases hcache : f.cache.get q.target with
      | some hash => simp [hwindow, htarget]
      | none =>
        cases hheader : q.header <;>
          simp [hwindow, htarget, BTreeMap.get_insert, Ne.symm htarget]

theorem record_cache (qs : List HashQuery) (f : BuilderFetcher) (target : UInt64) :
    (record qs f).2.cache.get target = (f.cache.get target).or (firstAnswer target qs) := by
  induction qs generalizing f with
  | nil => simp [record, firstAnswer]
  | cons q qs ih =>
    change (record qs (f.getHash q.current q.target q.header).2).2.cache.get target = _
    rw [ih, getHash_cache, firstAnswer_cons, Option.or_assoc]

theorem getHash_eq_iff {pre qs : List HashQuery} {q : HashQuery} {f : BuilderFetcher} {c : BlockHashCache}
    (hf : ∀ target, f.cache.get target = firstAnswer target pre)
    (hc : ∀ target, c.cache.get target = firstAnswer target (pre ++ q :: qs)) :
    c.getHash q.current q.target = (f.getHash q.current q.target q.header).1 ↔
      (¬ outOfWindow q.current q.target → firstAnswer q.target pre = none → q.header = none →
        ∀ hash, firstAnswer q.target qs = some hash → hash = 0) := by
  unfold BlockHashCache.getHash BuilderFetcher.getHash
  by_cases hwindow : outOfWindow q.current q.target
  · simp [hwindow]
  · rw [hc, hf, firstAnswer_append, firstAnswer_cons]
    cases hpre : firstAnswer q.target pre with
    | some hash => simp [hwindow]
    | none =>
      cases hheader : q.header with
      | some hash => simp [hwindow]
      | none => cases firstAnswer q.target qs <;> simp [hwindow]

theorem replay_eq_iff {pre qs : List HashQuery} {f : BuilderFetcher} {c : BlockHashCache}
    (hf : ∀ target, f.cache.get target = firstAnswer target pre)
    (hc : ∀ target, c.cache.get target = firstAnswer target (pre ++ qs)) :
    replay c qs = (record qs f).1 ↔
      ∀ mid q post, qs = mid ++ q :: post → ¬ outOfWindow q.current q.target →
        firstAnswer q.target (pre ++ mid) = none → q.header = none →
          ∀ hash, firstAnswer q.target post = some hash → hash = 0 := by
  induction qs generalizing pre f with
  | nil => simp [replay, record]
  | cons q qs ih =>
    have hnext : ∀ target, (f.getHash q.current q.target q.header).2.cache.get target =
        firstAnswer target (pre ++ [q]) := by
      intro target
      rw [getHash_cache, hf, firstAnswer_append, firstAnswer_cons]
      simp [firstAnswer]
    have hall : ∀ target, c.cache.get target = firstAnswer target ((pre ++ [q]) ++ qs) := by
      intro target
      rw [hc, List.append_assoc]
      rfl
    have hhead := getHash_eq_iff hf hc
    have htail := ih hnext hall
    change c.getHash q.current q.target :: replay c qs = (f.getHash q.current q.target q.header).1 ::
      (record qs (f.getHash q.current q.target q.header).2).1 ↔ _
    rw [List.cons.injEq, hhead, htail]
    constructor
    · rintro ⟨hq, hqs⟩ mid r post heq
      cases mid with
      | nil =>
        obtain ⟨rfl, rfl⟩ := List.cons.inj heq
        rw [List.append_nil]
        exact hq
      | cons p mid =>
        obtain ⟨rfl, rfl⟩ := List.cons.inj heq
        have hmid := hqs mid r post rfl
        rwa [List.append_assoc] at hmid
    · intro h
      constructor
      · have hq := h [] q qs rfl
        rwa [List.append_nil] at hq
      · intro mid r post heq
        have hmid := h (q :: mid) r post (by rw [heq]; rfl)
        rw [List.append_assoc]
        exact hmid

/-- A run is replayed as it was recorded exactly when the client's failures are for good. -/
theorem replay_record_iff (qs : List HashQuery) :
    replay ⟨blockHashes (record qs ⟨[]⟩).2⟩ qs = (record qs ⟨[]⟩).1 ↔ FailsForGood qs := by
  have hstart : ∀ target, (⟨[]⟩ : BuilderFetcher).cache.get target = firstAnswer target [] := fun _ => rfl
  have hend : ∀ target, (⟨blockHashes (record qs ⟨[]⟩).2⟩ : BlockHashCache).cache.get target =
      firstAnswer target ([] ++ qs) := by
    intro target
    rw [blockHashes_eq, record_cache]
    rfl
  exact replay_eq_iff hstart hend

/-- The client fails once: the run saw no hash, and the replay sees the one that came later. -/
theorem replay_differs :
    (record [⟨10, 9, none⟩, ⟨10, 9, some 7⟩] ⟨[]⟩).1 = [0, 7] ∧
      replay ⟨blockHashes (record [⟨10, 9, none⟩, ⟨10, 9, some 7⟩] ⟨[]⟩).2⟩
        [⟨10, 9, none⟩, ⟨10, 9, some 7⟩] = [7, 7] := by
  decide +kernel

end HashQuery

end LineaSgxProver.Linea
