import LineaSgxProver.Zktrie.HonestTrace

namespace LineaSgxProver.Zktrie

open Library
open MerkleTree (Leaves)
open LinkedList (first last)
open ZkTrie (Decodes SafeButNext)

section Replay

variable [TrieHash] [Profile] {D : Type} [Database D] (parse : Bytes → Option LeafOpening)

def Trace.replay : Trace → Call (Session D) (Option Bytes)
  | .read n => Action.read (ZkTrie.read n.key)
  | .readZero n => Action.read (ZkTrie.read n.key)
  | .insertion n => do
    ZkTrie.put parse n.key n.value
    pure none
  | .update n => do
    ZkTrie.put parse n.key n.newValue
    pure none
  | .deletion n => do
    ZkTrie.remove parse n.key
    pure none

def replayAll : List Trace → Call (Session D) Unit
  | [] => pure ()
  | t :: ts => do
    let _ ← t.replay parse
    replayAll ts

def Trace.Traced (a : Option Bytes) (s : Session D) : Trace → Prop
  | .read n => a = some n.value
  | .readZero _ => a = none
  | .insertion n => ZkTrie.subRootHash s = .ok n.newSubRoot
  | .update n => ZkTrie.subRootHash s = .ok n.newSubRoot
  | .deletion n => ZkTrie.subRootHash s = .ok n.newSubRoot

def Reproduces : List Trace → Session D → Prop
  | [], _ => True
  | t :: ts, s => t.oldTopHash = some s.trie.rootHash ∧
      ∃ a s', (t.replay parse).Returns s a s' ∧ t.Traced a s' ∧ Reproduces ts s'

/-- The store of the traces with the first top node inserted by hand, and the trie at its root. -/
def replayStart (traces : List Trace) : Except (Fault Error) (Session PrefixDB) := do
  let store ← MemStore.fromTraces traces
  let top ← orPanic (traces.head?.bind Trace.oldTopNode)
  let db := (Database.updateNode top.hash top (⟨UInt64.ofNat (2 ^ 64 - 1), store⟩ : PrefixDB)).2
  .ok ⟨⟨top.hash⟩, db⟩

def Trace.IsRead : Trace → Prop
  | .read _ => True
  | .readZero _ => True
  | _ => False

end Replay

section Moves

variable [TrieHash] [Profile] {D : Type} [Database D] {R : D → D → Prop} [Steady R]
  {parse : Bytes → Option LeafOpening}

theorem Trace.replay_moves (t : Trace) :
    Moves R (t.replay parse : Call (Session D) (Option Bytes)) := by
  cases t with
  | read n => exact Moves.read _
  | readZero n => exact Moves.read _
  | insertion n => exact (ZkTrie.put_moves n.key n.value).bind fun _ => Moves.pure none
  | update n => exact (ZkTrie.put_moves n.key n.newValue).bind fun _ => Moves.pure none
  | deletion n => exact (ZkTrie.remove_moves n.key).bind fun _ => Moves.pure none

theorem replayAll_moves (ts : List Trace) :
    Moves R (replayAll parse ts : Call (Session D) Unit) := by
  induction ts with
  | nil => exact Moves.pure ()
  | cons t ts ih => exact (t.replay_moves).bind fun _ => ih

end Moves

section Order

/-- The leaf after the right neighbour is not the left neighbour. -/
theorem Ordered.first_ne {as bs : List Cell} {l x : Cell} {free : UInt64}
    (h : Ordered (as ++ l :: x :: bs) free) : first 1 bs ≠ l.1 := by
  have hnodup := h.nodup
  have htail := h.tail
  cases bs with
  | nil =>
    have hlast : (as ++ [l, x]).getLast? = some x := by simp
    rw [hlast] at htail
    obtain rfl := Option.some.inj htail
    intro heq
    have hl : l.1 = 1 := heq.symm
    simp [List.nodup_append, hl, Cell.tail] at hnodup
  | cons b bs =>
    intro heq
    have hb : b.1 = l.1 := heq
    simp [List.nodup_append, hb] at hnodup

end Order

section Binding

variable [TrieHash] {E : Set Bytes}

abbrev TrieState.Within (E : Set Bytes) (st : TrieState) : Prop :=
  Commits E st.root st.free st.map

theorem TrieState.map_eq (hE : CollisionFree E) {a b : TrieState} (ha : a.Within E) (hb : b.Within E)
    (h : a.root = b.root) : a.map = b.map := by
  rw [TrieState.Within, ← h] at hb
  funext i
  by_cases hi : i.toNat < 2 ^ zkTrieDepth
  · exact ha.agree hE hb hi
  · have hnone : ∀ st : TrieState, st.map i = none := by
      intro st
      apply treeMap_none
      intro hmem
      obtain ⟨c, hc, rfl⟩ := List.mem_map.mp hmem
      exact hi (st.ordered.index_lt hc)
    rw [hnone a, hnone b]

theorem subRootOf_ne (hE : CollisionFree E) {m : IndexMap} {i : UInt64}
    (hi : i.toNat < 2 ^ zkTrieDepth) {v w : LeafValue} (hne : v ≠ w)
    (hv : ∀ x ∈ MerkleTree.route treeDigest (indexPath i)
      (leavesOf (Function.update m i (some v))), x ∈ within E)
    (hw : ∀ x ∈ MerkleTree.route treeDigest (indexPath i)
      (leavesOf (Function.update m i (some w))), x ∈ within E) :
    subRootOf (Function.update m i (some v)) ≠ subRootOf (Function.update m i (some w)) := by
  intro heq
  have hp := indexPath_length i
  have hat := leavesOf_indexPath (Function.update m i (some v)) hi
  have hat' := leavesOf_indexPath (Function.update m i (some w)) hi
  rw [Function.update_self] at hat hat'
  have hbind := MerkleTree.route_binding (treeDigest_injOn hE) (indexPath i) _ _ hv hw (by
    rw [hp]
    exact heq)
  rw [hat, hat'] at hbind
  exact hne (Option.some.inj hbind)

end Binding

end LineaSgxProver.Zktrie
