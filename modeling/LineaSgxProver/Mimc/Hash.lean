import LineaSgxProver.Mimc.Field
import LineaSgxProver.Zktrie.Hash

namespace LineaSgxProver.Mimc

open Library

def blockSize : ℕ := 32

section Digest

-- keccak is not part of the repository, so the round constants are a parameter
variable (mimcConstants : List Fr)

def pad (p : Bytes) : Bytes :=
  if 0 < p.length ∧ p.length < blockSize then List.replicate (blockSize - p.length) 0 ++ p else p

def element (p : Bytes) (start : ℕ) : Except (Fault String) Fr :=
  if start + blockSize ≤ p.length then
    match Fr.fromBe ((p.drop start).take blockSize) with
    | .ok x => .ok x
    | .error e => .error (.error e)
  else .error .panic

def write (msg : Bytes) : Except (Fault String) (List Fr) :=
  let p := pad msg
  let starts := (List.range ((p.length + blockSize - 1) / blockSize)).map (· * blockSize)
  match starts.mapM (element p) with
  | .error e => .error e
  | .ok data =>
    if starts.getLastD 0 + blockSize = p.length then .ok data
    else .error (.error "invalid input length: must represent a list of field elements, expects a []byte of len m*BlockSize")

def encrypt (hash m : Fr) : Fr :=
  let rounds := mimcConstants.foldl (fun m c =>
    let tmp := (hash.addAssign m).addAssign c
    tmp.square.square.square.square.mulAssign tmp) m
  rounds.addAssign hash

def checksum (data : List Fr) : Fr :=
  data.foldl (fun hash item => (hash.addAssign (encrypt mimcConstants hash item)).addAssign item)
    Fr.zero

def sum (msg : Bytes) : Except (Fault String) SH256 :=
  match write msg with
  | .ok data => .ok (checksum mimcConstants data).bytes
  | .error e => .error e

theorem mapM_isOk {α β ε : Type} (f : α → Except ε β) (l : List α)
    (h : ∀ a ∈ l, ∃ b, f a = .ok b) : ∃ bs, l.mapM f = .ok bs := by
  induction l with
  | nil => exact ⟨[], rfl⟩
  | cons a l ih =>
    obtain ⟨b, hb⟩ := h a (by simp)
    obtain ⟨bs, hbs⟩ := ih (fun b hb => h b (List.mem_cons_of_mem _ hb))
    exact ⟨b :: bs, by rw [List.mapM_cons, hb, hbs]; rfl⟩

theorem element_isOk {p : Bytes} {start : ℕ} (h : start + blockSize ≤ p.length) :
    ∃ x, element p start = .ok x := by
  have hlen : ((p.drop start).take blockSize).length = 32 := by
    rw [List.length_take, List.length_drop]
    unfold blockSize at *
    omega
  obtain ⟨x, hx⟩ := isOk_iff.mp (Fr.fromBe_isOk hlen)
  exact ⟨x, by rw [element, if_pos h, hx]⟩

theorem write_isOk {msg : Bytes} (hne : msg ≠ []) (hdvd : 32 ∣ msg.length) :
    ∃ data, write msg = .ok data := by
  obtain ⟨k, hk⟩ := hdvd
  have hpos : 0 < msg.length := List.length_pos_iff.mpr hne
  have hpad : pad msg = msg := by
    unfold pad blockSize
    rw [if_neg (by omega)]
  obtain ⟨j, rfl⟩ : ∃ j, k = j + 1 := ⟨k - 1, by omega⟩
  have hblocks : (msg.length + 32 - 1) / 32 = j + 1 := by omega
  obtain ⟨data, hdata⟩ : ∃ data,
      ((List.range (j + 1)).map (· * 32)).mapM (element msg) = .ok data := by
    apply mapM_isOk
    intro start hs
    obtain ⟨i, hi, rfl⟩ := List.mem_map.mp hs
    have hlt := List.mem_range.mp hi
    exact element_isOk (by unfold blockSize; omega)
  have hlast : ((List.range (j + 1)).map (· * 32)).getLastD 0 + 32 = msg.length := by
    simp only [List.range_succ, List.map_append, List.map_cons, List.map_nil, List.getLastD_concat]
    omega
  refine ⟨data, ?_⟩
  unfold write blockSize
  simp only [hpad, hblocks, hdata, hlast, ↓reduceIte]

theorem sum_isOk {msg : Bytes} (hne : msg ≠ []) (hdvd : 32 ∣ msg.length) :
    (sum mimcConstants msg).isOk = true := by
  obtain ⟨data, hdata⟩ := write_isOk hne hdvd
  apply isOk_iff.mpr
  exact ⟨_, by unfold sum; rw [hdata]⟩

/-- The repository's own trie hash, for any round constants. -/
@[reducible] def trieHash : Zktrie.TrieHash where
  sum := sum mimcConstants
  sum_blocks _ hne hdvd := sum_isOk mimcConstants hne hdvd

end Digest

end LineaSgxProver.Mimc
