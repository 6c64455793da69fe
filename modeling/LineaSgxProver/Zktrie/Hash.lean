import LineaSgxProver.Machine
import LineaSgxProver.Library.Action

namespace LineaSgxProver.Zktrie

open Library

/-- `mimc::sum`, with the one fact the trie relies on: whole blocks are never refused. -/
class TrieHash where
  sum : Bytes → Except (Fault String) SH256
  sum_blocks : ∀ msg, msg ≠ [] → 32 ∣ msg.length → (sum msg).isOk = true

/-- A hash that is cheap to evaluate, for runs on closed inputs. -/
def residueSum (msg : Bytes) : Except (Fault String) SH256 :=
  if msg = [] then .error (.error "message is empty")
  else .ok (BitVec.ofNat 256 (1 + BigEndian.decode msg % (2 ^ 255 - 19)))

abbrev residueHash : TrieHash where
  sum := residueSum
  sum_blocks msg hne _ := by
    rw [residueSum, if_neg hne]
    rfl

end LineaSgxProver.Zktrie
