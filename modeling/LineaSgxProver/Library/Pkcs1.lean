import LineaSgxProver.Library.Der

namespace LineaSgxProver.Library.Pkcs1

open Der

def null : Tlv := ⟨0x05, []⟩

/-- A digest after the identifier of its algorithm, which may come with parameters. -/
def digestInfo (oid : List UInt8) (parameters : List Tlv) (digest : List UInt8) : Tlv :=
  sequenceOf [sequenceOf (⟨0x06, oid⟩ :: parameters), ⟨0x04, digest⟩]

/-- What is signed, with `k` bytes of padding. -/
def encoding (k : ℕ) (info : Tlv) : List UInt8 := 0x00 :: 0x01 :: (List.replicate k 0xff ++ 0x00 :: info.bytes)

/-- The power of a big-endian number modulo another one, in as many bytes as this has. -/
def power (s e m : List UInt8) : List UInt8 :=
  BigEndian.encode m.length
    (if BigEndian.decode m = 0 then 0
      else BigEndian.decode s ^ BigEndian.decode e % BigEndian.decode m)

theorem power_length (s e m : List UInt8) : (power s e m).length = m.length := BigEndian.encode_length _ _

theorem padding_injective {k k' : ℕ} {a b : List UInt8}
    (h : List.replicate k 0xff ++ 0x00 :: a = List.replicate k' 0xff ++ 0x00 :: b) : k = k' ∧ a = b := by
  induction k generalizing k' with
  | zero =>
    cases k' with
    | zero => exact ⟨rfl, (List.cons.inj h).2⟩
    | succ k' =>
      have hhead := (List.cons.inj h).1
      exact absurd hhead (by decide)
  | succ k ih =>
    cases k' with
    | zero =>
      have hhead := (List.cons.inj h).1
      exact absurd hhead (by decide)
    | succ k' =>
      obtain ⟨hk, hab⟩ := ih (List.cons.inj h).2
      exact ⟨congrArg Nat.succ hk, hab⟩

/-- The padding can be told from what it pads. -/
theorem encoding_injective {k k' : ℕ} {i j : Tlv} (h : encoding k i = encoding k' j) : i.bytes = j.bytes :=
  (padding_injective (List.cons.inj (List.cons.inj h).2).2).2

end LineaSgxProver.Library.Pkcs1
