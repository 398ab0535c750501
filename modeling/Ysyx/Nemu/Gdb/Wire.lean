import Ysyx.Nemu.Gdb.Protocol

-- The packets of the protocol.

namespace Nemu.Gdb

-- The characters with a meaning of their own.
def Special (c : Byte) : Prop :=
  c = 0x24 ∨ c = 0x23 ∨ c = 0x7d ∨ c = 0x2a

instance decidableSpecial (c : Byte) : Decidable (Special c) :=
  inferInstanceAs <| Decidable (_ ∨ _)

-- How data is written: a character as it is or escaped, or as a run of the character before.
inductive Encodes : (data wire : List Byte) → Prop
  | nil : Encodes [] []
  | plain {data wire : List Byte} {c : Byte} : Encodes data wire → ¬Special c → Encodes (data ++ [c]) (wire ++ [c])
  | escaped {data wire : List Byte} {c : Byte} : Encodes data wire → ¬Special (c ^^^ 0x20) →
    Encodes (data ++ [c]) (wire ++ [0x7d, c ^^^ 0x20])
  | run {data wire : List Byte} {c n : Byte} : Encodes data wire → data.getLast? = some c → Reply.countable n = true →
    Encodes (data ++ List.replicate (n - 29).toNat c) (wire ++ [0x2a, n])

-- A packet that was changed on its way, so that its checksum is wrong.
inductive Damaged : List Byte → Prop
  | mk {text : List Byte} {msb lsb : Byte} : 0x24 ∉ text → 0x23 ∉ text →
    (checksum text).setWidth 16 ≠ gdbDecodeHex msb lsb → Damaged (0x24 :: text ++ [0x23, msb, lsb])

-- A packet with the data, by any of its encodings and with the checksum in any case.
inductive Carries (data : List Byte) : List Byte → Prop
  | mk {wire : List Byte} {msb lsb : Byte} : Encodes data wire → (checksum wire).setWidth 16 = gdbDecodeHex msb lsb →
    Carries data (0x24 :: wire ++ [0x23, msb, lsb])

-- The special characters are escaped, and no others.
def escape (data : List Byte) : List Byte :=
  data.flatMap fun c => if Special c then [0x7d, c ^^^ 0x20] else [c]

end Nemu.Gdb
