import Ysyx.Bits.Signed
import Ysyx.Bytes.LittleEndian

-- stdlib.c of klib.

namespace Am.Klib

-- The second loop of `atoi`. A string is given without its terminating zero, and there is no result where an
-- operation overflows.
def accumulate (x : Int) : List Byte → Option Int
  | []     => some x
  | c :: s =>
    if 0x30 ≤ c ∧ c ≤ 0x39 then do
      let x ← Signed.mul 32 x 10
      let x ← Signed.add 32 x c.toNat
      let x ← Signed.sub 32 x 0x30
      accumulate x s
    else
      some x

def atoi (nptr : List Byte) : Option Int :=
  accumulate 0 <| nptr.dropWhile (· == 0x20)

end Am.Klib
