import Ysyx.Bytes.LittleEndian
import Ysyx.Bytes.Overlay

-- `memcpy`, and what string.c of klib has in its place.

namespace Am

-- How a call ends that does not return. What signed overflow does is undefined.
inductive Stop
  | panic (message : String)
  | undefined

abbrev Machine := EStateM Stop (Memory 32)

-- Where and what `n` bytes of `src` are at `dst`.
def piece (dst : Word) (src : Nat → Byte) (n : Nat) : Word → Option Byte :=
  fun a => if (a - dst).toNat < n then some (src (a - dst).toNat) else none

abbrev Memcpy := Word → (Nat → Byte) → Nat → Machine Unit

-- The function of the C library. The source is an array that `dst` does not overlap.
def memcpy : Memcpy :=
  fun dst src n => modify (Overlay.overlay · (piece dst src n))

-- The function of klib.
def Klib.memcpy : Memcpy :=
  fun _ _ _ => throw (.panic "Not implemented")

end Am
