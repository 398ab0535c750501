import Ysyx.Bits.Packed
import Ysyx.Bytes.LittleEndian

-- The pins of the board and the signals that they are bound to.

namespace Nvboard

-- The buttons, switches, PS/2 lines and the serial input, and then the LEDs, the RGB LEDs, the segments, the VGA
-- lines and the serial output.
abbrev NR_PINS : Nat :=
  (6 + 16 + 2 + 1) + (16 + 6 + 64 + 27 + 1)

abbrev Pin := Fin NR_PINS

structure PinNode where
  ptr       : BitVec 64
  vectorLen : Nat
  bitOffset : Nat
  deriving DecidableEq

abbrev PinArray := Pin → PinNode

variable (pinArray : PinArray) (m : Memory 64)

-- `*(uint64_t *)a`
def load64 (a : BitVec 64) : BitVec 64 :=
  Bits.pack fun i : Fin 8 => m (a + BitVec.ofNat 64 i)

def pinPeek (pin : Pin) : Byte :=
  let p := pinArray pin
  if p.vectorLen = 1 then
    m p.ptr &&& 1
  else
    let v := load64 m p.ptr
    ((v >>> p.bitOffset) &&& 1).setWidth 8

-- `uint64_t mask = 1 << offset`. The 1 is an `int`, so the shift is undefined from 32 on, and the sign of its result
-- is extended.
def mask (offset : Nat) : Option (BitVec 64) :=
  if offset < 32 then some ((1#32 <<< offset).signExtend 64) else none

def pinPoke (pin : Pin) (v : BitVec 64) : Option (Memory 64) :=
  let p := pinArray pin
  if p.vectorLen = 1 then
    some (m.store p.ptr 1 (v &&& 1))
  else do
    let x := load64 m p.ptr
    let mask ← mask p.bitOffset
    return m.store p.ptr 8 ((x &&& ~~~mask) ||| ((v &&& 1) <<< p.bitOffset))

-- `len` is the number of pins that are given. There is no result where the assertion fails.
def nvboardBindPin (signal : BitVec 64) (pins : List Pin) : Option PinArray :=
  let len := pins.length
  if len < 64 then
    some <| pins.zipIdx.foldl (fun pinArray (pin, i) =>
      Function.update pinArray pin { ptr := signal, vectorLen := len, bitOffset := len - 1 - i }) pinArray
  else
    none

end Nvboard
