import Ysyx.Am.Klib.String
import Ysyx.Bits.Signed

-- The frame buffer of the logisim platform. Addresses have 32 bits there.

namespace Am.Logisim

def W : Int := 256
def H : Int := 256

-- `fb`
def fb : Word := 0x20000000

structure Fbdraw where
  x : BitVec 32
  y : BitVec 32
  w : BitVec 32
  h : BitVec 32
  pixels : Option (Int → Word)

-- The result of a signed operation.
def int (x : Int) : Machine Int :=
  match Signed.checked 32 x with
  | some x => return x
  | none   => throw .undefined

-- The conversions of a `size_t` to an `int` and back.
def toInt (n : Nat) : Int :=
  (BitVec.ofNat 32 n).toInt

def toSize (x : Int) : Nat :=
  (BitVec.ofInt 32 x).toNat

def bytes (pixels : Int → Word) (k : Nat) : Byte :=
  (pixels (k / 4 : Nat)).byte (k % 4)

-- The loop with `n` rounds to go.
def rows (memcpy : Memcpy) (w : Int) (len : Nat) : Nat → Word → (Int → Word) → Machine Unit
  | 0,     _,    _      => return
  | n + 1, p_fb, pixels => do
    memcpy p_fb (bytes pixels) len
    rows memcpy w len n (p_fb + BitVec.ofInt 32 (4 * W)) fun k => pixels (k + w)

-- `__am_gpu_fbdraw` with the given `memcpy`
def fbdraw (memcpy : Memcpy) (ctl : Fbdraw) : Machine Unit := do
  match ctl.pixels with
  | none => return
  | some pixels =>
    let x := ctl.x.toInt
    let y := ctl.y.toInt
    let w := ctl.w.toInt
    let h := ctl.h.toInt
    if x = 0 ∧ y = 0 ∧ w = W ∧ h = H then
      memcpy fb (bytes pixels) (4 * toSize W * toSize H)
    else
      -- The second sum is not evaluated where the first one is too large.
      if (← int (x + w)) > W then throw (.panic "bad draw command")
      if (← int (y + h)) > H then throw (.panic "bad draw command")
      let len := toInt (4 * toSize w)
      let i ← int ((← int (y * W)) + x)
      rows memcpy w (toSize len) h.toNat (fb + BitVec.ofInt 32 (4 * i)) pixels

end Am.Logisim
