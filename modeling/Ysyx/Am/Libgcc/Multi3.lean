import Ysyx.Bits.Halves
import Ysyx.Bytes.LittleEndian

-- multi3.c and ashldi3.c, where the registers have 32 bits. A `DWunion` is given by its value or by its halves.

open Halves

namespace Am.Libgcc

abbrev DWtype := BitVec 64

-- What the inline assembler of longlong.h leaves in `a0`.
def muluw3 (a b : Word) : Word :=
  a * b

namespace Multi3

structure Vars where
  uLow     : Word
  vLow     : Word
  wLow     : Word
  wHigh    : Word
  wHighTmp : Word

def round (v : Vars) : Vars :=
  let newWLow    := v.wLow + v.uLow
  let wHighTmp2x := v.wHighTmp <<< 1
  let wHighTmp   := v.wHighTmp + v.wHigh
  let carry : Word := if newWLow < v.wLow then 1 else 0
  let odd := v.vLow &&& 1 ≠ 0
  let uLowMsb := v.uLow >>> 31
  { uLow     := v.uLow <<< 1
    vLow     := v.vLow >>> 1
    wLow     := if odd then newWLow else v.wLow
    wHigh    := if odd then carry + wHighTmp else v.wHigh
    wHighTmp := uLowMsb ||| wHighTmp2x }

theorem vLow_round (v : Vars) : (round v).vLow.toNat = v.vLow.toNat / 2 := by
  rw [round, BitVec.toNat_ushiftRight, Nat.shiftRight_eq_div_pow]

def loop (v : Vars) : Vars :=
  if (round v).vLow = 0 then round v else loop (round v)
termination_by v.vLow.toNat
decreasing_by
  rename_i h
  have hr := vLow_round v
  have hn : (round v).vLow.toNat ≠ 0 := fun he => h <| BitVec.eq_of_toNat_eq he
  omega

end Multi3

def muldi3 (u v : DWtype) : DWtype :=
  let ⟨uLow, uHigh⟩ : Word × Word := (low u, high u)
  let ⟨vLow, vHigh⟩ : Word × Word := (low v, high v)
  let w := Multi3.loop { uLow, vLow, wLow := 0, wHigh := 0, wHighTmp := 0 }
  let wHigh := if uHigh ≠ 0 then w.wHigh + muluw3 vLow uHigh else w.wHigh
  let wHigh := if vHigh ≠ 0 then wHigh + muluw3 uLow vHigh else wHigh
  wHigh ++ w.wLow

-- The shift count is an `int`.
def ashldi3 (u : DWtype) (b : Int) : DWtype :=
  let ⟨uLow, uHigh⟩ : Word × Word := (low u, high u)
  if b = 0 then
    u
  else
    let bm := 32 - b
    if bm ≤ 0 then
      uLow <<< (-bm).toNat ++ (0 : Word)
    else
      let carries := uLow >>> bm.toNat
      (uHigh <<< b.toNat ||| carries) ++ uLow <<< b.toNat

end Am.Libgcc
