import Ysyx.Bits.Halves
import Ysyx.Bits.Signed
import Ysyx.Bytes.LittleEndian

-- int64.c of klib, for compilers that have no 128-bit integers. There is no result where an operation is undefined.

open Halves

namespace Am.Klib.Int64

abbrev SuInt := BitVec 32
abbrev DuInt := BitVec 64
abbrev DiInt := BitVec 64

section Operations

def shl (x n : SuInt) : Option SuInt :=
  if n < 32 then some (x <<< n.toNat) else none

def shr (x n : SuInt) : Option SuInt :=
  if n < 32 then some (x >>> n.toNat) else none

def div (x y : SuInt) : Option SuInt :=
  if y = 0 then none else some (x / y)

def mod (x y : SuInt) : Option SuInt :=
  if y = 0 then none else some (x % y)

def sub (x y : DiInt) : Option DiInt :=
  (Signed.sub 64 x.toInt y.toInt).map (BitVec.ofInt 64)

def mul (x y : DiInt) : Option DiInt :=
  (Signed.mul 64 x.toInt y.toInt).map (BitVec.ofInt 64)

-- The value of a comparison.
def test (p : Prop) [Decidable p] : SuInt :=
  if p then 1 else 0

end Operations

section Zeros

def clzsi2 (a : SuInt) : SuInt :=
  let x := a
  let t := test (x &&& 0xffff0000 = 0) <<< 4
  let x := x >>> (16 - t).toNat
  let r := t
  let t := test (x &&& 0xff00 = 0) <<< 3
  let x := x >>> (8 - t).toNat
  let r := r + t
  let t := test (x &&& 0xf0 = 0) <<< 2
  let x := x >>> (4 - t).toNat
  let r := r + t
  let t := test (x &&& 0xc = 0) <<< 1
  let x := x >>> (2 - t).toNat
  let r := r + t
  r + ((2 - x) &&& -test (x &&& 2 = 0))

def ctzsi2 (a : SuInt) : SuInt :=
  let x := a
  let t := test (x &&& 0xffff = 0) <<< 4
  let x := x >>> t.toNat
  let r := t
  let t := test (x &&& 0xff = 0) <<< 3
  let x := x >>> t.toNat
  let r := r + t
  let t := test (x &&& 0xf = 0) <<< 2
  let x := x >>> t.toNat
  let r := r + t
  let t := test (x &&& 0x3 = 0) <<< 1
  let x := x >>> t.toNat
  let x := x &&& 3
  let r := r + t
  r + ((2 - x >>> 1) &&& -test (x &&& 1 = 0))

def ctzdi2 (a : DiInt) : SuInt :=
  let ⟨low, high⟩ : SuInt × SuInt := (low a, high a)
  let f := -test (low = 0)
  ctzsi2 (high &&& f ||| low &&& ~~~f) + (f &&& 32)

def clzdi2 (a : DiInt) : SuInt :=
  let ⟨low, high⟩ : SuInt × SuInt := (low a, high a)
  let f := -test (high = 0)
  clzsi2 (high &&& ~~~f ||| low &&& f) + (f &&& 32)

end Zeros

section Divide

-- One round of the loop. The registers are `q`, `r` and the carry.
def round (d : DuInt) : DuInt × DuInt × SuInt → DuInt × DuInt × SuInt
  | (q, r, carry) =>
    let ⟨rHigh, rLow⟩ : SuInt × SuInt := (high r, low r)
    let ⟨qHigh, qLow⟩ : SuInt × SuInt := (high q, low q)
    let r : DuInt := (rHigh <<< 1 ||| rLow >>> 31) ++ (rLow <<< 1 ||| qHigh >>> 31)
    let q : DuInt := (qHigh <<< 1 ||| qLow >>> 31) ++ (qLow <<< 1 ||| carry)
    let s : DiInt := (d - r - 1).sshiftRight 63
    (q, r - (d &&& s), (s &&& 1).setWidth 32)

-- The rest of the function after the special cases: the quotient and the remainder.
def divide (d : DuInt) (sr : SuInt) (q r : DuInt) : DuInt × DuInt :=
  let ⟨q, r, carry⟩ := (round d)^[sr.toNat] (q, r, 0)
  (q <<< 1 ||| carry.setWidth 64, r)

-- The branches for 1 ≤ sr ≤ n_uword_bits - 1.
def split (n : DuInt) (sr : SuInt) : Option (DuInt × DuInt) := do
  let ⟨nHigh, nLow⟩ : SuInt × SuInt := (high n, low n)
  let qHigh ← shl nLow (32 - sr)
  let rHigh ← shr nHigh sr
  let rLow := (← shl nHigh (32 - sr)) ||| (← shr nLow sr)
  return (qHigh ++ (0 : SuInt), rHigh ++ rLow)

-- The function returns the quotient and writes the remainder to `*rem`. The builtins are calls of the functions above.
def udivmoddi4 (a b : DuInt) : Option (DuInt × DuInt) :=
  let n := a
  let d := b
  let ⟨nHigh, nLow⟩ : SuInt × SuInt := (high n, low n)
  let ⟨dHigh, dLow⟩ : SuInt × SuInt := (high d, low d)
  if nHigh = 0 then
    if dHigh = 0 then do
      let rem ← mod nLow dLow
      return ((← div nLow dLow).setWidth 64, rem.setWidth 64)
    else
      some (0, nLow.setWidth 64)
  else if dLow = 0 then
    if dHigh = 0 then do
      let rem ← mod nHigh dLow
      return ((← div nHigh dLow).setWidth 64, rem.setWidth 64)
    else if nLow = 0 then do
      let rHigh ← mod nHigh dHigh
      return ((← div nHigh dHigh).setWidth 64, rHigh ++ (0 : SuInt))
    else if dHigh &&& (dHigh - 1) = 0 then do
      let rHigh := nHigh &&& (dHigh - 1)
      return ((← shr nHigh (ctzsi2 dHigh)).setWidth 64, rHigh ++ nLow)
    else
      let sr := clzsi2 dHigh - clzsi2 nHigh
      if 30 < sr then
        some (0, n)
      else do
        let sr := sr + 1
        let ⟨q, r⟩ ← split n sr
        return divide d sr q r
  else
    if dHigh = 0 then
      if dLow &&& (dLow - 1) = 0 then
        let rem := nLow &&& (dLow - 1)
        if dLow = 1 then
          some (n, rem.setWidth 64)
        else do
          let sr := ctzsi2 dLow
          let qHigh ← shr nHigh sr
          let qLow := (← shl nHigh (32 - sr)) ||| (← shr nLow sr)
          return (qHigh ++ qLow, rem.setWidth 64)
      else
        let sr := 1 + 32 + clzsi2 dLow - clzsi2 nHigh
        if sr = 32 then
          divide d sr (nLow ++ (0 : SuInt)) ((0 : SuInt) ++ nHigh)
        else if sr < 32 then do
          let ⟨q, r⟩ ← split n sr
          return divide d sr q r
        else do
          let qLow ← shl nLow (64 - sr)
          let qHigh := (← shl nHigh (64 - sr)) ||| (← shr nLow (sr - 32))
          let rLow ← shr nHigh (sr - 32)
          return divide d sr (qHigh ++ qLow) ((0 : SuInt) ++ rLow)
    else
      let sr := clzsi2 dHigh - clzsi2 nHigh
      if 31 < sr then
        some (0, n)
      else
        let sr := sr + 1
        if sr = 32 then
          divide d sr (nLow ++ (0 : SuInt)) ((0 : SuInt) ++ nHigh)
        else do
          let ⟨q, r⟩ ← split n sr
          return divide d sr q r

def udivdi3 (a b : DuInt) : Option DuInt :=
  (udivmoddi4 a b).map Prod.fst

def umoddi3 (a b : DuInt) : Option DuInt :=
  (udivmoddi4 a b).map Prod.snd

def divdi3 (a b : DiInt) : Option DiInt := do
  let sA := a.sshiftRight 63
  let sB := b.sshiftRight 63
  let a ← sub (a ^^^ sA) sA
  let b ← sub (b ^^^ sB) sB
  let sA := sA ^^^ sB
  let ⟨q, _⟩ ← udivmoddi4 a b
  return (q ^^^ sA) - sA

def divmoddi4 (a b : DiInt) : Option (DiInt × DiInt) := do
  let d ← divdi3 a b
  let rem ← sub a (← mul d b)
  return (d, rem)

def moddi3 (a b : DiInt) : Option DiInt := do
  let s := b.sshiftRight 63
  let b ← sub (b ^^^ s) s
  let s := a.sshiftRight 63
  let a ← sub (a ^^^ s) s
  let ⟨_, r⟩ ← udivmoddi4 a b
  sub (r ^^^ s) s

end Divide
end Am.Klib.Int64
