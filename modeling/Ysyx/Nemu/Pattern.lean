import Mathlib.Data.List.Basic

-- The pattern matching mechanism of the instruction decoders.

namespace Nemu

-- The local variables `__key`, `__mask` and `__shift`, and the values that are returned for them.
structure Decoded where
  key   : BitVec 64
  mask  : BitVec 64
  shift : BitVec 64
deriving DecidableEq, Repr

-- The two ways in which an unrolled loop is left early: `goto finish` and a failed assertion.
inductive Exit
  | finish (d : Decoded)
  | fail (msg : String)
deriving DecidableEq, Repr

-- What distinguishes the two variants of the mechanism: the bits that a character stands for, the characters
-- other than spaces that the assertion lets pass, and the values that a character adds to the key and to the mask.
structure Alphabet where
  bits  : Nat
  valid : Char → Bool
  value : Char → BitVec 64
  ones  : BitVec 64

def binary : Alphabet where
  bits    := 1
  valid c := c = '0' ∨ c = '1' ∨ c = '?'
  value c := if c = '1' then 1 else 0
  ones    := 1

def hexadecimal : Alphabet where
  bits    := 4
  valid c := ('0' ≤ c ∧ c ≤ '9') ∨ ('a' ≤ c ∧ c ≤ 'f') ∨ c = '?'
  value c :=
    if c = '?' then 0
    else if '0' ≤ c ∧ c ≤ '9' then .ofNat 64 (c.toNat - '0'.toNat)
    else .ofNat 64 (c.toNat - 'a'.toNat + 10)
  ones    := 0xf

-- The part of `macro(i)` that handles a character.
def Alphabet.character (a : Alphabet) (d : Decoded) (c : Char) : Except Exit Decoded :=
  if c ≠ ' ' then
    if a.valid c then
      .ok {
        key   := d.key <<< a.bits ||| a.value c
        mask  := d.mask <<< a.bits ||| (if c = '?' then 0 else a.ones)
        shift := if c = '?' then d.shift + .ofNat 64 a.bits else 0
      }
    else
      .error (.fail ("invalid character '" ++ c.toString ++ "' in pattern string"))
  else
    .ok d

-- The macro named `macro`.
def macro1 (a : Alphabet) (str : List Char) (len i : Nat) (d : Decoded) : Except Exit Decoded :=
  if i ≥ len then .error (.finish d) else a.character d (str.getD i (.ofNat 0))

section Unrolling

variable (m : Nat → Decoded → Except Exit Decoded) (i : Nat) (d : Decoded)

def macro2 : Except Exit Decoded :=
  m i d >>= m (i + 1)

def macro4 : Except Exit Decoded :=
  macro2 m i d >>= macro2 m (i + 2)

def macro8 : Except Exit Decoded :=
  macro4 m i d >>= macro4 m (i + 4)

def macro16 : Except Exit Decoded :=
  macro8 m i d >>= macro8 m (i + 8)

def macro32 : Except Exit Decoded :=
  macro16 m i d >>= macro16 m (i + 16)

def macro64 : Except Exit Decoded :=
  macro32 m i d >>= macro32 m (i + 32)

end Unrolling

-- What follows the unrolled loop.
def finish : Except Exit Decoded → Except String Decoded
  | .ok _               => .error "pattern too long"
  | .error (.fail msg)  => .error msg
  | .error (.finish d)  => .ok { key := d.key >>> d.shift, mask := d.mask >>> d.shift, shift := d.shift }

def pattern_decode (str : List Char) (len : Nat) : Except String Decoded :=
  finish (macro64 (macro1 binary str len) 0 ⟨0, 0, 0⟩)

def pattern_decode_hex (str : List Char) (len : Nat) : Except String Decoded :=
  finish (macro16 (macro1 hexadecimal str len) 0 ⟨0, 0, 0⟩)

-- The condition of `INSTPAT` for an instruction `x`.
def Decoded.test (d : Decoded) (x : BitVec 64) : Bool :=
  (x >>> d.shift) &&& d.mask == d.key

end Nemu
