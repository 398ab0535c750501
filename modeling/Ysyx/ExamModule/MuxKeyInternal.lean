import Ysyx.Bits.Packed

-- The lookup multiplexer MuxKeyInternal of the exam modules.

namespace ExamModule

open BitVec

section

variable {nrKey keyLen dataLen : Nat} (key : BitVec keyLen) (lut : BitVec (nrKey * (keyLen + dataLen))) (n : Nat)

-- `lut[PAIR_LEN*(n+1)-1 : PAIR_LEN*n]`
def pairList : BitVec (keyLen + dataLen) := lut.extractLsb' ((keyLen + dataLen) * n) (keyLen + dataLen)

def dataList : BitVec dataLen := (pairList lut n).extractLsb' 0 dataLen
def keyList  : BitVec keyLen  := (pairList lut n).extractLsb' dataLen keyLen

-- `lut_out` and `hit` after `n` rounds of the loop.
def rounds : Nat → BitVec dataLen × Bool
  | 0     => (0, false)
  | i + 1 =>
    let (lutOut, hit) := rounds i
    (lutOut ||| (fill dataLen (key == keyList lut i) &&& dataList lut i), hit || key == keyList lut i)

end

def muxKeyInternal {nrKey keyLen dataLen : Nat} (hasDefault : Int) (key : BitVec keyLen)
    (defaultOut : BitVec dataLen) (lut : BitVec (nrKey * (keyLen + dataLen))) : BitVec dataLen :=
  let (lutOut, hit) := rounds key lut nrKey
  if hasDefault = 0 then lutOut else if hit then lutOut else defaultOut

end ExamModule
