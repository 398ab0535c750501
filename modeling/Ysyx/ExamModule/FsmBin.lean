import Ysyx.ExamModule.MuxKeyInternal
import Ysyx.Hardware.Clocked

-- The state machine FSM_bin, built of a register Reg and two multiplexers.

namespace ExamModule

-- `dout` after a rising edge of `clk`.
def Reg.next {width : Nat} (resetVal : BitVec width) (rst : Bool) (din dout : BitVec width) (wen : Bool) :
    BitVec width :=
  if rst then resetVal else if wen then din else dout

namespace FsmBin

-- `in` and `reset`
structure Pins where
  input : Bool
  reset : Bool

def S0 : BitVec 4 := 0
def S1 : BitVec 4 := 1
def S2 : BitVec 4 := 2
def S3 : BitVec 4 := 3
def S4 : BitVec 4 := 4
def S5 : BitVec 4 := 5
def S6 : BitVec 4 := 6
def S7 : BitVec 4 := 7
def S8 : BitVec 4 := 8

def outLut : BitVec (9 * (4 + 1)) :=
  S0 ++ 0#1 ++
  S1 ++ 0#1 ++
  S2 ++ 0#1 ++
  S3 ++ 0#1 ++
  S4 ++ 1#1 ++
  S5 ++ 0#1 ++
  S6 ++ 0#1 ++
  S7 ++ 0#1 ++
  S8 ++ 1#1

def stateLut (input : Bool) : BitVec (9 * (4 + 4)) :=
  S0 ++ (if input then S5 else S1) ++
  S1 ++ (if input then S5 else S2) ++
  S2 ++ (if input then S5 else S3) ++
  S3 ++ (if input then S5 else S4) ++
  S4 ++ (if input then S5 else S4) ++
  S5 ++ (if input then S6 else S1) ++
  S6 ++ (if input then S7 else S1) ++
  S7 ++ (if input then S8 else S1) ++
  S8 ++ (if input then S8 else S1)

-- HAS_DEFAULT is 0 where the instance does not give it.
def outMux (stateDout : BitVec 4) : BitVec 1 :=
  muxKeyInternal 0 stateDout 0 outLut

def stateMux (input : Bool) (stateDout : BitVec 4) : BitVec 4 :=
  muxKeyInternal 0 stateDout S0 (stateLut input)

-- The design has no state but `state_dout`.
def next (pins : Pins) (stateDout : BitVec 4) : BitVec 4 :=
  Reg.next 0 pins.reset (stateMux pins.input stateDout) stateDout true

end FsmBin

end ExamModule
