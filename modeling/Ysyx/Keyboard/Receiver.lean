import Ysyx.Hardware.Ring
import Ysyx.Keyboard.Basic

-- The PS/2 receiver on its own: what it samples, what it writes into its FIFO and what is read from it.

namespace Keyboard.Ps2

structure Input where
  ps2_clk    : Bool
  ps2_data   : Bool
  nextdata_n : Bool

-- An edge of `clk` without a reset.
def step (i : Input) (s : Ps2) : Ps2 :=
  s.edge true i.ps2_clk i.ps2_data i.nextdata_n

-- An edge of `clk` with a reset.
def cleared (s : Ps2) (i : Input) : Ps2 :=
  s.edge false i.ps2_clk i.ps2_data i.nextdata_n

def run (s : Ps2) (is : List Input) : Ps2 :=
  Clocked.feed step s is

-- The values of `ps2_data` at the sampling points.
def samples (s : Ps2) (is : List Input) : List Bool :=
  Clocked.emitted step (fun i s => if s.sampling then some i.ps2_data else none) s is

-- The codes that are written into the FIFO.
def pushed (s : Ps2) (is : List Input) : List Byte :=
  Clocked.emitted step (fun i s => s.push? i.ps2_data) s is

-- The codes that are taken from the FIFO.
def popped (s : Ps2) (is : List Input) : List Byte :=
  Clocked.emitted step (fun i s => if s.pop i.nextdata_n then some s.data else none) s is

-- The codes between the pointers.
def unread (s : Ps2) : List Byte :=
  Ring.between s.fifo s.r_ptr s.w_ptr

-- Groups of 11 sampled bits, the first one of a group is its bit 0.
def cut : List Bool → List (BitVec 11)
  | b₀ :: b₁ :: b₂ :: b₃ :: b₄ :: b₅ :: b₆ :: b₇ :: b₈ :: b₉ :: b₁₀ :: bits =>
    BitVec.ofBoolListLE [b₀, b₁, b₂, b₃, b₄, b₅, b₆, b₇, b₈, b₉, b₁₀] :: cut bits
  | _ => []

def bits (group : BitVec 11) : List Bool :=
  (List.range 11).map group.getLsbD

-- The code of a group that is a valid frame: start bit, eight data bits, odd parity and stop bit.
def decode (group : BitVec 11) : Option Byte :=
  if group.getLsbD 0 = false ∧ group.getLsbD 10 = true ∧ (List.range' 1 9).countP group.getLsbD % 2 = 1 then
    some (group.extractLsb' 1 8)
  else
    none

-- A transmission of some bits: `ps2_clk` falls and rises once for each bit, every level lasts at least four
-- cycles, and `ps2_data` has the value of the bit while `ps2_clk` is low.
inductive Sends : List Bool → List Input → Prop
  | nil : Sends [] []
  | cons {b : Bool} {bs : List Bool} {low high is : List Input} :
    4 ≤ low.length → (∀ i ∈ low, i.ps2_clk = false ∧ i.ps2_data = b) →
    4 ≤ high.length → (∀ i ∈ high, i.ps2_clk = true) →
    Sends bs is → Sends (b :: bs) (low ++ high ++ is)

-- No falling edge is on its way through the synchroniser.
def Quiescent (sync : BitVec 3) : Prop :=
  sync ∈ [0b000#3, 0b001#3, 0b011#3, 0b111#3]

end Keyboard.Ps2
