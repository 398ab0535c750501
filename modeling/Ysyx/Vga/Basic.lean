import Ysyx.Hardware.Clocked
import Mathlib.Data.BitVec

-- The VGA design: `vga_ctrl` scans the picture memory `vmem`.

namespace Vga

-- vga_ctrl

def h_frontporch : Nat := 96
def h_active     : Nat := 144
def h_backporch  : Nat := 784
def h_total      : Nat := 800

def v_frontporch : Nat := 2
def v_active     : Nat := 35
def v_backporch  : Nat := 515
def v_total      : Nat := 525

structure Ctrl where
  x_cnt : BitVec 10
  y_cnt : BitVec 10

namespace Ctrl

variable (c : Ctrl)

def next (reset : Bool) : Ctrl where
  x_cnt := if reset then 1 else if c.x_cnt.toNat = h_total then 1 else c.x_cnt + 1
  y_cnt :=
    if reset then 1
    else if c.y_cnt.toNat = v_total ∧ c.x_cnt.toNat = h_total then 1
    else if c.x_cnt.toNat = h_total then c.y_cnt + 1
    else c.y_cnt

def hsync : Bool := c.x_cnt.toNat > h_frontporch
def vsync : Bool := c.y_cnt.toNat > v_frontporch

def h_valid : Bool := c.x_cnt.toNat > h_active && c.x_cnt.toNat ≤ h_backporch
def v_valid : Bool := c.y_cnt.toNat > v_active && c.y_cnt.toNat ≤ v_backporch
def valid   : Bool := c.h_valid && c.v_valid

def h_addr : BitVec 10 := if c.h_valid then c.x_cnt - 145 else 0
def v_addr : BitVec 10 := if c.v_valid then c.y_cnt - 36 else 0

-- `reset` is held low.
def cycles (c : Ctrl) : Nat → Ctrl :=
  Clocked.run (fun reset c => c.next reset) (fun _ => false) c

-- The address that is presented, if there is one.
def addr? : Option (BitVec 10 × BitVec 10) :=
  if c.valid then some (c.h_addr, c.v_addr) else none

-- The addresses that are presented in `n` cycles.
def presented (n : Nat) : List (BitVec 10 × BitVec 10) :=
  (List.range n).filterMap fun t => (c.cycles t).addr?

end Ctrl

-- `{v_addr, h_addr}`
abbrev Vmem := BitVec 19 → BitVec 24

-- top

structure Top where
  ctrl     : Ctrl
  vga_data : BitVec 24

namespace Top

variable (s : Top)

-- `reset` of the controller is tied to 0.
def edge (vga_mem : Vmem) (s : Top) : Top where
  ctrl     := s.ctrl.next false
  vga_data := vga_mem (s.ctrl.v_addr.setWidth 9 ++ s.ctrl.h_addr)

def cycles (vga_mem : Vmem) : Top → Nat → Top :=
  Clocked.run (fun _ : Unit => edge vga_mem) fun _ => ()

def VGA_BLANK_N : Bool := s.ctrl.valid

def VGA_R : BitVec 8 := s.vga_data.extractLsb' 16 8
def VGA_G : BitVec 8 := s.vga_data.extractLsb' 8 8
def VGA_B : BitVec 8 := s.vga_data.extractLsb' 0 8

-- The colour that is presented, if there is one.
def pixel? : Option (BitVec 24) :=
  if s.VGA_BLANK_N then some (s.VGA_R ++ s.VGA_G ++ s.VGA_B) else none

-- The colours that are presented in `n` cycles.
def shown (vga_mem : Vmem) (s : Top) (n : Nat) : List (BitVec 24) :=
  (List.range n).filterMap fun t => (s.cycles vga_mem t).pixel?

end Top

-- The pixel of line `v` and column `h`.
def stored (vga_mem : Vmem) (v h : Nat) : BitVec 24 :=
  vga_mem (BitVec.ofNat 9 v ++ BitVec.ofNat 10 h)

end Vga
