import Ysyx.Rv32.Asm

-- muldi3.S and div.S, where the registers have 32 bits.

namespace Am.Libgcc

open Rv32.Asm

namespace Muldi3

inductive Label
  | mulsi3 | L1 | L2
  deriving DecidableEq

def source : List (Item Label) := [
  .label .mulsi3,
  .instr <| mv a2 a0,
  .instr <| li a0 0,
  .label .L1,
  .instr <| andi a3 a1 1,
  .instr <| beqz a3 .L2,
  .instr <| add a0 a0 a2,
  .label .L2,
  .instr <| srli a1 a1 1,
  .instr <| slli a2 a2 1,
  .instr <| bnez a1 .L1,
  .instr ret]

def program : List (Line Nat) :=
  assemble source

def mulsi3 : Nat :=
  lineOf .mulsi3 source

end Muldi3

namespace Div

inductive Label
  | divsi3 | udivsi3 | umodsi3 | modsi3 | L1 | L2 | L3 | L4 | L5 | L10 | L11 | L12 | L30 | L31 | L32
  deriving DecidableEq

def source : List (Item Label) := [
  .label .divsi3,
  .instr <| bltz a0 .L10,
  .instr <| bltz a1 .L11,
  .label .udivsi3,
  .instr <| mv a2 a1,
  .instr <| mv a1 a0,
  .instr <| li a0 (-1),
  .instr <| beqz a2 .L5,
  .instr <| li a3 1,
  .instr <| bgeu a2 a1 .L2,
  .label .L1,
  .instr <| blez a2 .L2,
  .instr <| slli a2 a2 1,
  .instr <| slli a3 a3 1,
  .instr <| bgtu a1 a2 .L1,
  .label .L2,
  .instr <| li a0 0,
  .label .L3,
  .instr <| bltu a1 a2 .L4,
  .instr <| sub a1 a1 a2,
  .instr <| or a0 a0 a3,
  .label .L4,
  .instr <| srli a3 a3 1,
  .instr <| srli a2 a2 1,
  .instr <| bnez a3 .L3,
  .label .L5,
  .instr ret,
  .label .umodsi3,
  .instr <| mv t0 ra,
  .instr <| call .udivsi3,
  .instr <| mv a0 a1,
  .instr <| jr t0,
  .label .L10,
  .instr <| neg a0 a0,
  .instr <| bgtz a1 .L12,
  .instr <| neg a1 a1,
  .instr <| j .udivsi3,
  .label .L11,
  .instr <| neg a1 a1,
  .label .L12,
  .instr <| mv t0 ra,
  .instr <| call .udivsi3,
  .instr <| neg a0 a0,
  .instr <| jr t0,
  .label .modsi3,
  .instr <| mv t0 ra,
  .instr <| bltz a1 .L31,
  .instr <| bltz a0 .L32,
  .label .L30,
  .instr <| call .udivsi3,
  .instr <| mv a0 a1,
  .instr <| jr t0,
  .label .L31,
  .instr <| neg a1 a1,
  .instr <| bgez a0 .L30,
  .label .L32,
  .instr <| neg a0 a0,
  .instr <| call .udivsi3,
  .instr <| neg a0 a1,
  .instr <| jr t0]

def program : List (Line Nat) :=
  assemble source

def divsi3 : Nat :=
  lineOf .divsi3 source

def udivsi3 : Nat :=
  lineOf .udivsi3 source

def umodsi3 : Nat :=
  lineOf .umodsi3 source

def modsi3 : Nat :=
  lineOf .modsi3 source

end Div
end Am.Libgcc
