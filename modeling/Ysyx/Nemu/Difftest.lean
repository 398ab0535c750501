import Ysyx.Nemu.Cpu

-- Differential testing for any instruction set and any reference: the requests of an instruction and `difftest_step`.

namespace Nemu

namespace Difftest

-- The check of an instruction set with registers `C`, and the functions that a reference with states `R` exports.
-- The check finds the registers of the processor in `cpu`.
structure Reference (C R : Type) where
  pc                      : C → Word
  isa_difftest_checkregs  : (cpu ref_r : C) → Word → Bool
  ref_difftest_exec       : R → R
  ref_difftest_regcpy_dut : R → C
  ref_difftest_regcpy_ref : C → R → R

-- `nr_checks` counts the calls of `checkregs`.
structure State (C R : Type) where
  cpu              : C
  nemu_state       : NEMUState
  ref              : R
  is_skip_ref      : Bool
  skip_dut_nr_inst : Int
  nr_checks        : Nat

-- Adding beyond the range of an `int` is undefined.
inductive Fault
  | overflow
  | catchUp (ref_pc pc : Word)
  deriving DecidableEq, Repr

inductive Call
  | skip_ref
  | skip_dut (nr_ref nr_dut : Int)
  deriving DecidableEq, Repr

-- The execution of an instruction: its requests in their order, and what it leaves behind.
structure Inst (C : Type) where
  calls      : List Call
  cpu        : C
  nemu_state : NEMUState

variable {C R : Type}

def difftest_skip_ref (s : State C R) : State C R :=
  { s with is_skip_ref := true, skip_dut_nr_inst := 0 }

namespace Reference

variable (sim : Reference C R)

def difftest_skip_dut (nr_ref nr_dut : Int) (s : State C R) : Except Fault (State C R) :=
  let n := s.skip_dut_nr_inst + nr_dut
  if -2 ^ 31 ≤ n ∧ n < 2 ^ 31 then
    .ok { s with skip_dut_nr_inst := n, ref := sim.ref_difftest_exec^[nr_ref.toNat] s.ref }
  else
    .error .overflow

-- The reference starts with the registers of the processor.
def init_difftest (cpu : C) (nemu_state : NEMUState) (ref : R) : State C R where
  cpu
  nemu_state
  ref              := sim.ref_difftest_regcpy_ref cpu ref
  is_skip_ref      := false
  skip_dut_nr_inst := 0
  nr_checks        := 0

def checkregs (ref_r : C) (pc : Word) (s : State C R) : State C R :=
  let s := { s with nr_checks := s.nr_checks + 1 }
  if sim.isa_difftest_checkregs s.cpu ref_r pc then s
  else { s with nemu_state.state := NEMU_ABORT, nemu_state.halt_pc := pc }

def difftest_step (pc npc : Word) (s : State C R) : Except Fault (State C R) :=
  if s.skip_dut_nr_inst > 0 then
    let ref_r := sim.ref_difftest_regcpy_dut s.ref
    if sim.pc ref_r = npc then
      .ok <| sim.checkregs ref_r npc { s with skip_dut_nr_inst := 0 }
    else if s.skip_dut_nr_inst - 1 = 0 then
      .error <| .catchUp (sim.pc ref_r) pc
    else
      .ok { s with skip_dut_nr_inst := s.skip_dut_nr_inst - 1 }
  else if s.is_skip_ref then
    .ok { s with ref := sim.ref_difftest_regcpy_ref s.cpu s.ref, is_skip_ref := false }
  else
    let ref := sim.ref_difftest_exec s.ref
    .ok <| sim.checkregs (sim.ref_difftest_regcpy_dut ref) pc { s with ref }

def call (s : State C R) : Call → Except Fault (State C R)
  | .skip_ref               => .ok (difftest_skip_ref s)
  | .skip_dut nr_ref nr_dut => sim.difftest_skip_dut nr_ref nr_dut s

-- `exec_once` and `trace_and_difftest`.
def exec (i : Inst C) (s : State C R) : Except Fault (State C R) := do
  let s ← i.calls.foldlM sim.call s
  sim.difftest_step (sim.pc s.cpu) (sim.pc i.cpu) { s with cpu := i.cpu, nemu_state := i.nemu_state }

-- Neither an abort nor a panic.
def Step (i : Inst C) (s s' : State C R) : Prop :=
  sim.exec i s = .ok s' ∧ s'.nemu_state.state ≠ NEMU_ABORT

-- The states that are reached from `s` by steps that meet `P`.
inductive Run (P : State C R → Inst C → Prop) (s : State C R) : State C R → Prop
  | refl : Run P s s
  | step {s₁ s₂ : State C R} {i : Inst C} : Run P s s₁ → P s₁ i → sim.Step i s₁ s₂ → Run P s s₂

-- A reference whose registers are those that were copied to it, checked for equality.
structure Exact : Prop where
  checkregs : ∀ cpu ref_r pc, sim.isa_difftest_checkregs cpu ref_r pc = true ↔ cpu = ref_r
  regcpy    : ∀ cpu ref, sim.ref_difftest_regcpy_dut (sim.ref_difftest_regcpy_ref cpu ref) = cpu

-- What a step from `s` to `s'` has to achieve.
structure Sound (i : Inst C) (s s' : State C R) : Prop where
  equal    : s'.skip_dut_nr_inst = 0 → s'.cpu = sim.ref_difftest_regcpy_dut s'.ref
  compared : s'.nr_checks = s.nr_checks → .skip_ref ∈ i.calls ∨ 0 < s'.skip_dut_nr_inst

end Reference

-- What a request leaves in `skip_dut_nr_inst`.
def Call.count (n : Int) : Call → Int
  | skip_ref          => 0
  | skip_dut _ nr_dut => n + nr_dut

-- After its last call of `difftest_skip_ref`, the instruction does not ask the reference to wait.
def Inst.Clean (i : Inst C) : Prop :=
  .skip_ref ∈ i.calls → i.calls.foldl Call.count 0 ≤ 0

end Difftest

open Difftest

variable {D R : Type}

-- The reference of riscv32.
def System.reference (sys : System D R) : Reference CPU_state R where
  pc                       := CPU_state.pc
  isa_difftest_checkregs _ := isa_difftest_checkregs
  ref_difftest_exec        := sys.ref_difftest_exec
  ref_difftest_regcpy_dut  := sys.ref_difftest_regcpy_dut
  ref_difftest_regcpy_ref  := sys.ref_difftest_regcpy_ref

-- What differential testing sees of a machine.
def Machine.difftest (m : Machine D R) (nr_checks : Nat) : Difftest.State CPU_state R where
  cpu              := m.cpu
  nemu_state       := m.nemu_state
  ref              := m.ref
  is_skip_ref      := m.is_skip_ref
  skip_dut_nr_inst := m.skip_dut_nr_inst
  nr_checks

end Nemu
