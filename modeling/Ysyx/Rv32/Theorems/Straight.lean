import Ysyx.Rv32.Basic

namespace Rv32

open State

variable {s : State} {code : List Instr}

def Instr.Straight : Instr → Prop
  | .jalr .. => False
  | _        => True

instance : DecidablePred Instr.Straight
  | .jalr .. => isFalse id
  | .add .. | .addi .. | .lui .. | .lw .. | .lbu .. | .sw .. | .sb .. => isTrue trivial

@[simp] theorem Instr.straight_add : (Instr.add rd rs1 rs2).Straight := trivial
@[simp] theorem Instr.straight_addi : (Instr.addi rd rs1 imm).Straight := trivial
@[simp] theorem Instr.straight_lui : (Instr.lui rd imm).Straight := trivial

def Straight (code : List Instr) : Prop :=
  ∀ i ∈ code, i.Straight

@[simp] theorem straight_nil : Straight [] := by
  simp [Straight]

@[simp] theorem straight_cons {i : Instr} : Straight (i :: code) ↔ i.Straight ∧ Straight code := by
  simp [Straight]

@[simp] theorem straight_append {code' : List Instr} :
    Straight (code ++ code') ↔ Straight code ∧ Straight code' := by
  simp [Straight, or_imp, forall_and]

theorem State.exec_pc {i : Instr} (h : i.Straight) : (s.exec i).pc = s.pc + 4 := by
  cases i <;> simp [exec]
  case jalr => contradiction

theorem State.run_pc (h : Straight code) :
    (s.run code).pc = s.pc + BitVec.ofNat 32 (4 * code.length) := by
  induction code generalizing s
  case nil => simp
  case cons i code hi =>
    rw [straight_cons] at h
    rw [run_cons, hi h.right, exec_pc h.left, List.length_cons, Nat.mul_succ, Nat.add_comm,
      BitVec.ofNat_add, ← BitVec.add_assoc]
    rfl

-- The machine that fetches its instructions from `fetch`.
def step (fetch : Word → Option Instr) (s : State) : Option State :=
  (fetch s.pc).map s.exec

def steps (fetch : Word → Option Instr) : Nat → State → Option State
  | 0,     s => some s
  | n + 1, s => (step fetch s).bind (steps fetch n)

def CodeAt (fetch : Word → Option Instr) (a : Word) (code : List Instr) : Prop :=
  ∀ i (h : i < code.length), fetch (a + BitVec.ofNat 32 (4 * i)) = some code[i]

-- Code of less than 4 GB can be placed anywhere.
theorem exists_codeAt (a : Word) (h : 4 * code.length ≤ 2 ^ 32) : ∃ fetch, CodeAt fetch a code := by
  refine ⟨fun x => code[(x - a).toNat / 4]?, fun i hi => ?_⟩
  have ha : (a + BitVec.ofNat 32 (4 * i) - a).toNat / 4 = i := by
    rw [BitVec.add_comm, BitVec.add_sub_cancel, BitVec.toNat_ofNat, Nat.mod_eq_of_lt (by omega)]
    omega
  beta_reduce
  rw [ha, List.getElem?_eq_getElem hi]

theorem CodeAt.tail {fetch} {a : Word} {i : Instr} (h : CodeAt fetch a (i :: code)) :
    CodeAt fetch (a + 4) code := by
  intro n hn
  have := h (n + 1) (by simpa using hn)
  rwa [Nat.mul_succ, Nat.add_comm, BitVec.ofNat_add, ← BitVec.add_assoc] at this

-- A block of instructions of which at most the last one jumps is executed from its first to its
-- last instruction.
theorem steps_eq_run {fetch} (h : CodeAt fetch s.pc code)
    (hs : Straight code.dropLast) : steps fetch code.length s = some (s.run code) := by
  induction code generalizing s
  case nil => rfl
  case cons i code hi =>
    have hf : fetch s.pc = some i := by simpa using h 0 (Nat.succ_pos _)
    simp only [List.length_cons, steps, step, hf, Option.map_some, Option.bind_some, run_cons]
    cases code
    case nil => rfl
    case cons j code =>
      rw [List.dropLast_cons_cons, straight_cons] at hs
      exact hi (exec_pc hs.left ▸ h.tail) hs.right

end Rv32
