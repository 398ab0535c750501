import Mathlib.Logic.Relation
import Ysyx.Rv32.Basic

-- Assembler programs over the integer instructions of RV32. Branches and jumps name labels of the program. The
-- linker decides at which addresses the lines are found.

namespace Rv32.Asm

@[simp] abbrev zero : Reg := 0
@[simp] abbrev ra : Reg := 1
@[simp] abbrev t0 : Reg := 5
@[simp] abbrev a0 : Reg := 10
@[simp] abbrev a1 : Reg := 11
@[simp] abbrev a2 : Reg := 12
@[simp] abbrev a3 : Reg := 13

inductive Alu
  | add | sub | sll | slt | sltu | xor | srl | sra | or | and
  deriving DecidableEq, Repr

def Alu.eval : Alu → Word → Word → Word
  | add,  a, b => a + b
  | sub,  a, b => a - b
  | sll,  a, b => a <<< (b.toNat % 32)
  | slt,  a, b => if a.toInt < b.toInt then 1 else 0
  | sltu, a, b => if a < b then 1 else 0
  | xor,  a, b => a ^^^ b
  | srl,  a, b => a >>> (b.toNat % 32)
  | sra,  a, b => a.sshiftRight (b.toNat % 32)
  | or,   a, b => a ||| b
  | and,  a, b => a &&& b

-- The operations that take a constant.
inductive AluImm
  | addi | slti | sltiu | xori | ori | andi
  deriving DecidableEq, Repr

def AluImm.alu : AluImm → Alu
  | addi => .add | slti => .slt | sltiu => .sltu | xori => .xor | ori => .or | andi => .and

inductive Shift
  | slli | srli | srai
  deriving DecidableEq, Repr

def Shift.eval : Shift → Word → Nat → Word
  | slli, a, n => a <<< n
  | srli, a, n => a >>> n
  | srai, a, n => a.sshiftRight n

inductive Load
  | lb | lh | lw | lbu | lhu
  deriving DecidableEq, Repr

def Load.width : Load → Nat
  | lb | lbu => 1
  | lh | lhu => 2
  | lw => 4

def Load.eval (m : Memory 32) (a : Word) : Load → Word
  | lb  => (m a).signExtend 32
  | lbu => (m a).setWidth 32
  | lh  => (m (a + 1) ++ m a).signExtend 32
  | lhu => (m (a + 1) ++ m a).setWidth 32
  | lw  => m.load32 a

inductive Store
  | sb | sh | sw
  deriving DecidableEq, Repr

def Store.width : Store → Nat
  | sb => 1 | sh => 2 | sw => 4

inductive Cond
  | eq | ne | lt | ge | ltu | geu
  deriving DecidableEq, Repr

def Cond.Holds : Cond → Word → Word → Prop
  | eq,  a, b => a = b
  | ne,  a, b => a ≠ b
  | lt,  a, b => a.toInt < b.toInt
  | ge,  a, b => a.toInt ≥ b.toInt
  | ltu, a, b => a < b
  | geu, a, b => a ≥ b

instance decidableHolds (a b : Word) : (c : Cond) → Decidable (c.Holds a b)
  | .eq  => inferInstanceAs <| Decidable (a = b)
  | .ne  => inferInstanceAs <| Decidable (a ≠ b)
  | .lt  => inferInstanceAs <| Decidable (a.toInt < b.toInt)
  | .ge  => inferInstanceAs <| Decidable (a.toInt ≥ b.toInt)
  | .ltu => inferInstanceAs <| Decidable (a < b)
  | .geu => inferInstanceAs <| Decidable (a ≥ b)

inductive Line (L : Type)
  | op (f : Alu) (rd rs1 rs2 : Reg)
  | opImm (f : AluImm) (rd rs1 : Reg) (imm : BitVec 12)
  | shift (f : Shift) (rd rs1 : Reg) (shamt : BitVec 5)
  | lui (rd : Reg) (imm : BitVec 20)
  | load (f : Load) (rd : Reg) (imm : BitVec 12) (rs1 : Reg)
  | store (f : Store) (rs2 : Reg) (imm : BitVec 12) (rs1 : Reg)
  | branch (c : Cond) (rs1 rs2 : Reg) (target : L)
  | jal (rd : Reg) (target : L)
  | jalr (rd rs1 : Reg) (imm : BitVec 12)
  deriving DecidableEq, Repr

section Pseudo

variable {L : Type} (rd rs rs1 rs2 : Reg) (imm : BitVec 12) (target : L)

def add  : Line L := .op .add rd rs1 rs2
def sub  : Line L := .op .sub rd rs1 rs2
def or   : Line L := .op .or rd rs1 rs2
def andi : Line L := .opImm .andi rd rs1 imm
def mv   : Line L := .opImm .addi rd rs 0
def li   : Line L := .opImm .addi rd zero imm
def neg  : Line L := .op .sub rd zero rs
def slli (shamt : BitVec 5) : Line L := .shift .slli rd rs1 shamt
def srli (shamt : BitVec 5) : Line L := .shift .srli rd rs1 shamt
def bltu : Line L := .branch .ltu rs1 rs2 target
def bgeu : Line L := .branch .geu rs1 rs2 target
def bgtu : Line L := .branch .ltu rs2 rs1 target
def beqz : Line L := .branch .eq rs zero target
def bnez : Line L := .branch .ne rs zero target
def bltz : Line L := .branch .lt rs zero target
def bgez : Line L := .branch .ge rs zero target
def bgtz : Line L := .branch .lt zero rs target
def blez : Line L := .branch .ge zero rs target
def j    : Line L := .jal zero target
def call : Line L := .jal ra target
def jr   : Line L := .jalr zero rs 0
def ret  : Line L := .jalr zero ra 0

end Pseudo

-- A source file has labels between its instructions.
inductive Item (L : Type)
  | label (l : L)
  | instr (l : Line L)

section Assemble

variable {L : Type} [DecidableEq L]

-- The number of the line behind the label.
def lineOf (l : L) : List (Item L) → Nat
  | []             => 0
  | .label l' :: s => if l = l' then 0 else lineOf l s
  | .instr _ :: s  => lineOf l s + 1

def Line.map {L' : Type} (f : L → L') : Line L → Line L'
  | op g rd rs1 rs2         => op g rd rs1 rs2
  | opImm g rd rs1 imm      => opImm g rd rs1 imm
  | shift g rd rs1 shamt    => shift g rd rs1 shamt
  | lui rd imm              => lui rd imm
  | load g rd imm rs1       => load g rd imm rs1
  | store g rs2 imm rs1     => store g rs2 imm rs1
  | branch c rs1 rs2 target => branch c rs1 rs2 (f target)
  | jal rd target           => jal rd (f target)
  | jalr rd rs1 imm         => jalr rd rs1 imm

def assemble (source : List (Item L)) : List (Line Nat) :=
  source.filterMap fun
    | .label _ => none
    | .instr l => some <| l.map (lineOf · source)

end Assemble

section Exec

variable (p : List (Line Nat)) (addr : Nat → Word)

-- Line `i` is found at `addr i`.
def Line.exec (i : Nat) (s : State) : Line Nat → State
  | op f rd rs1 rs2      => (s.setReg rd (f.eval (s.reg rs1) (s.reg rs2))).jump (addr (i + 1))
  | opImm f rd rs1 imm   => (s.setReg rd (f.alu.eval (s.reg rs1) (imm.signExtend 32))).jump (addr (i + 1))
  | shift f rd rs1 shamt => (s.setReg rd (f.eval (s.reg rs1) shamt.toNat)).jump (addr (i + 1))
  | lui rd imm           => (s.setReg rd (imm ++ 0#12)).jump (addr (i + 1))
  | load f rd imm rs1    => (s.setReg rd (f.eval s.mem (s.addr imm rs1))).jump (addr (i + 1))
  | store f rs2 imm rs1  => (s.setMem (s.mem.store (s.addr imm rs1) f.width (s.reg rs2))).jump (addr (i + 1))
  | branch c rs1 rs2 t   => s.jump (addr (if c.Holds (s.reg rs1) (s.reg rs2) then t else i + 1))
  | jal rd t             => (s.setReg rd (addr (i + 1))).jump (addr t)
  | jalr rd rs1 imm      => (s.setReg rd (addr (i + 1))).jump ((s.reg rs1 + imm.signExtend 32) &&& ~~~1)

section

variable {addr} {i t : Nat} {s : State} {rd rs rs1 rs2 : Reg} {imm : BitVec 12} {shamt : BitVec 5}

@[simp] theorem exec_add : (add rd rs1 rs2).exec addr i s = (s.setReg rd (s.reg rs1 + s.reg rs2)).jump (addr (i + 1)) :=
  rfl

@[simp] theorem exec_sub : (sub rd rs1 rs2).exec addr i s = (s.setReg rd (s.reg rs1 - s.reg rs2)).jump (addr (i + 1)) :=
  rfl

@[simp] theorem exec_or : (or rd rs1 rs2).exec addr i s = (s.setReg rd (s.reg rs1 ||| s.reg rs2)).jump (addr (i + 1)) :=
  rfl

@[simp] theorem exec_andi : (andi rd rs1 imm).exec addr i s =
    (s.setReg rd (s.reg rs1 &&& imm.signExtend 32)).jump (addr (i + 1)) :=
  rfl

@[simp] theorem exec_slli : (slli rd rs1 shamt).exec addr i s =
    (s.setReg rd (s.reg rs1 <<< shamt.toNat)).jump (addr (i + 1)) :=
  rfl

@[simp] theorem exec_srli : (srli rd rs1 shamt).exec addr i s =
    (s.setReg rd (s.reg rs1 >>> shamt.toNat)).jump (addr (i + 1)) :=
  rfl

@[simp] theorem exec_mv : (mv rd rs).exec addr i s = (s.setReg rd (s.reg rs)).jump (addr (i + 1)) := by
  simp [mv, Line.exec, AluImm.alu, Alu.eval]

@[simp] theorem exec_li : (li rd imm).exec addr i s = (s.setReg rd (imm.signExtend 32)).jump (addr (i + 1)) := by
  simp [li, Line.exec, AluImm.alu, Alu.eval]

@[simp] theorem exec_neg : (neg rd rs).exec addr i s = (s.setReg rd (-s.reg rs)).jump (addr (i + 1)) := by
  simp [neg, Line.exec, Alu.eval]

@[simp] theorem exec_beqz : (beqz rs t).exec addr i s = s.jump (addr (if s.reg rs = 0 then t else i + 1)) :=
  rfl

@[simp] theorem exec_bnez : (bnez rs t).exec addr i s = s.jump (addr (if s.reg rs ≠ 0 then t else i + 1)) :=
  rfl

@[simp] theorem exec_bltu : (bltu rs1 rs2 t).exec addr i s =
    s.jump (addr (if s.reg rs1 < s.reg rs2 then t else i + 1)) :=
  rfl

@[simp] theorem exec_bgtu : (bgtu rs1 rs2 t).exec addr i s =
    s.jump (addr (if s.reg rs2 < s.reg rs1 then t else i + 1)) :=
  rfl

@[simp] theorem exec_bgeu : (bgeu rs1 rs2 t).exec addr i s =
    s.jump (addr (if s.reg rs2 ≤ s.reg rs1 then t else i + 1)) :=
  rfl

@[simp] theorem exec_bltz : (bltz rs t).exec addr i s = s.jump (addr (if (s.reg rs).toInt < 0 then t else i + 1)) :=
  rfl

@[simp] theorem exec_bgez : (bgez rs t).exec addr i s = s.jump (addr (if 0 ≤ (s.reg rs).toInt then t else i + 1)) :=
  rfl

@[simp] theorem exec_bgtz : (bgtz rs t).exec addr i s = s.jump (addr (if 0 < (s.reg rs).toInt then t else i + 1)) :=
  rfl

@[simp] theorem exec_blez : (blez rs t).exec addr i s = s.jump (addr (if (s.reg rs).toInt ≤ 0 then t else i + 1)) :=
  rfl

@[simp] theorem exec_j : (j t).exec addr i s = s.jump (addr t) :=
  rfl

@[simp] theorem exec_call : (call t).exec addr i s = (s.setReg ra (addr (i + 1))).jump (addr t) :=
  rfl

@[simp] theorem exec_jr : (jr rs).exec addr i s = s.jump (s.reg rs &&& ~~~1) := by
  simp [jr, Line.exec, State.setReg_zero]

@[simp] theorem exec_ret : ret.exec addr i s = s.jump (s.reg ra &&& ~~~1) :=
  exec_jr

end

-- The bytes that a line reads and writes.

def Line.reads {L : Type} (s : State) : Line L → Set Word
  | load f _ imm rs1 => Memory.region (s.addr imm rs1) f.width
  | _ => ∅

def Line.writes {L : Type} (s : State) : Line L → Set Word
  | store f _ imm rs1 => Memory.region (s.addr imm rs1) f.width
  | _ => ∅

def Line.operands {L : Type} : Line L → List Reg
  | op _ rd rs1 rs2    => [rd, rs1, rs2]
  | opImm _ rd rs1 _   => [rd, rs1]
  | shift _ rd rs1 _   => [rd, rs1]
  | lui rd _           => [rd]
  | load _ rd _ rs1    => [rd, rs1]
  | store _ rs2 _ rs1  => [rs2, rs1]
  | branch _ rs1 rs2 _ => [rs1, rs2]
  | jal rd _           => [rd]
  | jalr rd rs1 _      => [rd, rs1]

def lineAt (a : Word) : Option Nat :=
  (List.range p.length).find? (addr · = a)

-- The machine stops where it leaves the program.
def step (s : State) : Option State :=
  (lineAt p addr s.pc).bind fun i => p[i]?.map (Line.exec addr i s)

def Reaches : State → State → Prop :=
  Relation.ReflTransGen fun s s' => step p addr s = some s'

-- The lines have addresses of their own, to which a jump through a register can go.
structure Placed : Prop where
  inj  : ∀ i < p.length, ∀ j < p.length, addr i = addr j → i = j
  even : ∀ i ≤ p.length, addr i &&& ~~~1 = addr i

end Exec

section Placed

variable {p : List (Line Nat)} {addr : Nat → Word} {s s' : State} {i : Nat} {l : Line Nat}

theorem Placed.lineAt (h : Placed p addr) (hi : i < p.length) : lineAt p addr (addr i) = some i := by
  rw [Asm.lineAt, List.find?_range_eq_some]
  refine ⟨by simp, List.mem_range.mpr hi, fun j hj => ?_⟩
  have hn : addr j ≠ addr i := fun he => Nat.ne_of_lt hj <| h.inj j (hj.trans hi) i hi he
  simpa using hn

theorem Placed.step (h : Placed p addr) (hp : s.pc = addr i) (hl : p[i]? = some l) :
    step p addr s = some (l.exec addr i s) := by
  have hi := (List.getElem?_eq_some_iff.mp hl).fst
  rw [Asm.step, hp, h.lineAt hi, Option.bind_some, hl, Option.map_some]

theorem Placed.reaches (h : Placed p addr) (hp : s.pc = addr i) (hl : p[i]? = some l)
    (hr : Reaches p addr (l.exec addr i s) s') : Reaches p addr s s' :=
  .head (h.step hp hl) hr

theorem and_not_one {v : Word} (h : v.toNat % 2 = 0) : v &&& ~~~1 = v := by
  ext j hj
  rw [BitVec.getElem_and, BitVec.getElem_not]
  cases j
  case zero =>
    have h₀ : v[0] = false := by simp [← BitVec.getLsbD_eq_getElem, BitVec.getLsbD, Nat.testBit_zero, h]
    rw [h₀, Bool.false_and]
  case succ n =>
    have h₁ : (1 : Word)[n + 1] = false := by simp
    rw [h₁, Bool.not_false, Bool.and_true]

-- The lines follow each other, four bytes each.
theorem placed_consecutive {base : Word} (h : base.toNat + 4 * p.length < 2 ^ 32) (he : base.toNat % 2 = 0) :
    Placed p fun i => base + BitVec.ofNat 32 (4 * i) where
  inj i hi j hj he := by bv_omega
  even i hi := and_not_one <| by bv_omega

end Placed

-- The states differ in the registers `W` only, and in where the program is.
structure Changes (W : List Reg) (s s' : State) : Prop where
  reg : ∀ r ∉ W, s'.reg r = s.reg r
  mem : s'.mem = s.mem

namespace Changes

variable {W W' : List Reg} {s s' s'' : State} {r : Reg} {v a : Word}

@[simp] theorem refl : Changes W s s where
  reg _ _ := rfl
  mem     := rfl

theorem trans (c : Changes W s s') (c' : Changes W s' s'') : Changes W s s'' where
  reg r hr := (c'.reg r hr).trans (c.reg r hr)
  mem      := c'.mem.trans c.mem

theorem mono (c : Changes W' s s') (h : W' ⊆ W := by simp) : Changes W s s' where
  reg r hr := c.reg r <| mt (@h r) hr
  mem      := c.mem

theorem symm (c : Changes W s s') : Changes W s' s where
  reg r hr := (c.reg r hr).symm
  mem      := c.mem.symm

@[simp] theorem jump_iff : Changes W s (s'.jump a) ↔ Changes W s s' where
  mp c  := { reg := c.reg, mem := c.mem }
  mpr c := { reg := c.reg, mem := c.mem }

@[simp] theorem jump_left_iff : Changes W (s.jump a) s' ↔ Changes W s s' where
  mp c  := { reg := c.reg, mem := c.mem }
  mpr c := { reg := c.reg, mem := c.mem }

@[simp] theorem setReg_iff (h : r ∈ W) : Changes W s (s'.setReg r v) ↔ Changes W s s' := by
  have hc : Changes W s' (s'.setReg r v) := by
    refine ⟨fun r' hr' => ?_, State.mem_setReg⟩
    have hn : r' ≠ r := fun he => hr' (he ▸ h)
    simp [hn]
  exact ⟨fun c => c.trans hc.symm, fun c => c.trans hc⟩

end Changes

-- A routine that is called comes back to where `ra` says.
structure Returns (p : List (Line Nat)) (addr : Nat → Word) (W : List Reg) (s s' : State) : Prop where
  reaches : Reaches p addr s s'
  pc      : s'.pc = s.reg ra &&& ~~~1
  changes : Changes W s s'

namespace Returns

variable {p : List (Line Nat)} {addr : Nat → Word} {W W' : List Reg} {s s' s'' : State} {i : Nat}

theorem mono (r : Returns p addr W' s s') (h : W' ⊆ W := by simp) : Returns p addr W s s' where
  reaches := r.reaches
  pc      := r.pc
  changes := r.changes.mono h

-- The routine has executed some of its lines.
theorem after (r : Returns p addr W s' s'') (h : Reaches p addr s s') (c : Changes W s s') (hr : s'.reg ra = s.reg ra) :
    Returns p addr W s s'' where
  reaches := h.trans r.reaches
  pc      := hr ▸ r.pc
  changes := c.trans r.changes

theorem ret (h : Placed p addr) (hp : s.pc = addr i) (hl : p[i]? = some Asm.ret) :
    Returns p addr W s (s.jump (s.reg ra &&& ~~~1)) where
  reaches := h.reaches hp hl <| exec_ret ▸ .refl
  pc      := rfl
  changes := by simp

end Returns
end Rv32.Asm
