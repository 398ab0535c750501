import Ysyx.Bytes.Layout
import Ysyx.Minirv.Theorems.Sub

-- A placement of the objects of the header: the scratch array and the tables follow each other from
-- address `base` on.

open Rv32 State

namespace InstReplace

def Symbols.at (base : Word) : Symbols where
  checkSameArray  := base
  sameResultTable := base + 0x100
  check8bit0Table := base + 0x200
  slt1Table       := base + 0x300
  sltu1Table      := base + 0x400
  or1Table        := base + 0x500
  logicShiftTable := base + 0x600

variable {base : Word}

section Length

@[simp] theorem length_sameResultTable : Rodata.sameResultTable.length = 8 := (rfl)
@[simp] theorem length_slt1Table : Rodata.slt1Table.length = 8 := (rfl)
@[simp] theorem length_sltu1Table : Rodata.sltu1Table.length = 8 := (rfl)
@[simp] theorem length_or1Table : Rodata.or1Table.length = 4 := (rfl)

@[simp] theorem length_check8bit0Table : Rodata.check8bit0Table.length = 256 := by
  rw [Rodata.check8bit0Table, List.length_cons, List.length_replicate]

@[simp] theorem length_lutBin : lutBin.length = 0x48000 := by
  simp [lutBin, genTable_length]

end Length

theorem rodata_disjoint (h : base.toNat + 0x48600 ≤ 2 ^ 32) : (Symbols.at base).rodata.Pairwise fun o o' =>
    Disjoint (Memory.region o.fst o.snd.length) (Memory.region o'.fst o'.snd.length) := by
  have hp : (Symbols.at base).rodata.Pairwise fun o o' =>
      o.fst.toNat + o.snd.length ≤ o'.fst.toNat ∧ o'.fst.toNat + o'.snd.length ≤ 2 ^ 32 := by
    simp [Symbols.rodata, Symbols.at]
    omega
  exact hp.imp fun h => Memory.disjoint_region h.left h.right

theorem rodata_region (h : base.toNat + 0x48600 ≤ 2 ^ 32) : ∀ o ∈ (Symbols.at base).rodata,
    base.toNat + 0x100 ≤ o.fst.toNat ∧ o.fst.toNat + o.snd.length ≤ base.toNat + 0x48600 := by
  simp only [Symbols.rodata, Symbols.at, List.forall_mem_cons, List.not_mem_nil, false_imp_iff, implies_true,
    and_true, length_sameResultTable, length_slt1Table, length_sltu1Table, length_or1Table, length_check8bit0Table,
    length_lutBin]
  bv_omega

-- The image has the tables where the code looks for them if the stack pointer is above them.
theorem ready_at {s : State} (h : base.toNat + 0x48600 + 28 ≤ (s.reg sp).toNat)
    (hm : s.mem = .ofObjects (Symbols.at base).rodata) : (Symbols.at base).Ready s where
  loaded o ho := by
    have hb := (s.reg sp).isLt
    rw [hm]
    refine Memory.holds_ofObjects (rodata_disjoint (by omega)) (fun o ho => ?_) ho
    have := rodata_region (by omega) o ho
    omega
  free o ho := by
    have hb := (s.reg sp).isLt
    have := rodata_region (by omega) o ho
    refine Memory.disjoint_region ?_ ?_
    all_goals
      rw [show (s.reg sp - 28).toNat = (s.reg sp).toNat - 28 by bv_omega]
      omega

-- The state in which the image has been loaded and every register but the stack pointer holds its number.
def loaded (base stack : Word) : State where
  regs r := if r = sp then stack else BitVec.ofNat 32 r
  pc     := 0
  mem    := .ofObjects (Symbols.at base).rodata

theorem ready_loaded {stack : Word} (h : base.toNat + 0x48600 + 28 ≤ stack.toNat) :
    (Symbols.at base).Ready (loaded base stack) :=
  ready_at (by simpa [loaded, reg] using h) rfl

end InstReplace
