import Ysyx.Nemu.X86.Reg

-- The names of the x86 registers do not share their storage.

namespace Nemu.X86

-- The ways in which a register is changed. `assign` stands for the fields `eax` to `edi`.
inductive Change
  | write (idx : Fin 8) (width : Nat) (valid : width = 1 ∨ width = 2 ∨ width = 4) (data : Word)
  | assign (i : Fin 8) (data : Word)

namespace CPU_state

def named (cpu : CPU_state) : Fin 8 → Word
  | 0 => cpu.eax
  | 1 => cpu.ecx
  | 2 => cpu.edx
  | 3 => cpu.ebx
  | 4 => cpu.esp
  | 5 => cpu.ebp
  | 6 => cpu.esi
  | 7 => cpu.edi

def assign (cpu : CPU_state) (data : Word) : Fin 8 → CPU_state
  | 0 => { cpu with eax := data }
  | 1 => { cpu with ecx := data }
  | 2 => { cpu with edx := data }
  | 3 => { cpu with ebx := data }
  | 4 => { cpu with esp := data }
  | 5 => { cpu with ebp := data }
  | 6 => { cpu with esi := data }
  | 7 => { cpu with edi := data }

def change (cfg : Config) (cpu : CPU_state) : Change → Option CPU_state
  | .write idx width _ data => cpu.reg_write cfg idx width data
  | .assign i data          => some (cpu.assign data i)

end CPU_state

section Aliasing

variable (cfg : Config) (cpu : CPU_state)

-- All names of a register show the same contents.
structure Aliased : Prop where
  half  : ∀ i : Fin 8, cpu.reg_read cfg i 2 = (cpu.reg_read cfg i 4).map fun v => (v.extractLsb' 0 16).setWidth 32
  low   : ∀ i : Fin 8, i < 4 → cpu.reg_read cfg i 1 = (cpu.reg_read cfg i 4).map fun v => (v.byte 0).setWidth 32
  high  : ∀ i : Fin 8, 4 ≤ i →
    cpu.reg_read cfg i 1 = (cpu.reg_read cfg (i - 4 : Fin 8) 4).map fun v => (v.byte 1).setWidth 32
  named : ∀ i : Fin 8, cpu.reg_read cfg i 4 = some (cpu.named i)

end Aliasing

namespace Change

-- The bytes that are named: so many from some byte of a register on.
structure Target where
  reg    : Fin 8
  offset : Nat
  width  : Nat

def target : Change → Target
  | write idx width _ _ => if width = 1 then ⟨Fin.ofNat 8 (idx &&& 3), idx / 4, 1⟩ else ⟨idx, 0, width⟩
  | assign i _          => ⟨i, 0, 4⟩

def data : Change → Word
  | write _ _ _ data | assign _ data => data

-- Only the named bytes change.
def Exact (cfg : Config) (c : Change) (cpu cpu' : CPU_state) : Prop :=
  ∀ j : Fin 8, ∃ v v' : Word, cpu.reg_read cfg j 4 = some v ∧ cpu'.reg_read cfg j 4 = some v' ∧
    ∀ k < 4, v'.byte k =
      if j = c.target.reg ∧ c.target.offset ≤ k ∧ k < c.target.offset + c.target.width
      then c.data.byte (k - c.target.offset)
      else v.byte k

-- What is stored is 0.
def Zero (c : Change) : Prop :=
  c.data.setWidth (8 * c.target.width) = 0

end Change

-- The registers behave as overlapping ones as long as the changes are made.
def Overlapping (cfg : Config) (cpu : CPU_state) : List Change → Prop
  | []      => Aliased cfg cpu
  | c :: cs => Aliased cfg cpu ∧ ∃ cpu', cpu.change cfg c = some cpu' ∧ c.Exact cfg cpu cpu' ∧ Overlapping cfg cpu' cs

variable {cfg : Config} {cpu cpu' : CPU_state} {c : Change} {cs : List Change} {i idx : Fin 8}

theorem Overlapping.aliased (h : Overlapping cfg cpu cs) : Aliased cfg cpu := by
  cases cs
  case nil => exact h
  case cons => exact h.left

section Reads

@[simp] theorem check_reg_index_val : check_reg_index cfg i = some i := by
  rw [check_reg_index, if_neg (by omega)]
  exact congrArg some <| Fin.ext <| Nat.mod_eq_of_lt i.isLt

theorem reg_read_four : cpu.reg_read cfg i 4 = some (cpu.gpr i)._32 := by
  simp [CPU_state.reg_read, CPU_state.reg_l]

theorem reg_read_two : cpu.reg_read cfg i 2 = some ((cpu.gpr i)._16.setWidth 32) := by
  simp [CPU_state.reg_read, CPU_state.reg_w]

theorem reg_read_one : cpu.reg_read cfg i 1 =
    some (((cpu.gpr (Fin.ofNat 8 (i &&& 3)))._8 (Fin.ofNat 2 (i >>> 2))).setWidth 32) := by
  simp [CPU_state.reg_read, CPU_state.reg_b]

end Reads

section Zero

theorem byte_eq_zero {d : Word} {n k : Nat} (h : d.setWidth (8 * n) = 0) (hk : k < n) : d.byte k = 0 := by
  have hd : d.byte k = (d.setWidth (8 * n)).extractLsb' (8 * k) 8 := by
    ext l hl
    simp [BitVec.byte]
    omega
  rw [hd, h]
  exact BitVec.extractLsb'_zero

theorem eq_zero_of_setWidth {w : Nat} {b : BitVec w} (hw : w ≤ 32) (h : b.setWidth 32 = 0) : b = 0 := by
  have hb : (b.setWidth 32).setWidth w = (0 : Word).setWidth w := congrArg _ h
  simpa [BitVec.setWidth_setWidth_of_le b hw] using hb

theorem aliased_zero : Aliased cfg .zero where
  half i    := by rw [reg_read_two, reg_read_four]; rfl
  low i _   := by rw [reg_read_one, reg_read_four]; rfl
  high i _  := by rw [reg_read_one, reg_read_four, Option.map_some, CPU_state.zero, BitVec.byte_zero]
  named i   := by rw [reg_read_four]; revert i; decide

theorem setGpr_zero {g : Gpr} (h : g = ⟨0, 0, fun _ => 0⟩) : CPU_state.zero.setGpr i g = .zero := by
  rw [h, CPU_state.setGpr]
  congr 1
  exact Function.update_eq_self i CPU_state.zero.gpr

theorem change_zero (h : c.Zero) : CPU_state.zero.change cfg c = some .zero := by
  cases c
  case write idx width valid data =>
    obtain rfl | rfl | rfl := valid
    case inl =>
      have hd : data.setWidth 8 = 0 := h
      simp only [CPU_state.change, CPU_state.reg_write, CPU_state.assign_b, check_reg_index_val, hd]
      refine congrArg some <| setGpr_zero ?_
      exact congrArg (Gpr.mk 0 0) <| Function.update_eq_self _ fun _ => (0 : Byte)
    case inr.inl =>
      have hd : data.setWidth 16 = 0 := h
      simp only [CPU_state.change, CPU_state.reg_write, CPU_state.assign_w, check_reg_index_val, hd]
      exact congrArg some <| setGpr_zero rfl
    case inr.inr =>
      have hd : data = 0 := (BitVec.setWidth_eq data).symm.trans h
      simp only [CPU_state.change, CPU_state.reg_write, CPU_state.assign_l, check_reg_index_val, hd]
      exact congrArg some <| setGpr_zero rfl
  case assign i data =>
    have hd : data = 0 := (BitVec.setWidth_eq data).symm.trans h
    rw [hd, CPU_state.change]
    refine congrArg some ?_
    match i with
    | 0 | 1 | 2 | 3 | 4 | 5 | 6 | 7 => rfl

theorem exact_zero (h : c.Zero) : c.Exact cfg .zero .zero := by
  refine fun j => ⟨0, 0, reg_read_four, reg_read_four, fun k _ => ?_⟩
  split
  case isTrue ht => rw [byte_eq_zero h (by omega), BitVec.byte_zero]
  case isFalse => rfl

theorem named_setGpr {g : Gpr} : (CPU_state.zero.setGpr i g).named idx = 0 := by
  match idx with
  | 0 | 1 | 2 | 3 | 4 | 5 | 6 | 7 => rfl

theorem named_assign {data : Word} : (cpu.assign data i).named i = data := by
  match i with
  | 0 | 1 | 2 | 3 | 4 | 5 | 6 | 7 => rfl

theorem gpr_assign {data : Word} : (cpu.assign data i).gpr = cpu.gpr := by
  match i with
  | 0 | 1 | 2 | 3 | 4 | 5 | 6 | 7 => rfl

theorem gpr_setGpr {g : Gpr} : (cpu.setGpr i g).gpr i = g :=
  Function.update_self ..

-- The 32 bits of a register stay as they are if the other names are written.
theorem setGpr_32 {g : Gpr} (h : g._32 = (cpu.gpr i)._32) : ((cpu.setGpr i g).gpr idx)._32 = (cpu.gpr idx)._32 := by
  by_cases hi : idx = i
  case pos => rw [hi, gpr_setGpr, h]
  case neg => exact congrArg Gpr._32 <| Function.update_of_ne hi ..

-- A name that has been used shows the datum, and the others still show 0.

theorem zero_of_write_byte {data : Word} (hc : CPU_state.zero.reg_write cfg idx 1 data = some cpu')
    (h : Aliased cfg cpu') : data.setWidth 8 = 0 := by
  simp only [CPU_state.reg_write, CPU_state.assign_b, check_reg_index_val] at hc
  have h₁ : cpu'.reg_read cfg idx 1 = some ((data.setWidth 8).setWidth 32) := by
    cases hc
    rw [reg_read_one, gpr_setGpr]
    exact congrArg (fun b : Byte => some (b.setWidth 32)) <| Function.update_self ..
  have h₄ (j : Fin 8) : cpu'.reg_read cfg j 4 = some 0 := by
    cases hc
    exact reg_read_four.trans <| congrArg some <| setGpr_32 rfl
  refine eq_zero_of_setWidth (by decide) <| Option.some.inj <| h₁.symm.trans ?_
  by_cases hi : idx < 4
  case pos => rw [h.low idx hi, h₄, Option.map_some, BitVec.byte_zero]; rfl
  case neg => rw [h.high idx (not_lt.mp hi), h₄, Option.map_some, BitVec.byte_zero]; rfl

theorem zero_of_write_half {data : Word} (hc : CPU_state.zero.reg_write cfg idx 2 data = some cpu')
    (h : Aliased cfg cpu') : data.setWidth 16 = 0 := by
  simp only [CPU_state.reg_write, CPU_state.assign_w, check_reg_index_val] at hc
  cases hc
  have hh := h.half idx
  rw [reg_read_two, reg_read_four, gpr_setGpr] at hh
  exact eq_zero_of_setWidth (by decide) <| Option.some.inj hh

theorem zero_of_write_word {data : Word} (hc : CPU_state.zero.reg_write cfg idx 4 data = some cpu')
    (h : Aliased cfg cpu') : data = 0 := by
  simp only [CPU_state.reg_write, CPU_state.assign_l, check_reg_index_val] at hc
  cases hc
  have hh := h.named idx
  rw [reg_read_four, gpr_setGpr, named_setGpr] at hh
  exact Option.some.inj hh

theorem zero_of_assign {data : Word} (h : Aliased cfg (CPU_state.zero.assign data i)) : data = 0 := by
  have hh := h.named i
  rw [reg_read_four, named_assign, gpr_assign] at hh
  exact (Option.some.inj hh).symm

theorem zero_of_aliased (hc : CPU_state.zero.change cfg c = some cpu') (h : Aliased cfg cpu') : c.Zero := by
  cases c
  case write idx width valid data =>
    obtain rfl | rfl | rfl := valid
    case inl => exact zero_of_write_byte hc h
    case inr.inl => exact zero_of_write_half hc h
    case inr.inr => exact (BitVec.setWidth_eq data).trans <| zero_of_write_word hc h
  case assign i data =>
    cases hc
    exact (BitVec.setWidth_eq data).trans <| zero_of_assign h

end Zero

-- The registers overlap throughout a run if and only if it stores nothing but zeros.
theorem overlapping_iff_zero (cfg : Config) (cs : List Change) : Overlapping cfg .zero cs ↔ ∀ c ∈ cs, c.Zero := by
  induction cs
  case nil => exact ⟨fun _ => nofun, fun _ => aliased_zero⟩
  case cons c cs hi =>
    rw [List.forall_mem_cons]
    constructor
    case mp =>
      intro ⟨_, cpu', hc, _, ho⟩
      have ha : Aliased cfg cpu' := ho.aliased
      have hz : c.Zero := zero_of_aliased hc ha
      cases hc.symm.trans (change_zero hz)
      exact ⟨hz, hi.mp ho⟩
    case mpr =>
      intro ⟨hz, hs⟩
      exact ⟨aliased_zero, .zero, change_zero hz, exact_zero hz, hi.mpr hs⟩

-- A byte is written and does not show in the register that it belongs to.
theorem not_overlapping : ¬∀ (cfg : Config) (cs : List Change), Overlapping cfg .zero cs := by
  intro h
  have ⟨_, cpu', hc, _, ho⟩ := h ⟨0, 0x8000000, by decide, by decide, true, false, true⟩ [.write 4 1 (.inl rfl) 1]
  cases hc
  exact absurd (ho.high 4 (by decide)) (by decide)

end Nemu.X86
