import Ysyx.CMinirv.Theorems.Bounds
import Ysyx.CMinirv.Theorems.Decode

-- Which instruction words `inst_cycle` executes, halts on and reports.

open Rv32 BitVec

namespace CMinirv

variable {s s' : State (Memory 32)} {rom : Memory 32} {w : Word} {e : Stop}

-- The tests of the switch that lead to an instruction of the subset.
def InSubset (w : Word) : Prop :=
  (opcode w = 0x33 ∧ funct3 w = 0 ∧ funct7 w = 0) ∨ (opcode w = 0x13 ∧ funct3 w = 0) ∨ opcode w = 0x37 ∨
  (opcode w = 0x67 ∧ funct3 w = 0) ∨ (opcode w = 0x03 ∧ (funct3 w = 2 ∨ funct3 w = 4)) ∨
  (opcode w = 0x23 ∧ (funct3 w = 2 ∨ funct3 w = 0))

theorem exists_fields (w : Word) :
    ∃ (f7 : BitVec 7) (r2 r1 : BitVec 5) (f3 : BitVec 3) (r : BitVec 5) (op : BitVec 7),
    w = f7 ++ r2 ++ r1 ++ f3 ++ r ++ op := by
  refine ⟨w.extractLsb' 25 7, w.extractLsb' 20 5, w.extractLsb' 15 5, w.extractLsb' 12 3, w.extractLsb' 7 5,
    w.extractLsb' 0 7, BitVec.eq_of_toNat_eq ?_⟩
  have := w.isLt
  simp only [toNat_append_add, extractLsb'_toNat, Nat.shiftRight_eq_div_pow]
  omega

theorem setWidth_eq_iff {n : Nat} {x y : BitVec n} (h : n ≤ 32) : x.setWidth 32 = y.setWidth 32 ↔ x = y := by
  refine ⟨fun he => BitVec.eq_of_toNat_eq ?_, congrArg _⟩
  have hp : 2 ^ n ≤ 2 ^ 32 := Nat.pow_le_pow_right (by decide) h
  have := congrArg BitVec.toNat he
  rwa [toNat_setWidth, toNat_setWidth, Nat.mod_eq_of_lt (Nat.lt_of_lt_of_le x.isLt hp),
    Nat.mod_eq_of_lt (Nat.lt_of_lt_of_le y.isLt hp)] at this

theorem extract_high {x : BitVec 7} {y : BitVec 5} : (x ++ y).extractLsb' 5 7 = x := by
  refine eq_of_getLsbD_eq fun i hi => ?_
  rw [getLsbD_extractLsb', getLsbD_append]
  simp [hi, -getLsbD_eq_getElem]

theorem extract_low {x : BitVec 7} {y : BitVec 5} : (x ++ y).extractLsb' 0 5 = y := by
  refine eq_of_getLsbD_eq fun i hi => ?_
  rw [getLsbD_extractLsb', getLsbD_append]
  simp [hi, -getLsbD_eq_getElem]

section Fields

variable {f7 : BitVec 7} {r2 r1 r : BitVec 5} {f3 : BitVec 3} {op : BitVec 7}

theorem opcode_eq (c : BitVec 7) (h : opcode (f7 ++ r2 ++ r1 ++ f3 ++ r ++ op) = c.setWidth 32) : op = c := by
  rwa [opcode_append, setWidth_eq_iff (by decide)] at h

theorem funct3_eq (c : BitVec 3) (h : funct3 (f7 ++ r2 ++ r1 ++ f3 ++ r ++ op) = c.setWidth 32) : f3 = c := by
  rwa [funct3_append, setWidth_eq_iff (by decide)] at h

theorem funct7_eq (c : BitVec 7) (h : funct7 (f7 ++ r2 ++ r1 ++ f3 ++ r ++ op) = c.setWidth 32) : f7 = c := by
  rwa [funct7_append, setWidth_eq_iff (by decide)] at h

end Fields

-- The words that pass the tests are the encodings of the eight instructions.
theorem inSubset_iff : InSubset w ↔ ∃ i : Instr, w = i.encode := by
  constructor
  case mp =>
    have ⟨f7, r2, r1, f3, r, op, he⟩ := exists_fields w
    obtain rfl := he
    rintro (⟨ho, h3, h7⟩ | ⟨ho, h3⟩ | ho | ⟨ho, h3⟩ | ⟨ho, h3 | h3⟩ | ⟨ho, h3 | h3⟩)
    case inl => exact ⟨.add r.toFin r1.toFin r2.toFin, by rw [opcode_eq 0x33 ho, funct3_eq 0 h3, funct7_eq 0 h7]; rfl⟩
    case inr.inl => exact ⟨.addi r.toFin r1.toFin (f7 ++ r2), by rw [opcode_eq 0x13 ho, funct3_eq 0 h3]; rfl⟩
    case inr.inr.inl => exact ⟨.lui r.toFin (f7 ++ r2 ++ r1 ++ f3), by rw [opcode_eq 0x37 ho]; rfl⟩
    case inr.inr.inr.inl =>
      exact ⟨.jalr r.toFin r1.toFin (f7 ++ r2), by rw [opcode_eq 0x67 ho, funct3_eq 0 h3]; rfl⟩
    case inr.inr.inr.inr.inl.inl =>
      exact ⟨.lw r.toFin (f7 ++ r2) r1.toFin, by rw [opcode_eq 0x03 ho, funct3_eq 2 h3]; rfl⟩
    case inr.inr.inr.inr.inl.inr =>
      exact ⟨.lbu r.toFin (f7 ++ r2) r1.toFin, by rw [opcode_eq 0x03 ho, funct3_eq 4 h3]; rfl⟩
    case inr.inr.inr.inr.inr.inl =>
      refine ⟨.sw r2.toFin (f7 ++ r) r1.toFin, ?_⟩
      rw [opcode_eq 0x23 ho, funct3_eq 2 h3, Instr.encode, extract_high, extract_low]
      rfl
    case inr.inr.inr.inr.inr.inr =>
      refine ⟨.sb r2.toFin (f7 ++ r) r1.toFin, ?_⟩
      rw [opcode_eq 0x23 ho, funct3_eq 0 h3, Instr.encode, extract_high, extract_low]
      rfl
  case mpr =>
    rintro ⟨i, rfl⟩
    cases i
    case add => exact .inl ⟨opcode_append .., funct3_append .., funct7_append ..⟩
    case addi => exact .inr <| .inl ⟨opcode_append .., funct3_append ..⟩
    case lui => exact .inr <| .inr <| .inl <| opcode_append ..
    case jalr => exact .inr <| .inr <| .inr <| .inl ⟨opcode_append .., funct3_append ..⟩
    case lw => exact .inr <| .inr <| .inr <| .inr <| .inl ⟨opcode_append .., .inl <| funct3_append ..⟩
    case lbu => exact .inr <| .inr <| .inr <| .inr <| .inl ⟨opcode_append .., .inr <| funct3_append ..⟩
    case sw => exact .inr <| .inr <| .inr <| .inr <| .inr ⟨opcode_append .., .inl <| funct3_append ..⟩
    case sb => exact .inr <| .inr <| .inr <| .inr <| .inr ⟨opcode_append .., .inr <| funct3_append ..⟩

-- The opcodes that the switch has a case for.
def opcodes : List Word :=
  [0x33, 0x13, 0x37, 0x67, 0x03, 0x23, 0x73]

theorem InSubset.opcode (h : InSubset w) : opcode w ∈ opcodes := by
  obtain ⟨h, _⟩ | ⟨h, _⟩ | h | ⟨h, _⟩ | ⟨h, _⟩ | ⟨h, _⟩ := h
  all_goals simp [opcodes, h]

def ecallInst : Word := 0x00000073

-- How `execute` ends for each kind of word.
theorem execute_inSubset (h : InSubset w) (ha : ∀ acc ∈ access w s, acc.Inside memSize) :
    ∃ s', execute bus w s = .ok s' := by
  cases hw : access w s
  case some acc => exact ⟨_, (execute_access hw).trans <| acc.perform_of_inside (ha acc hw)⟩
  case none =>
    obtain ⟨ho, h3, h7⟩ | ⟨ho, h3⟩ | ho | ⟨ho, h3⟩ | ⟨ho, h3 | h3⟩ | ⟨ho, h3 | h3⟩ := h
    case inl => exact ⟨_, by simp only [execute, ho, h3, h7]; rfl⟩
    case inr.inl => exact ⟨_, by simp only [execute, ho, h3]; rfl⟩
    case inr.inr.inl => exact ⟨_, by simp only [execute, ho]; rfl⟩
    case inr.inr.inr.inl => exact ⟨_, by simp only [execute, ho, h3]; rfl⟩
    all_goals simp [access, ho, h3] at hw

theorem execute_inSubset_error (h : InSubset w) (he : execute bus w s = .error e) : ∃ a n, e = .outOfMemory a n := by
  by_cases ha : ∀ acc ∈ access w s, acc.Inside memSize
  case pos =>
    have ⟨_, hs⟩ := execute_inSubset h ha
    cases hs.symm.trans he
  case neg =>
    simp only [not_forall] at ha
    have ⟨acc, hm, hi⟩ := ha
    cases (execute_access hm).symm.trans he |>.symm.trans <| acc.perform_of_not_inside hi
    exact ⟨_, _, rfl⟩

theorem bus_ebreak {m : Memory 32} {a : Word} :
    bus.ebreak m a = .error (if a = 0 then .hitGoodTrap else .hitBadTrap) := by
  simp only [bus, arrayBus]
  split <;> rfl

theorem execute_ebreakInst :
    execute bus ebreakInst s = .error (if s.reg 10 = 0 then .hitGoodTrap else .hitBadTrap) := by
  have h : execute bus ebreakInst s = do return { s with memory := ← bus.ebreak s.memory (s.reg 10) } := rfl
  rw [h, bus_ebreak]
  rfl

theorem execute_ecallInst : execute bus ecallInst s = .error .ecall := rfl

theorem execute_of_notMem (h : opcode w ∉ opcodes) :
    execute bus w s = .error (.unknownInstruction (opcode w) (s.pc - 4)) := by
  unfold execute
  split
  case h_8 => rfl
  all_goals
    rename_i ho
    exact absurd (by simp [opcodes, ho]) h

-- Only the outermost switch reports an instruction.
theorem execute_unknownInstruction {op pc : Word} (h : execute bus w s = .error (.unknownInstruction op pc)) :
    opcode w ∉ opcodes := by
  intro ho
  cases ha : access w s
  case some acc =>
    rw [execute_access ha] at h
    by_cases hi : acc.Inside memSize
    case pos => simp [acc.perform_of_inside hi] at h
    case neg => simp [acc.perform_of_not_inside hi] at h
  case none =>
    simp only [opcodes, List.mem_cons, List.not_mem_nil, or_false] at ho
    unfold execute at h
    obtain ho | ho | ho | ho | ho | ho | ho := ho
    case inr.inr.inr.inr.inr.inr =>
      simp [ho, bus_ebreak, Functor.map, Except.map] at h
      grind
    all_goals
      simp [ho] at h
      try grind [access]

section

variable (rom : Memory 32) (s : State (Memory 32))

-- Whether the instruction word at the program counter is one of the eight instructions of the subset.
def Encoded : Prop :=
  ∃ i : Instr, rom.load32 s.pc = i.encode

def Halting : Prop :=
  rom.load32 s.pc = ebreakInst ∨ rom.load32 s.pc = ecallInst

-- `inst_cycle` executes the instructions of the subset, as long as their accesses are defined, halts on the
-- two instructions that end the program and reports all other words.
structure Exact : Prop where
  completes : (∀ acc ∈ s.dataAccess rom, acc.Inside memSize) →
    ((∃ s', instCycle bus rom s = .ok s') ↔ Encoded rom s)
  halts     : (∃ e ∈ [Stop.hitGoodTrap, .hitBadTrap, .ecall], instCycle bus rom s = .error e) ↔ Halting rom s
  reports   : instCycle bus rom s = .error (.unknownInstruction (opcode (rom.load32 s.pc)) s.pc) ↔
    ¬Encoded rom s ∧ ¬Halting rom s

end

section

variable (h : s.pc.toNat + 4 ≤ memSize)

include h

theorem instCycle_eq_execute : instCycle bus rom s = execute bus (rom.load32 s.pc) s.advance := by
  rw [instCycle, fetch, if_pos h]
  rfl

theorem reports_iff : instCycle bus rom s = .error (.unknownInstruction (opcode (rom.load32 s.pc)) s.pc) ↔
    opcode (rom.load32 s.pc) ∉ opcodes := by
  rw [instCycle_eq_execute h]
  refine ⟨execute_unknownInstruction, fun ho => ?_⟩
  rw [execute_of_notMem ho]
  simp [State.advance, State.setReg]

theorem exact_of_encoded (he : Encoded rom s) : Exact rom s := by
  have hs := inSubset_iff.mpr he
  have hc : instCycle bus rom s = _ := instCycle_eq_execute h
  have hh : ¬Halting rom s := by
    rintro (hw | hw)
    all_goals exact absurd hs (by rw [hw, InSubset]; decide)
  exact {
    completes := fun ha => iff_of_true (hc ▸ execute_inSubset hs ha) he
    halts     := iff_of_false (fun ⟨e, hm, hr⟩ => by
      obtain ⟨_, _, rfl⟩ := execute_inSubset_error hs (hc ▸ hr)
      simp at hm) hh
    reports   := iff_of_false ((reports_iff h).not.mpr (not_not.mpr hs.opcode)) fun hn => hn.left he
  }

theorem exact_of_halting (hh : Halting rom s) : Exact rom s := by
  have hn : ¬Encoded rom s := by
    rw [Encoded, ← inSubset_iff]
    obtain hw | hw := hh
    all_goals rw [hw, InSubset]; decide
  have ⟨e, hm, he⟩ : ∃ e ∈ [Stop.hitGoodTrap, .hitBadTrap, .ecall], instCycle bus rom s = .error e := by
    rw [instCycle_eq_execute h]
    obtain hw | hw := hh
    case inl => exact ⟨_, by split <;> simp, hw ▸ execute_ebreakInst⟩
    case inr => exact ⟨_, by simp, hw ▸ execute_ecallInst⟩
  exact {
    completes := fun _ => iff_of_false (by simp [he]) hn
    halts     := iff_of_true ⟨e, hm, he⟩ hh
    reports   := iff_of_false (fun hu => by cases he.symm.trans hu; simp at hm) fun hn => hn.right hh
  }

theorem exact_of_notMem (ho : opcode (rom.load32 s.pc) ∉ opcodes) : Exact rom s := by
  have hu := (reports_iff h).mpr ho
  have hn : ¬Encoded rom s := fun he => ho (inSubset_iff.mpr he).opcode
  have hh : ¬Halting rom s := by
    rintro (hw | hw)
    all_goals exact ho (by rw [hw]; decide)
  exact {
    completes := fun _ => iff_of_false (by simp [hu]) hn
    halts     := iff_of_false (by simp [hu]) hh
    reports   := iff_of_true hu ⟨hn, hh⟩
  }

end

-- The words that `inst_cycle` treats as it should: those of the subset, the two that halt, and those that the
-- outermost switch rejects. Other words are skipped in silence or halt.
theorem exact_iff (h : s.pc.toNat + 4 ≤ memSize) :
    Exact rom s ↔ Encoded rom s ∨ Halting rom s ∨ opcode (rom.load32 s.pc) ∉ opcodes := by
  constructor
  case mp =>
    intro he
    rw [← reports_iff h, he.reports]
    tauto
  case mpr =>
    rintro (he | hh | ho)
    case inl => exact exact_of_encoded h he
    case inr.inl => exact exact_of_halting h hh
    case inr.inr => exact exact_of_notMem h ho

-- `sub ra, ra, sp`
def subRom : Memory 32 :=
  fun a => [0xb3, 0x80, 0x20, 0x40].getD a.toNat 0

theorem exact_iff_subRom : Exact subRom ⟨fun _ => 0, 0, subRom⟩ ↔
    Encoded subRom ⟨fun _ => 0, 0, subRom⟩ ∨ Halting subRom ⟨fun _ => 0, 0, subRom⟩ ∨
      opcode (subRom.load32 0) ∉ opcodes :=
  exact_iff (by decide)

theorem not_exact : ¬∀ (rom : Memory 32) (s : State (Memory 32)), s.pc.toNat + 4 ≤ memSize → Exact rom s := by
  intro h
  have he := h subRom ⟨fun _ => 0, 0, subRom⟩ (by decide)
  have hw : subRom.load32 0 = 0x402080b3 := by decide
  have hn : ¬Encoded subRom ⟨fun _ => 0, 0, subRom⟩ := by
    rw [Encoded, ← inSubset_iff, hw, InSubset]
    decide
  have hh : ¬Halting subRom ⟨fun _ => 0, 0, subRom⟩ := by
    rw [Halting, hw]
    decide
  exact absurd (he.reports.mpr ⟨hn, hh⟩) nofun

end CMinirv
