import Ysyx.CMinirv.Main
import Ysyx.Rv32.Encode

-- Which elements of its arrays C_minirv accesses.

open Rv32

namespace CMinirv

section

variable {M : Type} {bus : Bus M} {inst d : Word} {s s' : State M} {acc : Access}

theorem and_not_one_even (a : Word) : (a &&& ~~~1).toNat % 2 = 0 := by
  have h : (a &&& ~~~1).getLsbD 0 = false := by simp
  rw [BitVec.getLsbD, Nat.testBit_zero, decide_eq_false_iff_not] at h
  exact Nat.mod_two_ne_one.mp h

theorem Access.perform_pc (h : acc.perform bus d s = .ok s') : s'.pc = s.pc := by
  cases acc
  all_goals
    have ⟨_, _, hs⟩ := bind_eq_ok_iff.mp h
    cases hs
    rfl

theorem Internal.pc {r : Except Stop (State M)} (hi : Internal bus s r) (h : r = .ok s') :
    s'.pc = s.pc ∨ s'.pc.toNat % 2 = 0 := by
  cases hi
  case register => cases h; exact .inl rfl
  case jump => cases h; exact .inr <| and_not_one_even _
  case skip => cases h; exact .inl rfl
  case ebreak =>
    have ⟨_, _, hs⟩ := bind_eq_ok_iff.mp h
    cases hs
    exact .inl rfl
  case ecall => contradiction
  case unknownInstruction => contradiction

theorem execute_pc (h : execute bus inst s = .ok s') : s'.pc = s.pc ∨ s'.pc.toNat % 2 = 0 := by
  cases ha : access inst s
  case none => exact (execute_internal ha).pc h
  case some => exact .inl (Access.perform_pc (execute_access ha ▸ h))

end

variable {inst d a : Word} {acc : Access} {s s' : State (Memory 32)} {rom m : Memory 32} {n : Nat}

namespace Access

-- The effect of an access inside of the array.
def apply (d : Word) (s : State (Memory 32)) : Access → State (Memory 32)
  | lw a    => s.setReg d (s.memory.load32 a)
  | lbu a   => s.setReg d ((s.memory a).setWidth 32)
  | sw a v  => { s with memory := s.memory.store a 4 v }
  | sb a b  => { s with memory := s.memory.store a 1 b }

theorem perform_of_inside (h : acc.Inside memSize) : acc.perform bus d s = .ok (acc.apply d s) := by
  cases acc
  all_goals exact bind_eq_ok_iff.mpr ⟨_, element_eq_ok_iff.mpr ⟨h, rfl⟩, rfl⟩

theorem perform_of_not_inside (h : ¬acc.Inside memSize) :
    acc.perform bus d s = .error (.outOfMemory acc.addr acc.len) := by
  cases acc
  all_goals exact bind_eq_error_iff.mpr <| .inl <| element_eq_error_iff.mpr ⟨h, rfl⟩

theorem perform_eq_ok_iff : acc.perform bus d s = .ok s' ↔ acc.Inside memSize ∧ acc.apply d s = s' := by
  by_cases h : acc.Inside memSize
  case pos => simp [perform_of_inside h, h]
  case neg => simp [perform_of_not_inside h, h]

theorem perform_outOfMemory_iff :
    acc.perform bus d s = .error (.outOfMemory a n) ↔ ¬acc.Inside memSize ∧ acc.addr = a ∧ acc.len = n := by
  by_cases h : acc.Inside memSize
  case pos => simp [perform_of_inside h, h]
  case neg => simp [perform_of_not_inside h, h]

end Access

-- An instruction without a data access does not stop at one.
theorem Internal.error {r : Except Stop (State (Memory 32))} {e : Stop} (hi : Internal bus s r) (h : r = .error e) :
    e ≠ .pcOutOfBounds ∧ ∀ a n, e ≠ .outOfMemory a n := by
  cases hi
  case ebreak =>
    simp only [bus, arrayBus, bind_eq_error_iff] at h
    split at h
    all_goals
      simp only [Except.error.injEq, reduceCtorEq, false_and, exists_false, or_false] at h
      exact h ▸ ⟨nofun, nofun⟩
  all_goals
    cases h
    try exact ⟨nofun, nofun⟩

theorem Internal.memory {r : Except Stop (State (Memory 32))} (hi : Internal bus s r) (h : r = .ok s') :
    s'.memory = s.memory := by
  cases hi
  case ebreak =>
    simp only [bus, arrayBus, bind_eq_ok_iff] at h
    split at h <;> simp at h
  all_goals
    cases h
    try rfl

theorem instCycle_outOfMemory_iff : instCycle bus rom s = .error (.outOfMemory a n) ↔
    s.pc.toNat + 4 ≤ memSize ∧ ∃ acc ∈ s.dataAccess rom, ¬acc.Inside memSize ∧ acc.addr = a ∧ acc.len = n := by
  by_cases h : s.pc.toNat + 4 ≤ memSize
  case neg => simp [instCycle, fetch, h, bind, Except.bind]
  case pos =>
    have hc : instCycle bus rom s = execute bus (rom.load32 s.pc) s.advance := by
      simp [instCycle, fetch, h, bind, Except.bind]
    rw [hc]
    cases ha : s.dataAccess rom
    case none =>
      have hn : execute bus (rom.load32 s.pc) s.advance ≠ .error (.outOfMemory a n) := fun h =>
        ((execute_internal ha).error h).right a n rfl
      simp [hn]
    case some acc => simp [execute_access ha, Access.perform_outOfMemory_iff, h]

theorem iteration_eq_ok_iff : iteration rom s = .ok s' ↔
    instCycle bus rom s = .ok s' ∧ s'.pc.toNat ≤ memSize := by
  cases h : instCycle bus rom s
  case error => simp [iteration, h, bind, Except.bind]
  case ok s₁ =>
    simp only [iteration, h, bind, Except.bind, Except.ok.injEq]
    split
    case isTrue hp => exact iff_of_false nofun fun ⟨he, hs⟩ => by simp [he] at hp; omega
    case isFalse hp => simp; grind

theorem Reachable.pc (h : Reachable img c s) : s.pc.toNat % 2 = 0 ∧ s.pc.toNat ≤ memSize := by
  induction h
  case boot => simp [Image.boot]
  case step s s' _ hs ih =>
    have ⟨hc, hp⟩ := iteration_eq_ok_iff.mp hs
    refine ⟨?_, hp⟩
    cases execute_pc (instCycle_eq_ok_iff.mp hc).right
    case inl h =>
      have : s'.pc.toNat = (s.pc.toNat + 4) % 2 ^ 32 := by simp [h, State.advance, State.setReg]
      omega
    case inr h => exact h

-- The instruction with a data access is executed if and only if the access is inside of the array.
theorem instCycle_access_iff (ha : s.dataAccess rom = some acc) : instCycle bus rom s = .ok s' ↔
    s.pc.toNat + 3 < memSize ∧ acc.Inside memSize ∧ s' = acc.apply (rd (rom.load32 s.pc)) s.advance := by
  rw [instCycle_eq_ok_iff, execute_access ha, Access.perform_eq_ok_iff, eq_comm (a := s')]
  rfl

theorem instCycle_memory (h : instCycle bus rom s = .ok s') (ha : s.dataAccess rom = none) :
    s'.memory = s.memory :=
  (execute_internal ha).memory (instCycle_eq_ok_iff.mp h).right

-- Only the loop looks at the program counter.
theorem instCycle_not_pcOutOfBounds : instCycle bus rom s ≠ .error .pcOutOfBounds := by
  intro h
  obtain h | ⟨inst, hf, h⟩ := bind_eq_error_iff.mp h
  case inl =>
    rw [fetch] at h
    split at h
    all_goals cases h
  case inr =>
    cases ha : access inst s.advance
    case none => exact ((execute_internal ha).error h).left rfl
    case some acc =>
      rw [execute_access ha] at h
      by_cases hi : acc.Inside memSize
      case pos => rw [Access.perform_of_inside hi] at h; cases h
      case neg => rw [Access.perform_of_not_inside hi] at h; cases h

theorem iteration_pcOutOfBounds_iff : iteration rom s = .error .pcOutOfBounds ↔
    ∃ s', instCycle bus rom s = .ok s' ∧ memSize < s'.pc.toNat := by
  cases h : instCycle bus rom s
  case error e =>
    have hn : e ≠ .pcOutOfBounds := fun he => instCycle_not_pcOutOfBounds (he ▸ h)
    simp [iteration, h, bind, Except.bind, hn]
  case ok s₁ => simp [iteration, h, bind, Except.bind]

-- The range check of the loop bounds the program counter, so that only the two boundary values let a
-- fetch leave ROM. Data accesses are not checked: they take place if all their bytes are in Memory, and leave
-- Memory otherwise.
theorem main_loop_accesses (h : Reachable img c s) :
    s.pc.toNat % 2 = 0 ∧ s.pc.toNat ≤ memSize ∧
    (s.pc.toNat ≠ memSize - 2 → s.pc.toNat ≠ memSize → s.pc.toNat + 3 < memSize) ∧
    (iteration (img.rom c) s = .error .pcOutOfBounds ↔
      ∃ s', instCycle bus (img.rom c) s = .ok s' ∧ memSize < s'.pc.toNat) ∧
    (∀ acc ∈ s.dataAccess (img.rom c), ∀ s', instCycle bus (img.rom c) s = .ok s' ↔ s.pc.toNat + 3 < memSize ∧
      acc.Inside memSize ∧ s' = acc.apply (rd ((img.rom c).load32 s.pc)) s.advance) ∧
    (∀ a n, instCycle bus (img.rom c) s = .error (.outOfMemory a n) ↔ s.pc.toNat + 3 < memSize ∧
      ∃ acc ∈ s.dataAccess (img.rom c), ¬acc.Inside memSize ∧ acc.addr = a ∧ acc.len = n) ∧
    (s.dataAccess (img.rom c) = none → ∀ s', instCycle bus (img.rom c) s = .ok s' → s'.memory = s.memory) := by
  have ⟨he, hl⟩ := h.pc
  refine ⟨he, hl, ?fetch, iteration_pcOutOfBounds_iff, fun acc ha s' => instCycle_access_iff ha,
    fun _ _ => instCycle_outOfMemory_iff, fun ha s' hc => instCycle_memory hc ha⟩
  case fetch =>
    intro h₁ h₂
    simp only [memSize] at *
    omega

-- addi x1, x0, 5; sw x1, 64(x0); lw x2, 64(x0)
def storeLoad : Image where
  bytes    := [0x93, 0x00, 0x50, 0x00, 0x23, 0x20, 0x10, 0x04, 0x03, 0x21, 0x00, 0x04]
  bytes_le := by decide

-- The word that has been stored is loaded.
theorem main_loop_accesses_load : ∃ s s', Reachable storeLoad 'm' s ∧
    s.dataAccess (storeLoad.rom 'm') = some (.lw 64) ∧ instCycle bus (storeLoad.rom 'm') s = .ok s' ∧ s'.reg 2 = 5 := by
  have h : Reachable storeLoad 'm' _ := .step (.step .boot rfl) rfl
  have hi := (main_loop_accesses h).right.right.right.right.left (.lw 64) rfl
  exact ⟨_, _, h, rfl, (hi _).mpr ⟨by decide, by decide, rfl⟩, rfl⟩

-- lui x1, 0x100; lw x2, 0(x1)
def loadBeyond : Image where
  bytes    := [0xb7, 0x00, 0x10, 0x00, 0x03, 0xa1, 0x00, 0x00]
  bytes_le := by decide

-- lui x1, 0x100; jalr x0, 0(x1)
def jumpBeyond : Image where
  bytes    := [0xb7, 0x00, 0x10, 0x00, 0x67, 0x80, 0x00, 0x00]
  bytes_le := by decide

def Stop.LeavesArrays : Stop → Prop
  | .outOfRom _ | .outOfMemory _ _ => True
  | _ => False

theorem main_loop_leaves_arrays : ¬∀ (img : Image) (c : Char) (s : State (Memory 32)) (e : Stop),
    Reachable img c s → iteration (img.rom c) s = .error e → ¬e.LeavesArrays :=
  fun h => h loadBeyond 'm' _ (.outOfMemory 0x100000 4) (.step .boot rfl) rfl trivial

-- At a boundary value the fetch leaves ROM.
example : ∃ s, Reachable jumpBeyond 'm' s ∧ iteration (jumpBeyond.rom 'm') s = .error (.outOfRom 0x100000) :=
  ⟨_, .step (.step .boot rfl) rfl, rfl⟩

end CMinirv
