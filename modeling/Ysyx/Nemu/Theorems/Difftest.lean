import Ysyx.Monads.EState
import Ysyx.Nemu.Difftest

-- What differential testing leaves out: with clean instructions, nothing that was not asked for.

namespace Nemu

namespace Difftest

variable {C R : Type} {sim : Reference C R} {s s' s₁ s₂ s₃ : State C R} {i j : Inst C} {c : Call} {calls : List Call}
variable {cpu ref_r : C} {ref : R} {nemu_state : NEMUState} {pc npc : Word} {n : Int}

-- The requests.

-- What a list of requests does to everything but the reference.
structure Requested (calls : List Call) (s s' : State C R) : Prop where
  cpu              : s'.cpu = s.cpu
  nr_checks        : s'.nr_checks = s.nr_checks
  is_skip_ref      : s'.is_skip_ref = true ↔ s.is_skip_ref = true ∨ .skip_ref ∈ calls
  skip_dut_nr_inst : s'.skip_dut_nr_inst = calls.foldl Call.count s.skip_dut_nr_inst

theorem Requested.cons (h₁ : Requested [c] s s₁) (h₂ : Requested calls s₁ s₂) : Requested (c :: calls) s s₂ where
  cpu              := h₂.cpu.trans h₁.cpu
  nr_checks        := h₂.nr_checks.trans h₁.nr_checks
  is_skip_ref      := by
    rw [h₂.is_skip_ref, h₁.is_skip_ref, List.mem_singleton, List.mem_cons, or_assoc]
  skip_dut_nr_inst := by
    rw [h₂.skip_dut_nr_inst, h₁.skip_dut_nr_inst, List.foldl_cons, List.foldl_cons, List.foldl_nil]

theorem call_requested (h : sim.call s c = .ok s') : Requested [c] s s' := by
  cases c <;> simp only [Reference.call] at h
  case skip_ref =>
    cases h
    exact ⟨rfl, rfl, by simp [difftest_skip_ref], rfl⟩
  case skip_dut =>
    rw [Reference.difftest_skip_dut] at h
    split at h
    case isFalse => cases h
    case isTrue =>
      cases h
      exact ⟨rfl, rfl, by simp, rfl⟩

theorem calls_requested (h : calls.foldlM sim.call s = .ok s') : Requested calls s s' := by
  induction calls generalizing s
  case nil =>
    cases h
    exact ⟨rfl, rfl, by simp, rfl⟩
  case cons c calls hi =>
    rw [List.foldlM_cons] at h
    cases hc : sim.call s c <;> rw [hc] at h
    case error => cases h
    case ok s₁ => exact (call_requested hc).cons (hi h)

-- The last call of `difftest_skip_ref` ends the waiting that was asked for before.
theorem foldl_count_of_mem (h : .skip_ref ∈ calls) : calls.foldl Call.count n = calls.foldl Call.count 0 := by
  induction calls generalizing n
  case nil => cases h
  case cons c calls hi =>
    cases c <;> simp only [List.foldl_cons, Call.count]
    case skip_dut =>
      have hm : Call.skip_ref ∈ calls := by simpa using h
      rw [hi hm, hi hm (n := 0 + _)]

-- The steps.

inductive Outcome (sim : Reference C R) (pc npc : Word) (s : State C R) : State C R → Prop
  | caughtUp : 0 < s.skip_dut_nr_inst →
    Outcome sim pc npc s (sim.checkregs (sim.ref_difftest_regcpy_dut s.ref) npc { s with skip_dut_nr_inst := 0 })
  | waits : 1 < s.skip_dut_nr_inst →
    Outcome sim pc npc s { s with skip_dut_nr_inst := s.skip_dut_nr_inst - 1 }
  | copied : s.skip_dut_nr_inst ≤ 0 → s.is_skip_ref = true →
    Outcome sim pc npc s { s with ref := sim.ref_difftest_regcpy_ref s.cpu s.ref, is_skip_ref := false }
  | compared : s.skip_dut_nr_inst ≤ 0 → s.is_skip_ref = false →
    Outcome sim pc npc s (sim.checkregs (sim.ref_difftest_regcpy_dut (sim.ref_difftest_exec s.ref)) pc
      { s with ref := sim.ref_difftest_exec s.ref })

theorem difftest_step_outcome (h : sim.difftest_step pc npc s = .ok s') : Outcome sim pc npc s s' := by
  simp only [Reference.difftest_step] at h
  split at h
  case isTrue hw =>
    split at h
    case isTrue =>
      cases h
      exact .caughtUp hw
    case isFalse =>
      split at h
      case isTrue => cases h
      case isFalse =>
        cases h
        exact .waits (by omega)
  case isFalse hw =>
    split at h <;> cases h
    case isTrue hs => exact .copied (by omega) hs
    case isFalse hs => exact .compared (by omega) (Bool.eq_false_of_not_eq_true hs)

section Checkregs

@[simp]
theorem checkregs_cpu : (sim.checkregs ref_r pc s).cpu = s.cpu := by
  simp only [Reference.checkregs]; split <;> rfl

@[simp]
theorem checkregs_ref : (sim.checkregs ref_r pc s).ref = s.ref := by
  simp only [Reference.checkregs]; split <;> rfl

@[simp]
theorem checkregs_is_skip_ref : (sim.checkregs ref_r pc s).is_skip_ref = s.is_skip_ref := by
  simp only [Reference.checkregs]; split <;> rfl

@[simp]
theorem checkregs_skip_dut_nr_inst : (sim.checkregs ref_r pc s).skip_dut_nr_inst = s.skip_dut_nr_inst := by
  simp only [Reference.checkregs]; split <;> rfl

@[simp]
theorem checkregs_nr_checks : (sim.checkregs ref_r pc s).nr_checks = s.nr_checks + 1 := by
  simp only [Reference.checkregs]; split <;> rfl

theorem checkregs_equal (he : sim.Exact) (h : (sim.checkregs ref_r pc s).nemu_state.state ≠ NEMU_ABORT) :
    s.cpu = ref_r := by
  rw [Reference.checkregs] at h
  split at h
  case isTrue hc => exact (he.checkregs ..).mp hc
  case isFalse => exact absurd rfl h

end Checkregs

theorem Outcome.equal (he : sim.Exact) (h : Outcome sim pc npc s s') (ha : s'.nemu_state.state ≠ NEMU_ABORT)
    (h₀ : s'.skip_dut_nr_inst = 0) : s'.cpu = sim.ref_difftest_regcpy_dut s'.ref := by
  cases h
  case caughtUp => simpa using checkregs_equal he ha
  case waits hw =>
    simp only at h₀
    omega
  case copied => exact (he.regcpy ..).symm
  case compared => simpa using checkregs_equal he ha

-- A step without a comparison waits, or it meets a request to skip the reference.
theorem Outcome.unchecked (h : Outcome sim pc npc s s') (hn : s'.nr_checks = s.nr_checks) :
    0 < s'.skip_dut_nr_inst ∨ s.is_skip_ref = true := by
  cases h
  case caughtUp => simp at hn
  case waits hw => exact .inl (by simp only; omega)
  case copied _ hs => exact .inr hs
  case compared => simp at hn

theorem Outcome.is_skip_ref_le (h : Outcome sim pc npc s s') (hs : s.is_skip_ref = false) :
    s'.is_skip_ref = false := by
  cases h <;> simp [hs]

-- Only a step that does not wait meets the request.
theorem Outcome.is_skip_ref_of_pos (h : Outcome sim pc npc s s') (hw : 0 < s.skip_dut_nr_inst) :
    s'.is_skip_ref = s.is_skip_ref := by
  cases h
  case caughtUp | waits => simp
  case copied | compared => omega

theorem Outcome.of_nonpos (h : Outcome sim pc npc s s') (hw : s.skip_dut_nr_inst ≤ 0) (hs : s.is_skip_ref = true) :
    s'.is_skip_ref = false ∧ s'.nr_checks = s.nr_checks ∧ s'.skip_dut_nr_inst = s.skip_dut_nr_inst := by
  cases h
  case caughtUp | waits => omega
  case copied => exact ⟨rfl, rfl, rfl⟩
  case compared hf => simp [hs] at hf

-- An instruction with its requests, followed by the step.
theorem exec_ok (h : sim.exec i s = .ok s') : ∃ s₁ pc npc, Requested i.calls s s₁ ∧
    Outcome sim pc npc { s₁ with cpu := i.cpu, nemu_state := i.nemu_state } s' := by
  rw [Reference.exec] at h
  cases hc : i.calls.foldlM sim.call s <;> rw [hc] at h
  case error => cases h
  case ok s₁ => exact ⟨s₁, _, _, calls_requested hc, difftest_step_outcome h⟩

-- An instruction that is not clean leaves its request behind, a clean one leaves none.

theorem Reference.Step.is_skip_ref (hi : i.Clean) (hs : s.is_skip_ref = false) (h : sim.Step i s s') :
    s'.is_skip_ref = false := by
  have ⟨s₁, _, _, hr, ho⟩ := exec_ok h.left
  by_cases hf : s₁.is_skip_ref = true
  case pos =>
    have hm : Call.skip_ref ∈ i.calls := by simpa [hs] using hr.is_skip_ref.mp hf
    have hw : s₁.skip_dut_nr_inst ≤ 0 := by
      rw [hr.skip_dut_nr_inst, foldl_count_of_mem hm]
      exact hi hm
    exact (ho.of_nonpos hw hf).left
  case neg => exact ho.is_skip_ref_le (Bool.eq_false_of_not_eq_true hf)

theorem Reference.Run.is_skip_ref (hs : s.is_skip_ref = false) (h : sim.Run (fun _ i => i.Clean) s s') :
    s'.is_skip_ref = false := by
  induction h
  case refl => exact hs
  case step hi h ih => exact h.is_skip_ref hi ih

theorem Reference.Step.sound (he : sim.Exact) (hs : s.is_skip_ref = false) (h : sim.Step i s s') :
    sim.Sound i s s' := by
  have ⟨s₁, _, _, hr, ho⟩ := exec_ok h.left
  exact {
    equal    := ho.equal he h.right
    compared := by
      intro hn
      obtain hw | hf := ho.unchecked (hn.trans hr.nr_checks.symm)
      case inl => exact .inr hw
      case inr => exact .inl (by simpa [hs] using hr.is_skip_ref.mp hf)
  }

-- Differential testing skips nothing silently as long as the instructions are clean.
theorem difftest_sound (he : sim.Exact)
    (hr : sim.Run (fun _ i => i.Clean) (sim.init_difftest cpu nemu_state ref) s) (h : sim.Step i s s') :
    sim.Sound i s s' :=
  h.sound he (hr.is_skip_ref rfl)

-- An instruction that is not clean leaves its request behind, and the first step that does not wait meets it.

theorem Reference.Step.leaves (hi : ¬ i.Clean) (h : sim.Step i s s') : s'.is_skip_ref = true := by
  have ⟨s₁, _, _, hr, ho⟩ := exec_ok h.left
  have ⟨hm, hn⟩ := Classical.not_imp.mp hi
  have hw : 0 < s₁.skip_dut_nr_inst := by
    rw [hr.skip_dut_nr_inst, foldl_count_of_mem hm]
    exact Int.not_le.mp hn
  rw [ho.is_skip_ref_of_pos hw]
  exact hr.is_skip_ref.mpr (.inr hm)

theorem Reference.Run.leaves (hs : s.is_skip_ref = true)
    (h : sim.Run (fun s i => 0 < s.skip_dut_nr_inst ∧ i.calls = []) s s') : s'.is_skip_ref = true := by
  induction h
  case refl => exact hs
  case step hp h ih =>
    have ⟨_, _, _, hr, ho⟩ := exec_ok h.left
    rw [hp.right] at hr
    rw [ho.is_skip_ref_of_pos (hr.skip_dut_nr_inst ▸ hp.left)]
    exact hr.is_skip_ref.mpr (.inl ih)

theorem Reference.Step.missed (hs : s.is_skip_ref = true) (hw : s.skip_dut_nr_inst = 0) (hi : i.calls = [])
    (h : sim.Step i s s') : ¬ sim.Sound i s s' := by
  intro hc
  have ⟨s₁, _, _, hr, ho⟩ := exec_ok h.left
  rw [hi] at hr
  have hw : s₁.skip_dut_nr_inst = 0 := hr.skip_dut_nr_inst.trans hw
  have ⟨_, hn, hw'⟩ := ho.of_nonpos (le_of_eq hw) (hr.is_skip_ref.mpr (.inl hs))
  obtain hm | hp := hc.compared (hn.trans hr.nr_checks)
  case inl => simp [hi] at hm
  case inr =>
    have hp : 0 < s₁.skip_dut_nr_inst := hw' ▸ hp
    omega

-- After an instruction that is not clean, and after those for which the processor only catches up, the step of an
-- instruction without requests makes no comparison.
theorem missed (hi : ¬ i.Clean) (h : sim.Step i s s₁)
    (hr : sim.Run (fun s i => 0 < s.skip_dut_nr_inst ∧ i.calls = []) s₁ s₂) (hw : s₂.skip_dut_nr_inst = 0)
    (hj : j.calls = []) (h' : sim.Step j s₂ s₃) : ¬ sim.Sound j s₂ s₃ :=
  h'.missed (hr.leaves (h.leaves hi)) hw hj

-- A machine that only counts.
namespace Counter

def counter : Reference Word Word where
  pc                          := id
  isa_difftest_checkregs      := fun cpu ref_r _ => cpu == ref_r
  ref_difftest_exec           := (· + 4)
  ref_difftest_regcpy_dut     := id
  ref_difftest_regcpy_ref c _ := c

theorem exact : counter.Exact where
  checkregs := by simp [counter]
  regcpy    := by simp [counter]

def nemuRunning : NEMUState where
  state    := NEMU_RUNNING
  halt_pc  := 0
  halt_ret := 0

def inst (calls : List Call) (cpu : Word) : Inst Word where
  calls
  cpu
  nemu_state := nemuRunning

def state (cpu ref : Word) (is_skip_ref : Bool) (nr_checks : Nat) : State Word Word where
  cpu
  nemu_state       := nemuRunning
  ref
  is_skip_ref
  skip_dut_nr_inst := 0
  nr_checks

end Counter

open Nemu.Difftest.Counter

-- An access to a device, and an instruction that is compared.
theorem difftest_sound_counter : counter.Sound (inst [] 8) (state 4 4 false 0) (state 8 8 false 1) :=
  have hi : (inst [.skip_ref] 4).Clean := fun _ => by decide
  have h : counter.Step (inst [.skip_ref] 4) (counter.init_difftest 0 nemuRunning 0) (state 4 4 false 0) :=
    ⟨by rfl, by decide⟩
  difftest_sound exact (.step .refl hi h) ⟨by rfl, by decide⟩

-- The first instruction asks for both, the second one is wrong, and nothing is compared.
theorem not_difftest_sound : ¬ ∀ (sim : Reference Word Word), sim.Exact → ∀ cpu nemu_state ref s i s',
    sim.Run (fun _ _ => True) (sim.init_difftest cpu nemu_state ref) s → sim.Step i s s' → sim.Sound i s s' := by
  intro h
  have hp : counter.Step (inst [.skip_ref, .skip_dut 1 1] 4) (counter.init_difftest 0 nemuRunning 0)
      (state 4 4 true 1) :=
    ⟨by rfl, by decide⟩
  have hw : counter.Step (inst [] 100) (state 4 4 true 1) (state 100 100 false 1) :=
    ⟨by rfl, by decide⟩
  have hs := h counter exact 0 nemuRunning 0 _ _ _ (.step .refl trivial hp) hw
  exact absurd (hs.compared rfl) (by decide)

end Difftest

-- The machine of riscv32 takes the same steps.

variable {D R : Type} {sys : System D R} {m : Machine D R} {pc npc : Word} {k : Nat}

theorem difftest_skip_ref_difftest {cfg : Config} (hd : cfg.DIFFTEST = true) :
    ∃ m', (access <| difftest_skip_ref cfg : Exec D R Unit) m = .ok .unit m' ∧
      m'.difftest k = Difftest.difftest_skip_ref (m.difftest k) := by
  refine ⟨{ m with is_skip_ref := true, skip_dut_nr_inst := 0 }, ?_, rfl⟩
  simp only [access, difftest_skip_ref, hd, if_true]
  rfl

theorem checkregs_difftest {ref_r : CPU_state} : ∃ m', (System.checkregs ref_r pc : Exec D R Unit) m = .ok .unit m' ∧
    m'.difftest (k + 1) = sys.reference.checkregs ref_r pc (m.difftest k) :=
  ⟨_, rfl, rfl⟩

theorem System.difftest_step_run : sys.difftest_step pc npc m =
    if m.skip_dut_nr_inst > 0 then
      if (sys.ref_difftest_regcpy_dut m.ref).pc = npc then
        checkregs (sys.ref_difftest_regcpy_dut m.ref) npc { m with skip_dut_nr_inst := 0 }
      else if m.skip_dut_nr_inst - 1 = 0 then
        .error (.catchUp (sys.ref_difftest_regcpy_dut m.ref).pc pc) { m with skip_dut_nr_inst := 0 }
      else
        .ok .unit { m with skip_dut_nr_inst := m.skip_dut_nr_inst - 1 }
    else if m.is_skip_ref then
      .ok .unit { m with ref := sys.ref_difftest_regcpy_ref m.cpu m.ref, is_skip_ref := false }
    else
      checkregs (sys.ref_difftest_regcpy_dut (sys.ref_difftest_exec m.ref)) pc
        { m with ref := sys.ref_difftest_exec m.ref } := by
  rw [System.difftest_step, EState.get_bind]
  split
  case isTrue hw =>
    simp only
    split
    case isTrue => rfl
    case isFalse =>
      split
      case isTrue h₁ =>
        rw [h₁]
        rfl
      case isFalse => rfl
  case isFalse => split <;> rfl

-- A step of the machine succeeds with the state, or fails with the fault, of differential testing.
theorem difftest_step_difftest : match sys.reference.difftest_step pc npc (m.difftest k) with
    | .ok s    => ∃ m', sys.difftest_step pc npc m = .ok .unit m' ∧ m'.difftest s.nr_checks = s
    | .error f =>
      ∃ m' ref_pc, sys.difftest_step pc npc m = .error (.catchUp ref_pc pc) m' ∧ f = .catchUp ref_pc pc := by
  have hi : (m.difftest k).skip_dut_nr_inst > 0 ↔ m.skip_dut_nr_inst > 0 := Int.natCast_pos
  rw [System.difftest_step_run, Difftest.Reference.difftest_step]
  by_cases hw : m.skip_dut_nr_inst > 0
  case pos =>
    rw [if_pos hw, if_pos (hi.mpr hw)]
    by_cases hp : (sys.ref_difftest_regcpy_dut m.ref).pc = npc
    case pos =>
      have hp' : sys.reference.pc (sys.reference.ref_difftest_regcpy_dut (m.difftest k).ref) = npc := hp
      simp only [if_pos hp, if_pos hp']
      exact checkregs_difftest
    case neg =>
      have hp' : sys.reference.pc (sys.reference.ref_difftest_regcpy_dut (m.difftest k).ref) ≠ npc := hp
      have hl : (m.difftest k).skip_dut_nr_inst - 1 = (m.skip_dut_nr_inst - 1 : Nat) := by
        simp only [Machine.difftest]
        omega
      simp only [if_neg hp, if_neg hp', hl, Int.natCast_eq_zero]
      by_cases h₁ : m.skip_dut_nr_inst - 1 = 0
      case pos =>
        rw [if_pos h₁, if_pos h₁]
        exact ⟨_, _, rfl, rfl⟩
      case neg =>
        rw [if_neg h₁, if_neg h₁]
        exact ⟨_, rfl, rfl⟩
  case neg =>
    rw [if_neg hw, if_neg (hi.not.mpr hw)]
    by_cases hs : m.is_skip_ref = true
    case pos =>
      have hs' : (m.difftest k).is_skip_ref = true := hs
      rw [if_pos hs, if_pos hs']
      exact ⟨_, rfl, rfl⟩
    case neg =>
      have hs' : (m.difftest k).is_skip_ref ≠ true := hs
      rw [if_neg hs, if_neg hs']
      exact checkregs_difftest

end Nemu
