import Ysyx.Am.Libgcc.Theorems.Udivsi3

-- `__umodsi3`, `__divsi3` and `__modsi3` divide the absolute values and give the result its sign.

namespace Am.Libgcc.Div

open Rv32 Rv32.Asm State

variable {addr : Nat → Word} {s : State} {a b : Word} {i : Nat}

section Signs

theorem msb_of_neg (h : a.toInt < 0) : a.msb = true := by
  rw [BitVec.msb_eq_toInt, decide_eq_true h]

theorem msb_of_nonneg (h : 0 ≤ a.toInt) : a.msb = false := by
  rw [BitVec.msb_eq_toInt, decide_eq_false h.not_gt]

theorem div_nonneg (ha : 0 ≤ a.toInt) (hb : 0 ≤ b.toInt) : M.div a b = M.divu a b := by
  rw [M.div, M.divu, BitVec.sdiv_eq, msb_of_nonneg ha, msb_of_nonneg hb]
  rfl

theorem div_nonneg_neg (ha : 0 ≤ a.toInt) (hb : b.toInt < 0) : M.div a b = -M.divu a (-b) := by
  have h : b ≠ 0 := fun he => by simp [he] at hb
  rw [M.div, M.divu, if_neg h, if_neg (neg_ne_zero.mpr h), BitVec.sdiv_eq, msb_of_nonneg ha, msb_of_neg hb]
  rfl

theorem div_neg_pos (ha : a.toInt < 0) (hb : 0 < b.toInt) : M.div a b = -M.divu (-a) b := by
  have h : b ≠ 0 := fun he => by simp [he] at hb
  rw [M.div, M.divu, if_neg h, if_neg h, BitVec.sdiv_eq, msb_of_neg ha, msb_of_nonneg hb.le]
  rfl

-- A divisor that is zero is taken as a negative one.
theorem div_neg_nonpos (ha : a.toInt < 0) (hb : b.toInt ≤ 0) : M.div a b = M.divu (-a) (-b) := by
  by_cases h : b = 0
  case pos => simp [M.div, M.divu, h]
  case neg =>
    have hn : b.toInt < 0 := lt_of_le_of_ne hb fun he => h <| BitVec.eq_of_toInt_eq he
    rw [M.div, M.divu, if_neg h, if_neg (neg_ne_zero.mpr h), BitVec.sdiv_eq, msb_of_neg ha, msb_of_neg hn]
    rfl

-- The remainder has the sign of the dividend.
theorem rem_eq : M.rem a b =
    if a.toInt < 0 then -M.remu (-a) (if b.toInt < 0 then -b else b) else M.remu a (if b.toInt < 0 then -b else b) := by
  by_cases h : b = 0
  case pos => simp [M.rem, M.remu, h]
  case neg =>
    have hn : (if b.toInt < 0 then -b else b) ≠ 0 := by split <;> simpa using h
    rw [M.rem, M.remu, M.remu, if_neg h, if_neg hn, if_neg hn, BitVec.srem_eq, BitVec.msb_eq_toInt, BitVec.msb_eq_toInt]
    by_cases ha : a.toInt < 0 <;> by_cases hb : b.toInt < 0 <;> simp [ha, hb]

end Signs

-- The routine is called from within.
theorem call_udivsi3 (h : Placed program addr) (hp : s.pc = addr i) (hl : program[i]? = some (call udivsi3)) :
    ∃ s', Reaches program addr s s' ∧ s'.pc = addr (i + 1) ∧ Changes [ra, a0, a1, a2, a3] s s' ∧
      s'.reg a0 = M.divu (s.reg a0) (s.reg a1) ∧ s'.reg a1 = M.remu (s.reg a0) (s.reg a1) := by
  have hr := h.reaches hp hl .refl
  rw [exec_call] at hr
  obtain ⟨s', hr', h0, h1⟩ := udivsi3_returns h (s := (s.setReg ra (addr (i + 1))).jump (addr udivsi3)) rfl
  have hi := (List.getElem?_eq_some_iff.mp hl).fst
  refine ⟨s', hr.trans hr'.reaches, ?pc, ?changes, by simpa using h0, by simpa using h1⟩
  case pc =>
    have he := hr'.pc
    rwa [reg_jump, reg_setReg, if_pos (by decide), h.even (i + 1) hi] at he
  case changes => exact Changes.trans (by simp) hr'.changes.mono

-- The routine has kept the return address in `t0`.
theorem returns_t0 {s' : State} {W : List Reg} (h : Placed program addr) (hr : Reaches program addr s s')
    (hp : s'.pc = addr i) (hl : program[i]? = some (jr t0)) (ht : s'.reg t0 = s.reg ra) (hc : Changes W s s') :
    Returns program addr W s (s'.jump (s.reg ra &&& ~~~1)) where
  reaches := hr.trans <| h.reaches hp hl <| by rw [exec_jr, ht]; exact .refl
  pc      := rfl
  changes := Changes.jump_iff.mpr hc

theorem umodsi3_returns (h : Placed program addr) (hp : s.pc = addr umodsi3) : ∃ s',
    Returns program addr [ra, t0, a0, a1, a2, a3] s s' ∧ s'.reg a0 = M.remu (s.reg a0) (s.reg a1) := by
  have hr₀ := h.reaches hp (l := mv t0 ra) rfl .refl
  rw [exec_mv] at hr₀
  obtain ⟨s₁, hr₁, hp₁, hc₁, -, h1⟩ := call_udivsi3 h (s := (s.setReg t0 (s.reg ra)).jump (addr 21)) rfl rfl
  have hr₂ := h.reaches hp₁ (l := mv a0 a1) rfl .refl
  rw [exec_mv] at hr₂
  have ht : s₁.reg t0 = s.reg ra := by simpa using hc₁.reg t0 (by decide)
  refine ⟨_, returns_t0 h ((hr₀.trans hr₁).trans hr₂) rfl rfl (by simpa using ht) ?changes, by simpa using h1⟩
  case changes =>
    have hc : Changes [ra, t0, a0, a1, a2, a3] s s₁ := Changes.trans (by simp) hc₁.mono
    simpa using hc

-- From `L12` on the quotient is negated.
theorem negated (h : Placed program addr) (hp : s.pc = addr 29) : ∃ s',
    Returns program addr [ra, t0, a0, a1, a2, a3] s s' ∧ s'.reg a0 = -M.divu (s.reg a0) (s.reg a1) := by
  have hr₀ := h.reaches hp (l := mv t0 ra) rfl .refl
  rw [exec_mv] at hr₀
  obtain ⟨s₁, hr₁, hp₁, hc₁, h0, -⟩ := call_udivsi3 h (s := (s.setReg t0 (s.reg ra)).jump (addr 30)) rfl rfl
  have hr₂ := h.reaches hp₁ (l := neg a0 a0) rfl .refl
  rw [exec_neg] at hr₂
  have ht : s₁.reg t0 = s.reg ra := by simpa using hc₁.reg t0 (by decide)
  refine ⟨_, returns_t0 h ((hr₀.trans hr₁).trans hr₂) rfl rfl (by simpa using ht) ?changes, by simpa using h0⟩
  case changes =>
    have hc : Changes [ra, t0, a0, a1, a2, a3] s s₁ := Changes.trans (by simp) hc₁.mono
    simpa using hc

-- The lines before the division, one lemma for each way through them.
section Ways

variable (h : Placed program addr) (hp : s.pc = addr divsi3)

include h hp

theorem way_nonneg (ha : 0 ≤ (s.reg a0).toInt) (hb : 0 ≤ (s.reg a1).toInt) :
    ∃ s', Reaches program addr s s' ∧ s'.pc = addr 2 ∧ Changes [a0, a1] s s' ∧
      s'.reg a0 = s.reg a0 ∧ s'.reg a1 = s.reg a1 := by
  rw [program_eq] at h ⊢
  refine ⟨_, h.reaches hp rfl <| h.reaches (i := 1) (congrArg addr <| if_neg ha.not_gt) rfl .refl,
    congrArg addr <| if_neg hb.not_gt, ?_⟩
  simp

theorem way_nonneg_neg (ha : 0 ≤ (s.reg a0).toInt) (hb : (s.reg a1).toInt < 0) :
    ∃ s', Reaches program addr s s' ∧ s'.pc = addr 29 ∧ Changes [a0, a1] s s' ∧
      s'.reg a0 = s.reg a0 ∧ s'.reg a1 = -s.reg a1 := by
  rw [program_eq] at h ⊢
  refine ⟨_, h.reaches hp rfl <| h.reaches (i := 1) (congrArg addr <| if_neg ha.not_gt) rfl <|
    h.reaches (i := 28) (congrArg addr <| if_pos hb) rfl .refl, rfl, ?_⟩
  simp

theorem way_neg_pos (ha : (s.reg a0).toInt < 0) (hb : 0 < (s.reg a1).toInt) :
    ∃ s', Reaches program addr s s' ∧ s'.pc = addr 29 ∧ Changes [a0, a1] s s' ∧
      s'.reg a0 = -s.reg a0 ∧ s'.reg a1 = s.reg a1 := by
  rw [program_eq] at h ⊢
  refine ⟨_, h.reaches hp rfl <| h.reaches (i := 24) (congrArg addr <| if_pos ha) rfl <|
    h.reaches (i := 25) rfl rfl .refl, ?_, ?_⟩
  all_goals simp_all

theorem way_neg_nonpos (ha : (s.reg a0).toInt < 0) (hb : (s.reg a1).toInt ≤ 0) :
    ∃ s', Reaches program addr s s' ∧ s'.pc = addr 2 ∧ Changes [a0, a1] s s' ∧
      s'.reg a0 = -s.reg a0 ∧ s'.reg a1 = -s.reg a1 := by
  rw [program_eq] at h ⊢
  refine ⟨_, h.reaches hp rfl <| h.reaches (i := 24) (congrArg addr <| if_pos ha) rfl <|
    h.reaches (i := 25) rfl rfl <| h.reaches (i := 26) (congrArg addr <| if_neg hb.not_gt) rfl <|
    h.reaches (i := 27) rfl rfl .refl, rfl, ?_⟩
  simp

end Ways

theorem divsi3_returns (h : Placed program addr) (hp : s.pc = addr divsi3) : ∃ s',
    Returns program addr [ra, t0, a0, a1, a2, a3] s s' ∧ s'.reg a0 = M.div (s.reg a0) (s.reg a1) := by
  by_cases ha : (s.reg a0).toInt < 0
  case pos =>
    by_cases hb : 0 < (s.reg a1).toInt
    case pos =>
      obtain ⟨s₁, hr₁, hp₁, hc₁, h0, h1⟩ := way_neg_pos h hp ha hb
      obtain ⟨s', hr, hv⟩ := negated h hp₁
      exact ⟨s', hr.after hr₁ hc₁.mono (hc₁.reg ra (by decide)), by rw [hv, h0, h1, div_neg_pos ha hb]⟩
    case neg =>
      obtain ⟨s₁, hr₁, hp₁, hc₁, h0, h1⟩ := way_neg_nonpos h hp ha (Int.not_lt.mp hb)
      obtain ⟨s', hr, hv, -⟩ := udivsi3_returns h hp₁
      exact ⟨s', hr.mono.after hr₁ hc₁.mono (hc₁.reg ra (by decide)),
        by rw [hv, h0, h1, div_neg_nonpos ha (Int.not_lt.mp hb)]⟩
  case neg =>
    rw [Int.not_lt] at ha
    by_cases hb : (s.reg a1).toInt < 0
    case pos =>
      obtain ⟨s₁, hr₁, hp₁, hc₁, h0, h1⟩ := way_nonneg_neg h hp ha hb
      obtain ⟨s', hr, hv⟩ := negated h hp₁
      exact ⟨s', hr.after hr₁ hc₁.mono (hc₁.reg ra (by decide)), by rw [hv, h0, h1, div_nonneg_neg ha hb]⟩
    case neg =>
      obtain ⟨s₁, hr₁, hp₁, hc₁, h0, h1⟩ := way_nonneg h hp ha (Int.not_lt.mp hb)
      obtain ⟨s', hr, hv, -⟩ := udivsi3_returns h hp₁
      exact ⟨s', hr.mono.after hr₁ hc₁.mono (hc₁.reg ra (by decide)),
        by rw [hv, h0, h1, div_nonneg ha (Int.not_lt.mp hb)]⟩

section Remainder

-- The divisor is made nonnegative first, and the dividend where it is negative.
theorem way_rem (h : Placed program addr) (hp : s.pc = addr modsi3) : ∃ s', Reaches program addr s s' ∧
    s'.pc = addr (if (s.reg a0).toInt < 0 then 41 else 36) ∧ Changes [t0, a1] s s' ∧ s'.reg t0 = s.reg ra ∧
    s'.reg a1 = if (s.reg a1).toInt < 0 then -s.reg a1 else s.reg a1 := by
  rw [program_eq] at h ⊢
  by_cases hb : (s.reg a1).toInt < 0
  case pos =>
    have hi : (if 0 ≤ (s.reg a0).toInt then 36 else 41) = if (s.reg a0).toInt < 0 then 41 else 36 := by
      split <;> split <;> omega
    refine ⟨_, h.reaches hp rfl <| h.reaches (i := 34) rfl rfl <|
      h.reaches (i := 39) (congrArg addr <| if_pos hb) rfl <| h.reaches (i := 40) rfl rfl .refl, congrArg addr hi, ?_⟩
    rw [if_pos hb]
    simp
  case neg =>
    refine ⟨_, h.reaches hp rfl <| h.reaches (i := 34) rfl rfl <|
      h.reaches (i := 35) (congrArg addr <| if_neg hb) rfl .refl, rfl, ?_⟩
    rw [if_neg hb]
    simp

-- The end of the routine for a dividend that is not negative, and for one that is.

theorem rem_plain (h : Placed program addr) (hp : s.pc = addr 36) : ∃ s', Reaches program addr s s' ∧
    s'.pc = addr 38 ∧ Changes [ra, a0, a1, a2, a3] s s' ∧ s'.reg a0 = M.remu (s.reg a0) (s.reg a1) := by
  obtain ⟨s₁, hr₁, hp₁, hc₁, -, h1⟩ := call_udivsi3 h hp rfl
  have hr₂ := h.reaches hp₁ (l := mv a0 a1) rfl .refl
  rw [exec_mv] at hr₂
  exact ⟨_, hr₁.trans hr₂, rfl, by simpa using hc₁, by simpa using h1⟩

theorem rem_negated (h : Placed program addr) (hp : s.pc = addr 41) : ∃ s', Reaches program addr s s' ∧
    s'.pc = addr 44 ∧ Changes [ra, a0, a1, a2, a3] s s' ∧ s'.reg a0 = -M.remu (-s.reg a0) (s.reg a1) := by
  have hr₀ := h.reaches hp (l := neg a0 a0) rfl .refl
  rw [exec_neg] at hr₀
  obtain ⟨s₁, hr₁, hp₁, hc₁, -, h1⟩ := call_udivsi3 h (s := (s.setReg a0 (-s.reg a0)).jump (addr 42)) rfl rfl
  have hr₂ := h.reaches hp₁ (l := neg a0 a1) rfl .refl
  rw [exec_neg] at hr₂
  have hc : Changes [ra, a0, a1, a2, a3] s s₁ := Changes.trans (by simp) hc₁
  exact ⟨_, (hr₀.trans hr₁).trans hr₂, rfl, by simpa using hc, by simpa using h1⟩

theorem modsi3_returns (h : Placed program addr) (hp : s.pc = addr modsi3) : ∃ s',
    Returns program addr [ra, t0, a0, a1, a2, a3] s s' ∧ s'.reg a0 = M.rem (s.reg a0) (s.reg a1) := by
  obtain ⟨s₁, hr₁, hp₁, hc₁, ht, h1⟩ := way_rem h hp
  have h0 : s₁.reg a0 = s.reg a0 := hc₁.reg a0 (by decide)
  rw [rem_eq, ← h1, ← h0]
  rw [← h0] at hp₁
  by_cases ha : (s₁.reg a0).toInt < 0
  case pos =>
    rw [if_pos ha] at hp₁ ⊢
    obtain ⟨s₂, hr₂, hp₂, hc₂, hv⟩ := rem_negated h hp₁
    exact ⟨_, returns_t0 h (hr₁.trans hr₂) hp₂ rfl ((hc₂.reg t0 (by decide)).trans ht) (hc₁.mono.trans hc₂.mono), hv⟩
  case neg =>
    rw [if_neg ha] at hp₁ ⊢
    obtain ⟨s₂, hr₂, hp₂, hc₂, hv⟩ := rem_plain h hp₁
    exact ⟨_, returns_t0 h (hr₁.trans hr₂) hp₂ rfl ((hc₂.reg t0 (by decide)).trans ht) (hc₁.mono.trans hc₂.mono), hv⟩

end Remainder

-- Wherever the routines are placed, they give their callers the results of the instructions that the machine lacks.
theorem division_correct (h : Placed program addr) :
    (s.pc = addr udivsi3 → ∃ s', Returns program addr [a0, a1, a2, a3] s s' ∧
      s'.reg a0 = M.divu (s.reg a0) (s.reg a1)) ∧
    (s.pc = addr umodsi3 → ∃ s', Returns program addr [ra, t0, a0, a1, a2, a3] s s' ∧
      s'.reg a0 = M.remu (s.reg a0) (s.reg a1)) ∧
    (s.pc = addr divsi3 → ∃ s', Returns program addr [ra, t0, a0, a1, a2, a3] s s' ∧
      s'.reg a0 = M.div (s.reg a0) (s.reg a1)) ∧
    (s.pc = addr modsi3 → ∃ s', Returns program addr [ra, t0, a0, a1, a2, a3] s s' ∧
      s'.reg a0 = M.rem (s.reg a0) (s.reg a1)) := by
  refine ⟨fun hp => ?_, umodsi3_returns h, divsi3_returns h, modsi3_returns h⟩
  have ⟨s', hr, h0, _⟩ := udivsi3_returns h hp
  exact ⟨s', hr, h0⟩

-- The placement of the lines from an address on.
theorem division_correct_consecutive :
    let addr i : Word := 0x80000000 + BitVec.ofNat 32 (4 * i)
    let s : State :=
      { regs r := if r = a0 then -100 else if r = a1 then 7 else 0x80001000, pc := addr divsi3, mem _ := 0 }
    (s.pc = addr udivsi3 → ∃ s', Returns program addr [a0, a1, a2, a3] s s' ∧
      s'.reg a0 = M.divu (s.reg a0) (s.reg a1)) ∧
    (s.pc = addr umodsi3 → ∃ s', Returns program addr [ra, t0, a0, a1, a2, a3] s s' ∧
      s'.reg a0 = M.remu (s.reg a0) (s.reg a1)) ∧
    (s.pc = addr divsi3 → ∃ s', Returns program addr [ra, t0, a0, a1, a2, a3] s s' ∧
      s'.reg a0 = M.div (s.reg a0) (s.reg a1)) ∧
    (s.pc = addr modsi3 → ∃ s', Returns program addr [ra, t0, a0, a1, a2, a3] s s' ∧
      s'.reg a0 = M.rem (s.reg a0) (s.reg a1)) :=
  division_correct <| placed_consecutive (by decide) (by decide)

end Am.Libgcc.Div
