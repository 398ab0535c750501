import Ysyx.Am.Libgcc.Theorems.Divsi3
import Ysyx.Am.Libgcc.Theorems.Mulsi3
import Ysyx.Minirv.Theorems.Routine

-- The routines as they run on the machine that has the base instructions only.

namespace Am.Libgcc

open Rv32 Rv32.Asm InstReplace

variable {sym : Symbols} {base : Word} {code : List Instr} {fetch : Word → Option Instr} {t : State}

-- The caller finds the value in `a0`.
def Yields (sym : Symbols) (fetch : Word → Option Instr) (W : List Reg) (t : State) (v : Word) : Prop :=
  ∃ n t', steps fetch n t = some t' ∧ Returned sym W t t' ∧ t'.reg a0 = v

section Yields

variable {p : List (Line Nat)} {W : List Reg} {v : Word}

theorem yields_of_returns (hc : compile sym base p = some code) (hb : base.toNat % 2 = 0) (hf : CodeAt fetch base code)
    (ha : ∀ l ∈ p, Accepted l) (hq : ∀ l ∈ p, Quiet l) (r : sym.Ready t) (f : sym.ArrayFree t)
    (h : ∃ s', Asm.Returns p (layout sym base p) W t s' ∧ s'.reg a0 = v) : Yields sym fetch W t v := by
  obtain ⟨s', h, hv⟩ := h
  obtain ⟨n, t', hn, hr, hg⟩ := returned_of_returns hc hb hf ha hq r f h
  exact ⟨n, t', hn, hr, (hg a0 (by decide)).trans hv⟩

end Yields

-- The image at 2 GB with the tables behind the code, and the arguments 100 and 7.
def called (pc : Word) : State where
  regs r := if r = InstReplace.sp then 0x80200000 else if r = a0 then 100 else if r = a1 then 7 else 0x80000800
  pc     := pc
  mem    := .ofObjects (Symbols.at 0x80100000).rodata

theorem ready_called {pc : Word} : (Symbols.at 0x80100000).Ready (called pc) :=
  ready_at (show 0x80148600 + 28 ≤ (0x80200000 : Word).toNat by decide) rfl

theorem arrayFree_called {pc : Word} : (Symbols.at 0x80100000).ArrayFree (called pc) := by
  have f : (Symbols.at 0x80100000).ArrayFree (loaded 0x80100000 0x80200000) := arrayFree_loaded (by decide)
  exact ⟨f.scratch, f.rodata⟩

theorem exists_image {p : List (Line Nat)} (h : ∀ l ∈ p, Expandable l) (hn : 65 * p.length ≤ 2 ^ 16) :
    ∃ code fetch, compile (Symbols.at 0x80100000) 0x80000000 p = some code ∧ CodeAt fetch 0x80000000 code ∧
      (0x80000000 : Word).toNat + 4 * code.length < 2 ^ 32 := by
  have ⟨code, hc, hl⟩ : ∃ code, compile (Symbols.at 0x80100000) 0x80000000 p = some code ∧ _ := exists_compile h
  have ⟨fetch, hf⟩ : ∃ fetch, CodeAt fetch 0x80000000 code := exists_codeAt _ (by omega)
  refine ⟨code, fetch, hc, hf, ?_⟩
  simp
  omega

theorem Muldi3.mulsi3_compiled (hc : compile sym base program = some code) (hb : base.toNat % 2 = 0)
    (hn : base.toNat + 4 * code.length < 2 ^ 32) (hf : CodeAt fetch base code) (r : sym.Ready t) (f : sym.ArrayFree t)
    (hp : t.pc = layout sym base program mulsi3) : Yields sym fetch [a0, a1, a2, a3] t (t.reg a0 * t.reg a1) :=
  yields_of_returns hc hb hf (by decide) (by decide) r f <| mulsi3_returns (placed_of_compile hc hb hn (by decide)) hp

theorem Muldi3.mulsi3_compiled_called : ∃ code fetch, compile (Symbols.at 0x80100000) 0x80000000 program = some code ∧
    CodeAt fetch 0x80000000 code ∧
    let t := called (layout (Symbols.at 0x80100000) 0x80000000 program mulsi3)
    Yields (Symbols.at 0x80100000) fetch [a0, a1, a2, a3] t (t.reg a0 * t.reg a1) := by
  obtain ⟨code, fetch, hc, hf, hn⟩ := exists_image (p := program) (by decide) (by decide)
  exact ⟨code, fetch, hc, hf, Muldi3.mulsi3_compiled hc (by decide) hn hf ready_called arrayFree_called rfl⟩

theorem Div.division_compiled (hc : compile sym base program = some code) (hb : base.toNat % 2 = 0)
    (hn : base.toNat + 4 * code.length < 2 ^ 32) (hf : CodeAt fetch base code) (r : sym.Ready t)
    (f : sym.ArrayFree t) :
    (t.pc = layout sym base program udivsi3 →
      Yields sym fetch [a0, a1, a2, a3] t (M.divu (t.reg a0) (t.reg a1))) ∧
    (t.pc = layout sym base program umodsi3 →
      Yields sym fetch [ra, t0, a0, a1, a2, a3] t (M.remu (t.reg a0) (t.reg a1))) ∧
    (t.pc = layout sym base program divsi3 →
      Yields sym fetch [ra, t0, a0, a1, a2, a3] t (M.div (t.reg a0) (t.reg a1))) ∧
    (t.pc = layout sym base program modsi3 →
      Yields sym fetch [ra, t0, a0, a1, a2, a3] t (M.rem (t.reg a0) (t.reg a1))) := by
  have h := placed_of_compile hc hb hn (by decide)
  refine ⟨fun hp => ?udivsi3, fun hp => ?umodsi3, fun hp => ?divsi3, fun hp => ?modsi3⟩
  all_goals refine yields_of_returns hc hb hf (by decide) (by decide) r f ?_
  case udivsi3 =>
    have ⟨s', hr, h0, _⟩ := udivsi3_returns h hp
    exact ⟨s', hr, h0⟩
  case umodsi3 => exact umodsi3_returns h hp
  case divsi3 => exact divsi3_returns h hp
  case modsi3 => exact modsi3_returns h hp

theorem Div.division_compiled_called : ∃ code fetch, compile (Symbols.at 0x80100000) 0x80000000 program = some code ∧
    CodeAt fetch 0x80000000 code ∧
    let sym := Symbols.at 0x80100000
    let t := called (layout sym 0x80000000 program divsi3)
    (t.pc = layout sym 0x80000000 program udivsi3 →
      Yields sym fetch [a0, a1, a2, a3] t (M.divu (t.reg a0) (t.reg a1))) ∧
    (t.pc = layout sym 0x80000000 program umodsi3 →
      Yields sym fetch [ra, t0, a0, a1, a2, a3] t (M.remu (t.reg a0) (t.reg a1))) ∧
    (t.pc = layout sym 0x80000000 program divsi3 →
      Yields sym fetch [ra, t0, a0, a1, a2, a3] t (M.div (t.reg a0) (t.reg a1))) ∧
    (t.pc = layout sym 0x80000000 program modsi3 →
      Yields sym fetch [ra, t0, a0, a1, a2, a3] t (M.rem (t.reg a0) (t.reg a1))) := by
  obtain ⟨code, fetch, hc, hf, hn⟩ := exists_image (p := program) (by decide) (by decide)
  exact ⟨code, fetch, hc, hf, Div.division_compiled hc (by decide) hn hf ready_called arrayFree_called⟩

end Am.Libgcc
