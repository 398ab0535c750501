import Mathlib.Data.Set.BooleanAlgebra
import Mathlib.Order.CompletePartialOrder
import Ysyx.Minirv.Layout
import Ysyx.Minirv.Theorems.Size

-- A program that has been expanded runs as its source says. The two machines may differ in gp and tp, and in the memory
-- that the expansions have used and the program has not written since.

open Rv32 State InstReplace
open Rv32.Asm (Line)

namespace Rv32.Asm

theorem Load.eval_congr {f : Load} {m m' : Memory 32} {a : Word} (h : ∀ x ∈ Memory.region a f.width, m' x = m x) :
    f.eval m' a = f.eval m a := by
  have hx (k : Nat) (hk : k < f.width) : m' (a + BitVec.ofNat 32 k) = m (a + BitVec.ofNat 32 k) :=
    h _ <| (Memory.mem_region_iff (by cases f <;> decide)).mpr ⟨k, hk, rfl⟩
  have h₀ : m' a = m a := by simpa using hx 0 (by cases f <;> decide)
  cases f
  case lb  => rw [eval, eval, h₀]
  case lbu => rw [eval, eval, h₀]
  case lh  => rw [eval, eval, h₀, show m' (a + 1) = m (a + 1) from hx 1 (by decide)]
  case lhu => rw [eval, eval, h₀, show m' (a + 1) = m (a + 1) from hx 1 (by decide)]
  case lw  => exact Memory.load32_congr hx

end Rv32.Asm

namespace InstReplace

variable {sym : Symbols} {s s' t : State} {addr : Nat → Word} {i : Nat} {l : Line Nat} {D D' : Set Word}

-- The states agree outside of `D` and in the registers that a program may use.
structure Agrees (D : Set Word) (s t : State) : Prop where
  pc  : t.pc = s.pc
  reg : ∀ r, r ∉ [gp, tp] → t.reg r = s.reg r
  mem : ∀ a, a ∉ D → t.mem a = s.mem a

theorem Accepted.operand {r : Reg} (hl : Accepted l) (hr : r ∈ l.operands) : r ∉ [gp, tp] := by
  intro hm
  simp only [List.mem_cons, List.not_mem_nil, or_false] at hm
  obtain rfl | rfl := hm
  case inl => exact hl.left hr
  case inr => exact hl.right.left hr

namespace Agrees

theorem mono (h : Agrees D s t) (hd : D ⊆ D') : Agrees D' s t where
  pc  := h.pc
  reg := h.reg
  mem a ha := h.mem a fun hm => ha (hd hm)

theorem setReg {r : Reg} {v : Word} (h : Agrees D s t) : Agrees D (s.setReg r v) (t.setReg r v) where
  pc  := by simp [h.pc]
  reg r' hr := by simp only [reg_setReg, h.reg r' hr]
  mem a ha := by simp [h.mem a ha]

theorem jump {a : Word} (h : Agrees D s t) : Agrees D (s.jump a) (t.jump a) where
  pc  := rfl
  reg := h.reg
  mem := h.mem

-- The bytes that both store agree from then on.
theorem store {a v : Word} {n : Nat} (h : Agrees D s t) :
    Agrees (D \ Memory.region a n) (s.setMem (s.mem.store a n v)) (t.setMem (t.mem.store a n v)) where
  pc  := h.pc
  reg := h.reg
  mem x hx := by
    rw [mem_setMem, mem_setMem]
    by_cases hr : x ∈ Memory.region a n
    case pos => rw [Memory.store_of_mem hr, Memory.store_of_mem hr]
    case neg => rw [Memory.store_of_not_mem hr, Memory.store_of_not_mem hr, h.mem x fun hd => hx ⟨hd, hr⟩]

-- A line has the same effect on both if it reads what they agree about.
theorem exec (h : Agrees D s t) (hl : Accepted l) (hr : Disjoint (l.reads s) D) :
    Agrees (D \ l.writes s) (l.exec addr i s) (l.exec addr i t) := by
  have ho : ∀ r ∈ l.operands, t.reg r = s.reg r := fun r hr => h.reg r (hl.operand hr)
  cases l
  case op f rd rs1 rs2 =>
    rw [Line.exec, Line.exec, ho rs1 (by simp [Line.operands]), ho rs2 (by simp [Line.operands])]
    exact h.setReg.jump.mono (by simp [Line.writes])
  case opImm f rd rs1 imm =>
    rw [Line.exec, Line.exec, ho rs1 (by simp [Line.operands])]
    exact h.setReg.jump.mono (by simp [Line.writes])
  case shift f rd rs1 shamt =>
    rw [Line.exec, Line.exec, ho rs1 (by simp [Line.operands])]
    exact h.setReg.jump.mono (by simp [Line.writes])
  case lui => exact h.setReg.jump.mono (by simp [Line.writes])
  case load f rd imm rs1 =>
    have ha : t.addr imm rs1 = s.addr imm rs1 := by rw [State.addr, ho rs1 (by simp [Line.operands]), State.addr]
    rw [Line.exec, Line.exec, ha, Asm.Load.eval_congr fun x hx => h.mem x <| Set.disjoint_left.mp hr hx]
    exact h.setReg.jump.mono (by simp [Line.writes])
  case store f rs2 imm rs1 =>
    have ha : t.addr imm rs1 = s.addr imm rs1 := by rw [State.addr, ho rs1 (by simp [Line.operands]), State.addr]
    rw [Line.exec, Line.exec, ha, ho rs2 (by simp [Line.operands])]
    exact h.store.jump
  case branch c rs1 rs2 target =>
    rw [Line.exec, Line.exec, ho rs1 (by simp [Line.operands]), ho rs2 (by simp [Line.operands])]
    exact h.jump.mono (by simp [Line.writes])
  case jal => exact h.setReg.jump.mono (by simp [Line.writes])
  case jalr rd rs1 imm =>
    rw [Line.exec, Line.exec, ho rs1 (by simp [Line.operands])]
    exact h.setReg.jump.mono (by simp [Line.writes])

end Agrees
section Step

variable {fetch : Word → Option Instr} {code : List Instr}

theorem exec_mem_of_not_mem {a : Word} (h : a ∉ l.writes s) : (l.exec addr i s).mem a = s.mem a := by
  cases l
  case store => exact Memory.store_of_not_mem h
  all_goals simp [Line.exec]

theorem Agrees.reads_eq (h : Agrees D s t) (hl : Accepted l) : l.reads t = l.reads s := by
  cases l
  case load f rd imm rs1 =>
    have h1 : t.reg rs1 = s.reg rs1 := h.reg rs1 <| hl.operand (by simp [Line.operands])
    rw [Line.reads, State.addr, h1, Line.reads, State.addr]
  all_goals rfl

theorem Agrees.writes_eq (h : Agrees D s t) (hl : Accepted l) : l.writes t = l.writes s := by
  cases l
  case store f rs2 imm rs1 =>
    have h1 : t.reg rs1 = s.reg rs1 := h.reg rs1 <| hl.operand (by simp [Line.operands])
    rw [Line.writes, State.addr, h1, Line.writes, State.addr]
  all_goals rfl

-- The program may execute the line: it leaves the stack below sp and the tables alone, and does not read what it has
-- not written.
structure Safe (sym : Symbols) (D : Set Word) (s : State) (l : Line Nat) : Prop where
  rodata : ∀ o ∈ sym.rodata, Disjoint (Memory.region o.fst o.snd.length) (scratch (s.reg sp))
  array  : sym.ArrayFree s
  reads  : Disjoint (l.reads s) (D ∪ hidden sym s)
  writes : Disjoint (l.writes s) (hidden sym s)
  tables : ∀ o ∈ sym.rodata, Disjoint (Memory.region o.fst o.snd.length) (l.writes s)

def Loaded (sym : Symbols) (t : State) : Prop :=
  ∀ o ∈ sym.rodata, t.mem.Holds o.fst o.snd

theorem Agrees.hidden_eq (h : Agrees D s t) : hidden sym t = hidden sym s := by
  rw [hidden, h.reg sp (by simp), hidden]

theorem Agrees.clear (h : Agrees D s t) (hl : Accepted l) (hs : Safe sym D s l) : Clear sym t l := by
  constructor
  case reads =>
    rw [h.reads_eq hl, h.hidden_eq]
    exact hs.reads.mono_right Set.subset_union_right
  case writes =>
    rw [h.writes_eq hl, h.hidden_eq]
    exact hs.writes

theorem Agrees.step (h : Agrees D s t) (ht : Loaded sym t) (hl : Accepted l) (hs : Safe sym D s l) (hp : s.pc = addr i)
    (hn : addr (i + 1) = addr i + BitVec.ofNat 32 (4 * code.length)) (he : ∀ i, (addr i).toNat % 2 = 0)
    (hc : expand sym addr i l = some code) (hf : CodeAt fetch (addr i) code) :
    ∃ t', steps fetch code.length t = some t' ∧ Loaded sym t' ∧
      Agrees ((D ∪ hidden sym s) \ l.writes s) (l.exec addr i s) t' := by
  have hsp : t.reg sp = s.reg sp := h.reg sp (by simp)
  have hh : hidden sym t = hidden sym s := h.hidden_eq
  have hpt : t.pc = addr i := h.pc.trans hp
  have r : sym.Ready t := ⟨ht, hsp ▸ hs.rodata⟩
  have f : sym.ArrayFree t := ⟨hsp ▸ hs.array.scratch, hs.array.rodata⟩
  obtain ⟨t', ht', hp', hr', hm'⟩ := line_simulates hl r f hpt (hpt ▸ hn) he (h.clear hl hs) hc fetch (hpt ▸ hf)
  have ha : Agrees _ (l.exec addr i s) (l.exec addr i t) := h.exec hl (hs.reads.mono_right Set.subset_union_left)
  refine ⟨t', ht', fun o ho => ?loaded, hp'.trans ha.pc, fun x hx => (hr' x hx).trans (ha.reg x hx), fun a hx => ?mem⟩
  case loaded =>
    refine (ht o ho).congr fun a hx => ?_
    have hn : a ∉ hidden sym t := by
      rw [hh]
      exact Set.disjoint_left.mp (Set.disjoint_union_right.mpr ⟨hs.rodata o ho, hs.array.rodata o ho⟩) hx
    have hw : a ∉ l.writes t := by
      rw [h.writes_eq hl]
      exact Set.disjoint_left.mp (hs.tables o ho) hx
    rw [hm' a hn, exec_mem_of_not_mem hw]
  case mem =>
    rw [hh] at hm'
    by_cases hw : a ∈ l.writes s
    case pos => rw [hm' a <| Set.disjoint_left.mp hs.writes hw, ha.mem a fun hd => hd.right hw]
    case neg =>
      have hn : a ∉ D ∪ hidden sym s := fun hd => hx ⟨hd, hw⟩
      rw [hm' a fun hd => hn (.inr hd), ha.mem a fun hd => hn (.inl hd.left)]

end Step

section Run

variable {p : List (Line Nat)} {fetch : Word → Option Instr} {base : Word} {code : List Instr}

-- The runs of the source. `D` is what the program has not written since it was last below the stack pointer.
inductive Run (sym : Symbols) (p : List (Line Nat)) (addr : Nat → Word) (s : State) (D : Set Word) :
    State → Set Word → Prop
  | refl : Run sym p addr s D s D
  | step {s' : State} {D' : Set Word} {i : Nat} {l : Line Nat} : Run sym p addr s D s' D' → s'.pc = addr i →
    p[i]? = some l → Safe sym D' s' l →
    Run sym p addr s D (l.exec addr i s') ((D' ∪ hidden sym s') \ l.writes s')

theorem codeAt_append {a : Word} {c c' : List Instr} (h : CodeAt fetch a (c ++ c')) :
    CodeAt fetch a c ∧ CodeAt fetch (a + BitVec.ofNat 32 (4 * c.length)) c' := by
  constructor
  case left =>
    intro i hi
    rw [h i (by simp; omega), List.getElem_append_left hi]
  case right =>
    intro i hi
    rw [BitVec.add_assoc, ← BitVec.ofNat_add, ← Nat.mul_add, h (c.length + i) (by simpa using hi)]
    simp

theorem size_expand (h : expand sym addr i l = some code) : code.length = size sym l := by
  have hb (c : List Instr) (x y x' y' : Word) (high : Bool) :
      (c ++ branchResolve x high y).length = (c ++ branchResolve x' high y').length := by
    cases high <;> simp [branchResolve, la]
  have hd : (expand sym addr i l).map List.length = (expand sym (fun _ => 0) 0 l).map List.length := by
    cases l
    case branch c rs1 rs2 t =>
      cases c
      all_goals simp only [expand, expandBranch, Option.map_some, Option.some_inj]
      case eq => rw [beq_eq, beq_eq, hb]
      case ne => rw [bne_eq, bne_eq, hb]
      case lt => rw [blt, blt]; split <;> [skip; split] <;> exact hb ..
      case ge => rw [bge, bge]; split <;> exact hb ..
      case ltu => exact hb ..
      case geu => exact hb ..
    case jal rd t =>
      simp only [expand, jal, j, callTemplate]
      split <;> simp [la]
    all_goals rfl
  rw [h, Option.map_some] at hd
  obtain ⟨c, hc, hn⟩ := Option.map_eq_some_iff.mp hd.symm
  rw [size, hc]
  exact hn.symm

theorem offset_succ {k : Nat} (h : p[k]? = some l) : offset sym p (k + 1) = offset sym p k + size sym l := by
  simp [offset, List.take_add_one, h]

theorem expandLines_codeAt {a : Word} (h : expandLines sym addr i p = some code) (hf : CodeAt fetch a code) {k : Nat}
    (hl : p[k]? = some l) : ∃ c, expand sym addr (i + k) l = some c ∧
      CodeAt fetch (a + BitVec.ofNat 32 (4 * offset sym p k)) c := by
  induction p generalizing i a k code
  case nil => cases hl
  case cons l' p hi =>
    obtain ⟨c, hc, hm⟩ := Option.bind_eq_some_iff.mp h
    obtain ⟨c', hc', rfl⟩ := Option.map_eq_some_iff.mp hm
    have ⟨hf, hf'⟩ := codeAt_append hf
    cases k
    case zero =>
      cases hl
      exact ⟨c, hc, by simpa [offset] using hf⟩
    case succ k =>
      obtain ⟨d, hd, hg⟩ := hi hc' hf' hl
      refine ⟨d, by rwa [Nat.add_comm k, ← Nat.add_assoc], ?_⟩
      rwa [BitVec.add_assoc, ← BitVec.ofNat_add, ← Nat.mul_add, size_expand hc] at hg

theorem layout_succ {k : Nat} (h : p[k]? = some l) : layout sym base p (k + 1) =
    layout sym base p k + BitVec.ofNat 32 (4 * size sym l) := by
  rw [layout, offset_succ h, Nat.mul_add, BitVec.ofNat_add, ← BitVec.add_assoc, layout]

theorem layout_even (h : base.toNat % 2 = 0) (k : Nat) : (layout sym base p k).toNat % 2 = 0 := by
  rw [layout]
  bv_omega

theorem steps_add {n m : Nat} (h : steps fetch n s = some s') : steps fetch (n + m) s = steps fetch m s' := by
  induction n generalizing s
  case zero =>
    cases h
    rw [Nat.zero_add]
  case succ n hi =>
    obtain ⟨s₁, hs, h⟩ := Option.bind_eq_some_iff.mp h
    rw [Nat.succ_add, steps, hs, Option.bind_some, hi h]

-- The expansions of all lines are where they are to be.
def Expanded (sym : Symbols) (fetch : Word → Option Instr) (addr : Nat → Word) (p : List (Line Nat)) : Prop :=
  ∀ i l, p[i]? = some l → ∃ c, expand sym addr i l = some c ∧ CodeAt fetch (addr i) c ∧
    addr (i + 1) = addr i + BitVec.ofNat 32 (4 * c.length)

theorem expanded_of_compile (hc : compile sym base p = some code) (hf : CodeAt fetch base code) :
    Expanded sym fetch (layout sym base p) p := by
  intro i l hl
  obtain ⟨c, hc, hg⟩ := expandLines_codeAt hc hf hl
  rw [Nat.zero_add] at hc
  exact ⟨c, hc, hg, size_expand hc ▸ layout_succ hl⟩

theorem Run.simulated (hr : Run sym p addr s D s' D') (hx : Expanded sym fetch addr p)
    (he : ∀ i, (addr i).toNat % 2 = 0) (ha : ∀ l ∈ p, Accepted l) (h : Agrees D s t) (ht : Loaded sym t) :
    ∃ n t', steps fetch n t = some t' ∧ Loaded sym t' ∧ Agrees D' s' t' := by
  induction hr
  case refl => exact ⟨0, t, rfl, ht, h⟩
  case step s' D' i l hr hp hl hs hi =>
    obtain ⟨n, t₁, hn, ht₁, h₁⟩ := hi
    obtain ⟨c, hc, hg, hj⟩ := hx i l hl
    obtain ⟨t', hn', ht', h'⟩ := h₁.step ht₁ (ha l <| List.mem_of_getElem? hl) hs hp hj he hc hg
    exact ⟨n + c.length, t', (steps_add hn).trans hn', ht', h'⟩

-- The run of a program on the machine that has the base instructions only.
theorem compiled_run (hc : compile sym base p = some code) (hb : base.toNat % 2 = 0) (ha : ∀ l ∈ p, Accepted l)
    (hf : CodeAt fetch base code) (hr : Run sym p (layout sym base p) s D s' D') (h : Agrees D s t)
    (ht : Loaded sym t) : ∃ n t', steps fetch n t = some t' ∧ Loaded sym t' ∧ Agrees D' s' t' :=
  hr.simulated (expanded_of_compile hc hf) (layout_even hb) ha h ht

-- A halfword is written and read back.
def sample : List (Line Nat) := [.store .sh 10 0 8, .load .lh 11 0 8]

theorem safe_low {a : Word} {n : Nat} (hs : s.reg sp = 0x80200000) (hd : D ⊆ hidden (Symbols.at 0x80100000) s)
    (ha : a.toNat + n ≤ 0x80100000) (hr : l.reads s ⊆ Memory.region a n) (hw : l.writes s ⊆ Memory.region a n) :
    Safe (Symbols.at 0x80100000) D s l := by
  have r : (Symbols.at 0x80100000).Ready (loaded 0x80100000 0x80200000) := ready_loaded (by decide)
  have f : (Symbols.at 0x80100000).ArrayFree (loaded 0x80100000 0x80200000) := arrayFree_loaded (by decide)
  have hh : Disjoint (Memory.region a n) (hidden (Symbols.at 0x80100000) s) := by
    rw [hidden, hs]
    exact Set.disjoint_union_right.mpr
      ⟨Memory.disjoint_region (ha.trans (by decide)) (by decide), Memory.disjoint_region ha (by decide)⟩
  refine ⟨hs ▸ r.free, ⟨hs ▸ f.scratch, f.rodata⟩, ?reads, hh.mono_left hw, fun o ho => ?tables⟩
  case reads => exact hh.mono hr (Set.union_subset hd le_rfl)
  case tables =>
    have h := rodata_region (by decide) o ho
    refine (Memory.disjoint_region ?_ ?_).symm.mono_right hw
    case refine_1 => exact ha.trans <| (by decide : 0x80100000 ≤ _).trans h.left
    case refine_2 => exact h.right.trans (by decide)

theorem run_sample (ht : t.pc = addr 0) (hs : t.reg sp = 0x80200000) (h8 : t.reg s0 = 8) :
    ∃ s' D', Run (Symbols.at 0x80100000) sample addr t ∅ s' D' := by
  have ha : t.addr 0 s0 = 8 := by rw [State.addr, h8]; rfl
  have h₀ : Safe (Symbols.at 0x80100000) ∅ t (.store .sh 10 0 s0) := by
    refine safe_low (a := 8) (n := 2) hs (Set.empty_subset _) (by decide) (Set.empty_subset _) ?_
    rw [Line.writes, ha]
    rfl
  let l : Line Nat := .store .sh 10 0 s0
  have h₁ : Safe (Symbols.at 0x80100000) ((∅ ∪ hidden (Symbols.at 0x80100000) t) \ l.writes t) (l.exec addr 0 t)
      (.load .lh 11 0 s0) := by
    refine safe_low (a := 8) (n := 2) hs ?_ (by decide) ?_ (Set.empty_subset _)
    case refine_1 => exact Set.sdiff_subset.trans (Set.empty_union _).subset
    case refine_2 => exact (congrArg (Memory.region · 2) ha).subset
  exact ⟨_, _, (Run.refl.step (i := 0) ht rfl h₀).step (i := 1) rfl rfl h₁⟩

theorem compiled_run_sample :
    let sym := Symbols.at 0x80100000
    let t := (loaded 0x80100000 0x80200000).jump 0x80000000
    ∃ code fetch s' D', compile sym 0x80000000 sample = some code ∧ CodeAt fetch 0x80000000 code ∧
      Run sym sample (layout sym 0x80000000 sample) t ∅ s' D' ∧
      ∃ n t', steps fetch n t = some t' ∧ Loaded sym t' ∧ Agrees D' s' t' := by
  intro sym t
  have ⟨code, hc, hl⟩ : ∃ code, compile sym 0x80000000 sample = some code ∧ _ := exists_compile (by decide)
  have ⟨fetch, hf⟩ : ∃ fetch, CodeAt fetch 0x80000000 code := exists_codeAt _ <| by
    rw [show sample.length = 2 from rfl] at hl
    omega
  have r : sym.Ready t := ready_at (show 0x80148600 + 28 ≤ (0x80200000 : Word).toNat by decide) rfl
  have ⟨s', D', hr⟩ : ∃ s' D', Run sym sample (layout sym 0x80000000 sample) t ∅ s' D' :=
    run_sample (by simp [t, layout, offset]) rfl rfl
  exact ⟨code, fetch, s', D', hc, hf, hr,
    compiled_run hc (by decide) (by decide) hf hr ⟨rfl, fun _ _ => rfl, fun _ _ => rfl⟩ r.loaded⟩

end Run

end InstReplace
