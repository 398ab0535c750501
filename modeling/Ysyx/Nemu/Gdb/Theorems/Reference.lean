import Ysyx.Nemu.Gdb.Theorems.Delivery
import Ysyx.Nemu.Gdb.Theorems.Text

-- The functions of the reference do to the machine at the other end of the connection what they stand for.

namespace Nemu.Gdb

variable {M : Type} {target : Target M} {addr dest : Word} {bytes buf : List Byte} {words dut : List Word} {m : M}
  {memory : Nat → Byte} {n : Nat} {c : Call}

section Answers

theorem answer_write : target.answer (writeCommand dest buf) =
    fun m => ([0x4f, 0x4b], target.storeBytes dest buf m) := by
  funext m
  rw [Target.answer, parse_writeCommand]

theorem answer_writeRegs (h : target.nrRegs ≤ words.length) : target.answer (setregsCommand words) =
    fun m => ([0x4f, 0x4b], target.setRegs (words.take target.nrRegs) m) := by
  funext m
  rw [Target.answer, parse_setregsCommand]
  simp only [bytesWords_wordsBytes h]

theorem answer_step : target.answer stepCommand = fun m => (target.stopped (target.step m), target.step m) := by
  funext m
  rw [Target.answer, parse_stepCommand]

end Answers

section Memory

theorem storeBytes_append {bytes' : List Byte} : target.storeBytes addr (bytes ++ bytes') m =
    target.storeBytes (addr + BitVec.ofNat 32 bytes.length) bytes' (target.storeBytes addr bytes m) := by
  induction bytes generalizing addr m
  case nil => simp [Target.storeBytes]
  case cons b bytes hi =>
    have ha : addr + 1 + BitVec.ofNat 32 bytes.length = addr + BitVec.ofNat 32 (b :: bytes).length := by
      rw [List.length_cons]
      bv_omega
    rw [List.cons_append, Target.storeBytes, Target.storeBytes, hi, ha]

theorem gdbMemcpyToQemuSmall_performs : Performs target.answer (gdbMemcpyToQemuSmall dest buf)
    (fun m => (true, target.storeBytes dest buf m)) :=
  (Performs.request <| packet_carries plain_writeCommand).bind fun m => ⟨_, .pure, by rw [answer_write]; rfl⟩

-- The chunks follow each other in memory.
theorem memcpyFrom_performs {ok : Bool} : Performs target.answer (memcpyFrom ok dest buf)
    (fun m => (ok, target.storeBytes dest buf m)) := by
  fun_induction memcpyFrom ok dest buf
  case case1 ok dest buf mtu h hi =>
    refine gdbMemcpyToQemuSmall_performs.bind fun m => ⟨_, hi true, ?_⟩
    have hl : (buf.take mtu).length = mtu := by
      rw [List.length_take]
      omega
    have hs : target.storeBytes dest (buf.take mtu ++ buf.drop mtu) m = _ := storeBytes_append
    rw [List.take_append_drop, hl] at hs
    exact Prod.ext (Bool.and_true ok) hs.symm
  case case2 ok dest buf mtu h =>
    exact gdbMemcpyToQemuSmall_performs.bind fun m => ⟨_, .pure, Prod.ext (Bool.and_true ok) rfl⟩

theorem difftestMemcpy_performs : Performs target.answer (difftestMemcpy addr buf .toRef)
    (fun m => (.unit, target.storeBytes addr buf m)) :=
  memcpyFrom_performs.bind fun _ => ⟨_, .pure, rfl⟩

end Memory

section Registers

theorem gdbGetregs_performs : Performs target.answer (gdbGetregs memory)
    (fun m => ((List.range 77).map (register memory (hexBytes (wordsBytes (target.regs m)))), m)) :=
  (Performs.request <| packet_carries (by decide : Plain [0x67])).bind fun _ => ⟨_, .pure, rfl⟩

theorem gdbSetregs_performs (h : target.nrRegs ≤ words.length) : Performs target.answer (gdbSetregs words)
    (fun m => (true, target.setRegs (words.take target.nrRegs) m)) :=
  (Performs.request <| packet_carries plain_setregsCommand).bind fun _ => ⟨_, .pure, by rw [answer_writeRegs h]; rfl⟩

theorem gdbSi_performs : Performs target.answer gdbSi (fun m => (true, target.step m)) :=
  (Performs.request <| packet_carries (by decide : Plain stepCommand)).bind fun _ =>
    ⟨_, .pure, by rw [answer_step]; rfl⟩

-- The registers that the machine has are among those that are read.
theorem take_registers (memory : Nat → Byte) (h : target.nrRegs ≤ 77) :
    ((List.range 77).map (register memory (hexBytes (wordsBytes (target.regs m))))).take target.nrRegs =
      target.regs m := by
  have hl := target.length_regs m
  refine List.ext_getElem ?_ fun i hi₁ hi₂ => ?_
  case refine_1 => simp [hl, h]
  case refine_2 => simp [register_hexBytes hi₂]

theorem difftestRegcpy_performs (h : target.nrRegs ≤ 77) (hd : dut.length ≤ target.nrRegs) {direction : Direction} :
    Performs target.answer (difftestRegcpy memory dut direction) (target.call (.regcpy memory dut direction)) := by
  have hl (m : M) := target.length_regs m
  refine gdbGetregs_performs.bind fun m => ?_
  have hr : _ = target.regs m := take_registers memory h
  generalize hw : (List.range 77).map (register memory (hexBytes (wordsBytes (target.regs m)))) = r at hr
  cases direction
  case toRef =>
    have hn : target.nrRegs ≤ (dut ++ r.drop dut.length).length := by
      rw [← hw]
      simp
      omega
    have ht : (dut ++ r.drop dut.length).take target.nrRegs = dut ++ (target.regs m).drop dut.length := by
      rw [List.take_append, List.take_of_length_le hd, ← hr, List.drop_take]
    refine ⟨_, (gdbSetregs_performs hn).bind fun _ => ⟨_, .pure, rfl⟩, ?_⟩
    exact congrArg (fun r => (dut, target.setRegs r m)) ht
  case toDut =>
    have ht : r.take dut.length = (target.regs m).take dut.length := by
      rw [← hr, List.take_take, Nat.min_eq_left hd]
    exact ⟨_, .pure, congrArg (·, m) ht⟩

theorem difftestExec_performs : Performs target.answer (difftestExec n) (fun m => (.unit, target.step^[n] m)) := by
  induction n
  case zero      => exact .pure
  case succ n hi => exact gdbSi_performs.bind fun _ => ⟨_, hi, rfl⟩

end Registers

section Calls

theorem call_performs (h : target.nrRegs ≤ 77) (hc : target.Takes c) :
    Performs target.answer c.run (target.call c) := by
  cases c
  case memcpy addr buf => exact difftestMemcpy_performs.bind fun _ => ⟨_, .pure, rfl⟩
  case regcpy          => exact difftestRegcpy_performs h hc
  case exec n          => exact difftestExec_performs.bind fun _ => ⟨_, .pure, rfl⟩

-- Any number of calls, over a link that damages any packets.
theorem calls_performed (h : target.nrRegs ≤ 77) {calls : List Call} (hc : ∀ c ∈ calls, target.Takes c)
    (noise : Nat → Noise) (m : M) : ∃ j input output,
      Session target.answer noise 0 m input output j (calls.mapM target.call m).2 ∧
      ∀ rest out, calls.mapM Call.run ⟨input ++ rest, out, true⟩ =
        .ok (calls.mapM target.call m).1 ⟨rest, out ++ output, true⟩ :=
  Performs.mapM (fun c hm => call_performs h (hc c hm)) noise 0 m

-- A machine with a counter and a word of memory. The first copy of each command and of each reply is damaged.
theorem calls_performed_counter :
    let target : Target (Word × Byte) := ⟨1, fun m => [m.1], fun r m => (r.headD 0, m.2), fun _ b m => (m.1, b),
      fun m => (m.1 + 1, m.2), fun _ => [], fun _ => rfl⟩
    let noise : Noise := ⟨[0x2d], [[0x24, 0x4f, 0x23, 0x30, 0x30]], fun data => packet (escape data), by decide,
      fun _ hp => List.mem_singleton.mp hp ▸ (.mk (by decide) (by decide) (by decide) : Damaged (0x24 :: [0x4f] ++ _)),
      fun _ => packet_escape_carries⟩
    ∃ j input output, Session target.answer (fun _ => noise) 0 (0, 0) input output j (8, 7) ∧
      ∀ rest out, [.memcpy 0x80000000 [7], .regcpy 0 [5] .toRef, .exec 3, .regcpy 0 [0] .toDut].mapM Call.run
        ⟨input ++ rest, out, true⟩ = .ok [[], [5], [], [8]] ⟨rest, out ++ output, true⟩ := by
  intro target noise
  have hc : ∀ c ∈ [.memcpy 0x80000000 [7], .regcpy 0 [5] .toRef, .exec 3, .regcpy 0 [0] .toDut], target.Takes c := by
    simp [Target.Takes, target]
  have h := calls_performed (by decide) hc (fun _ => noise) (0, 0)
  have he : [Call.memcpy 0x80000000 [7], .regcpy 0 [5] .toRef, .exec 3, .regcpy 0 [0] .toDut].mapM target.call (0, 0) =
      ([[], [5], [], [8]], (8, 7)) := rfl
  rw [he] at h
  exact h

end Calls

end Nemu.Gdb
