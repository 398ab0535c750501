import Ysyx.Nemu.Gdb.Stub
import Ysyx.Nemu.Gdb.Theorems.Packet
import Ysyx.Monads.EState

-- A command is delivered and its reply is received, whatever packets are damaged on the way.

namespace Nemu.Gdb

variable {command data frame nacks input out rest : List Byte} {damaged : List (List Byte)}

section Packets

theorem sendFrom_eq (h : 0x2b ∉ nacks) {conn : Conn} : sendFrom command (nacks ++ 0x2b :: rest) conn = .ok .unit
    ⟨rest, conn.output ++ (List.replicate nacks.length (packet command)).flatten, conn.ack⟩ := by
  induction nacks generalizing conn
  case nil => simp [sendFrom]
  case cons c nacks hi =>
    have ⟨hc, hn⟩ : 0x2b ≠ c ∧ 0x2b ∉ nacks := by simpa using h
    rw [List.cons_append, sendFrom, if_neg (Ne.symm hc), hi hn]
    simp [Conn.write, List.replicate_succ]

theorem gdbSend_eq (h : 0x2b ∉ nacks) : gdbSend command ⟨nacks ++ 0x2b :: rest, out, true⟩ = .ok .unit
    ⟨rest, out ++ (List.replicate (nacks.length + 1) (packet command)).flatten, true⟩ := by
  rw [gdbSend, if_pos (by rfl)]
  simp only [Conn.write]
  rw [sendFrom_eq h]
  simp [List.replicate_succ]

theorem gdbRecv_accept (h : recvPacket input = .ok ⟨data, true, rest⟩) :
    gdbRecv ⟨input, out, true⟩ = .ok data ⟨rest, out ++ [0x2b], true⟩ := by
  rw [gdbRecv, recvLoop]
  split
  case h_1 he => cases he.symm.trans h
  case h_2 v hv =>
    cases hv.symm.trans h
    rfl

theorem gdbRecv_retry (h : recvPacket input = .ok ⟨data, false, rest⟩) :
    gdbRecv ⟨input, out, true⟩ = gdbRecv ⟨rest, out ++ [0x2d], true⟩ := by
  rw [gdbRecv, recvLoop]
  split
  case h_1 he => cases he.symm.trans h
  case h_2 v hv =>
    cases hv.symm.trans h
    rfl

theorem gdbRecv_eq (hd : ∀ p ∈ damaged, Damaged p) (hc : Carries data frame) :
    gdbRecv ⟨damaged.flatten ++ (frame ++ rest), out, true⟩ =
      .ok data ⟨rest, out ++ (List.replicate damaged.length 0x2d ++ [0x2b]), true⟩ := by
  induction damaged generalizing out
  case nil => exact gdbRecv_accept <| recvPacket_carries hc rest
  case cons p damaged hi =>
    have ⟨_, hr⟩ := recvPacket_damaged (hd p List.mem_cons_self) (damaged.flatten ++ (frame ++ rest))
    rw [List.flatten_cons, List.append_assoc, gdbRecv_retry hr, hi fun p hp => hd p <| List.mem_cons_of_mem _ hp]
    simp [List.replicate_succ]

theorem request_eq (noise : Noise) (command data : List Byte) :
    request command ⟨noise.input data ++ rest, out, true⟩ = .ok data ⟨rest, out ++ noise.output command, true⟩ := by
  have hi : noise.input data ++ rest =
      noise.nacks ++ 0x2b :: (noise.damaged.flatten ++ (noise.encode data ++ rest)) := by
    simp [Noise.input]
  rw [request, hi, EState.bind_of_ok (gdbSend_eq noise.not_ack), gdbRecv_eq noise.isDamaged (noise.carries data)]
  simp [Noise.output]

end Packets

section Sessions

variable {M α β : Type} {answer : List Byte → StateM M (List Byte)} {noise : Nat → Noise} {i j k : Nat} {m m₁ m₂ : M}
  {input₁ input₂ output₁ output₂ : List Byte}

theorem Session.trans (h₁ : Session answer noise i m input₁ output₁ j m₁)
    (h₂ : Session answer noise j m₁ input₂ output₂ k m₂) :
    Session answer noise i m (input₁ ++ input₂) (output₁ ++ output₂) k m₂ := by
  induction h₁
  case nil => exact h₂
  case cons command hc _ hi =>
    rw [List.append_assoc, List.append_assoc]
    exact .cons command hc (hi h₂)

-- Over any link the program does what `f` does to the machine itself. It reads what the machine writes, and the machine
-- reads what it writes.
def Performs (answer : List Byte → StateM M (List Byte)) (x : EStateM Fault Conn α) (f : StateM M α) : Prop :=
  ∀ (noise : Nat → Noise) i m, ∃ j input output, Session answer noise i m input output j (f m).2 ∧
    ∀ rest out, x ⟨input ++ rest, out, true⟩ = .ok (f m).1 ⟨rest, out ++ output, true⟩

namespace Performs

theorem pure {a : α} : Performs answer (pure a) (pure a) := fun _ i _ =>
  ⟨i, [], [], .nil, fun _ out => by rw [List.nil_append, List.append_nil]; rfl⟩

theorem bind {x : EStateM Fault Conn α} {f : StateM M α} {y : α → EStateM Fault Conn β} {h : StateM M β}
    (hx : Performs answer x f) (hy : ∀ m, ∃ g, Performs answer (y (f m).1) g ∧ g (f m).2 = h m) :
    Performs answer (x >>= y) h := by
  intro noise i m
  have ⟨g, hy, hg⟩ := hy m
  have ⟨j, input₁, output₁, hs₁, he₁⟩ := hx noise i m
  have ⟨k, input₂, output₂, hs₂, he₂⟩ := hy noise j (f m).2
  rw [hg] at hs₂ he₂
  refine ⟨k, _, _, hs₁.trans hs₂, fun rest out => ?_⟩
  rw [List.append_assoc, EState.bind_of_ok (he₁ _ out), he₂, List.append_assoc]

theorem request (h : Carries command (packet command)) : Performs answer (request command) (answer command) := by
  intro noise i m
  refine ⟨i + 1, _, _, .cons command h .nil, fun rest out => ?_⟩
  rw [List.append_nil, List.append_nil, request_eq]

theorem mapM {γ : Type} {x : γ → EStateM Fault Conn α} {f : γ → StateM M α} {l : List γ}
    (h : ∀ c ∈ l, Performs answer (x c) (f c)) : Performs answer (l.mapM x) (l.mapM f) := by
  induction l
  case nil => exact pure
  case cons c l hi =>
    rw [List.mapM_cons, List.mapM_cons]
    have hl := hi fun c hc => h c <| List.mem_cons_of_mem _ hc
    exact bind (h c List.mem_cons_self) fun _ => ⟨_, bind hl fun _ => ⟨_, pure, rfl⟩, rfl⟩

end Performs

end Sessions

end Nemu.Gdb
