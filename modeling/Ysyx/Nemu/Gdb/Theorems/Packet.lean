import Mathlib.Data.List.TakeWhile
import Ysyx.Nemu.Gdb.Wire

-- What `recv_packet` makes of a stream.

open Fallible

namespace Nemu.Gdb

variable {r r' : Reply} {c c₂ m l last : Byte} {command data wire text pre input rest : List Byte} {v : Received}

section Checksum

theorem checksum_from (a : Byte) : text.foldl (· + ·) a = a + checksum text := by
  induction text generalizing a
  case nil => simp [checksum]
  case cons c text hi => rw [checksum, List.foldl_cons, List.foldl_cons, hi, hi (0 + c)]; bv_omega

@[simp] theorem checksum_nil : checksum [] = 0 := (rfl)

@[simp] theorem checksum_cons : checksum (c :: text) = c + checksum text := by
  rw [checksum, List.foldl_cons, checksum_from, show (0 : Byte) + c = c from BitVec.zero_add c]

@[simp] theorem checksum_append : checksum (text ++ wire) = checksum text + checksum wire := by
  rw [checksum, List.foldl_append, checksum_from]
  rfl

end Checksum

section Buffer

namespace Reply

-- The buffer can take as much as one step adds, once it is doubled.
structure Fits (r : Reply) : Prop where
  large  : 4096 ≤ r.size
  within : r.reply.length ≤ r.size

theorem start_fits : start.Fits where
  large  := Nat.le_refl _
  within := Nat.zero_le _

theorem Fits.restart (h : r.Fits) : r.restart.Fits where
  large  := h.large
  within := Nat.zero_le _

-- Only the buffer matters.
theorem Fits.of_reply (h : r.Fits) (hr : r'.reply = r.reply) (hs : r'.size = r.size) : r'.Fits where
  large  := hs ▸ h.large
  within := hr ▸ hs ▸ h.within

theorem count_le (h : countable c₂ = true) : (c₂ - 29).toNat ≤ 97 := by
  simp only [countable, Bool.not_eq_true', Bool.or_eq_false_iff, decide_eq_false_iff_not] at h
  bv_omega

theorem store_eq (h : r.reply.length + data.length ≤ r.size) :
    r.store data = .ok { r with reply := r.reply ++ data } :=
  if_pos h

theorem Fits.add (h : r.Fits) (c : Byte) : ∃ r', r'.Fits ∧
    r'.reply = r.reply ++ [if r.escape then c ^^^ 0x20 else c] ∧ r'.sum = r.sum ∧ r'.escape = false ∧
    r.add c = .ok r' := by
  have ⟨hl, hw⟩ := h
  have ⟨size, hs, hw', he⟩ : ∃ size, 4096 ≤ size ∧ r.reply.length + 1 ≤ size ∧
      r.add c = store [if r.escape then c ^^^ 0x20 else c] { r with size, escape := false } := by
    by_cases he : r.reply.length = r.size
    case pos => exact ⟨2 * r.size, by omega, by omega, by simp only [Reply.add, if_pos he]⟩
    case neg => exact ⟨r.size, hl, by omega, by simp only [Reply.add, if_neg he]⟩
  refine ⟨_, ?_, ?_, ?_, ?_, he.trans <| store_eq hw'⟩
  case refine_1 => exact ⟨hs, by simpa using hw'⟩
  all_goals rfl

theorem Fits.more (h : r.Fits) (hc : countable c₂ = true) (last : Byte) : ∃ r', r'.Fits ∧
    r'.reply = r.reply ++ List.replicate (c₂ - 29).toNat last ∧ r'.sum = r.sum + c₂ ∧ r'.escape = r.escape ∧
    r.more last c₂ = .ok r' := by
  have ⟨hl, hw⟩ := h
  have hb := count_le hc
  have ⟨size, hs, hw', he⟩ : ∃ size, 4096 ≤ size ∧ r.reply.length + (c₂ - 29).toNat ≤ size ∧
      r.more last c₂ = store (List.replicate (c₂ - 29).toNat last) { r with size, sum := r.sum + c₂ } := by
    by_cases he : r.reply.length + (c₂ - 29).toNat > r.size
    case pos => exact ⟨2 * r.size, by omega, by omega, by simp only [Reply.more, if_pos he]⟩
    case neg => exact ⟨r.size, hl, by omega, by simp only [Reply.more, if_neg he]⟩
  refine ⟨_, ?_, ?_, ?_, ?_, he.trans <| store_eq <| by simpa using hw'⟩
  case refine_1 => exact ⟨hs, by simpa using hw'⟩
  all_goals rfl

theorem Fits.terminate (h : r.Fits) : r.terminate = .ok r.reply := by
  have ⟨hl, hw⟩ := h
  by_cases he : r.reply.length = r.size
  case pos =>
    simp only [Reply.terminate, if_pos he]
    exact if_pos (by omega)
  case neg =>
    simp only [Reply.terminate, if_neg he]
    exact if_pos (by omega)

end Reply

theorem finish_eq (h : r.Fits) {sum : Byte} : finish sum r input =
    .ok ⟨r.reply, sum.setWidth 16 == gdbDecodeHex (input.headD 0xff) (input.tail.headD 0xff), input.tail.tail⟩ :=
  bind_of_ok h.terminate

end Buffer

section Streams

theorem recvFrom_restart : recvFrom r (0x24 :: input) = recvFrom r.restart input := by
  rw [recvFrom.eq_def]
  rfl

theorem recvFrom_escape : recvFrom r (0x7d :: input) =
    recvFrom { r with sum := r.sum + 0x7d, escape := true } input := by
  rw [recvFrom.eq_def]
  rfl

theorem recvFrom_finish (h : r.Fits) : recvFrom r (0x23 :: input) =
    .ok ⟨r.reply, r.sum.setWidth 16 == gdbDecodeHex (input.headD 0xff) (input.tail.headD 0xff), input.tail.tail⟩ := by
  have hs : r.sum + 0x23 - 0x23 = r.sum := by bv_omega
  have hf : Reply.Fits { r with sum := r.sum + 0x23 } := h.of_reply rfl rfl
  have hr : recvFrom r (0x23 :: input) = finish (r.sum + 0x23 - 0x23) { r with sum := r.sum + 0x23 } input := by
    rw [recvFrom.eq_def]
    rfl
  rw [hr, hs, finish_eq hf]

theorem recvFrom_plain (h : ¬Special c) : recvFrom r (c :: input) =
    ({ r with sum := r.sum + c } : Reply).add c >>= fun r => recvFrom r input := by
  simp only [Special, not_or] at h
  have ⟨h₁, h₂, h₃, h₄⟩ := h
  rw [recvFrom.eq_def]
  simp only [if_neg h₁, if_neg h₂, if_neg h₃, if_neg h₄]

theorem recvFrom_run (hl : r.reply.getLast? = some last) (hc : Reply.countable c₂ = true) :
    recvFrom r (0x2a :: c₂ :: input) =
      ({ r with sum := r.sum + 0x2a } : Reply).more last c₂ >>= fun r => recvFrom r input := by
  rw [recvFrom.eq_def]
  simp [hl, hc]

-- A star is a character of its own at the start, and where no count follows.
theorem recvFrom_star (h : r.reply.getLast? = none ∨ ∀ c₂ ∈ input.head?, Reply.countable c₂ = false) :
    recvFrom r (0x2a :: input) = ({ r with sum := r.sum + 0x2a } : Reply).add 0x2a >>= fun r => recvFrom r input := by
  rw [recvFrom.eq_def]
  cases hl : r.reply.getLast?
  case none => simp [hl]
  case some last =>
    rw [hl] at h
    cases input
    case nil           => simp [hl]
    case cons c₂ input => simp [hl, h.resolve_left (Option.some_ne_none last) c₂ rfl]

-- A character is consumed, and the count behind it if there is one.
theorem recvFrom_step (hf : r.Fits) (hc : c ≠ 0x23) (input : List Byte) : ∃ r' count rest, r'.Fits ∧
    input = count ++ rest ∧ (∀ c₂ ∈ count, Reply.countable c₂ = true) ∧
    (c ≠ 0x24 → r'.sum = r.sum + checksum (c :: count)) ∧ recvFrom r (c :: input) = recvFrom r' rest := by
  have hf' : Reply.Fits { r with sum := r.sum + c } := hf.of_reply rfl rfl
  have ⟨r₁, hf₁, _, hs₁, _, he₁⟩ := hf'.add c
  by_cases hp : Special c
  case neg => exact ⟨r₁, [], input, hf₁, rfl, by simp, by simp [hs₁], by rw [recvFrom_plain hp, bind_of_ok he₁]⟩
  case pos =>
    obtain rfl | rfl | rfl | rfl := hp
    case inl         => exact ⟨_, [], input, hf.restart, rfl, by simp, by simp, recvFrom_restart⟩
    case inr.inl     => exact absurd rfl hc
    case inr.inr.inl =>
      refine ⟨_, [], input, ?_, rfl, by simp, ?_, recvFrom_escape⟩
      case refine_1 => exact hf.of_reply rfl rfl
      case refine_2 => simp
    case inr.inr.inr =>
      by_cases hs : r.reply.getLast? = none ∨ ∀ c₂ ∈ input.head?, Reply.countable c₂ = false
      case pos => exact ⟨r₁, [], input, hf₁, rfl, by simp, by simp [hs₁], by rw [recvFrom_star hs, bind_of_ok he₁]⟩
      case neg =>
        simp only [not_or, not_forall, Bool.not_eq_false] at hs
        have ⟨hl, c₂, hm, hc₂⟩ := hs
        have ⟨last, hl⟩ := Option.ne_none_iff_exists'.mp hl
        obtain ⟨rest, rfl⟩ : ∃ rest, input = c₂ :: rest := by
          cases input
          case nil       => cases hm
          case cons _ rest => cases hm; exact ⟨rest, rfl⟩
        have ⟨r₂, hf₂, _, hs₂, _, he₂⟩ := hf'.more hc₂ last
        refine ⟨r₂, [c₂], rest, hf₂, rfl, by simpa using hc₂, ?_, by rw [recvFrom_run hl hc₂, bind_of_ok he₂]⟩
        simp [hs₂, BitVec.add_assoc]

-- The character behind the text is no count.
theorem split_of_not_countable {count rest' : List Byte} (hl : Reply.countable l = false)
    (h : text ++ l :: rest = count ++ rest') (hc : ∀ c₂ ∈ count, Reply.countable c₂ = true) :
    ∃ text', text = count ++ text' ∧ rest' = text' ++ l :: rest := by
  obtain ⟨a, hcount, ha⟩ | h := List.append_eq_append_iff.mp h
  case inr => exact h
  case inl =>
    cases a
    case nil => exact ⟨[], by simpa using hcount.symm, ha.symm⟩
    case cons c₂ a =>
      have hc := hc c₂ (hcount ▸ List.mem_append_right text List.mem_cons_self)
      cases ha
      rw [hl] at hc
      cases hc

-- What comes before an end of a packet or a new packet is read completely.
theorem recvFrom_body (rest : List Byte) (hf : r.Fits) (ht : Reply.countable l = false) (hb : 0x23 ∉ text) :
    ∃ r', r'.Fits ∧ (0x24 ∉ text → r'.sum = r.sum + checksum text) ∧
      recvFrom r (text ++ l :: rest) = recvFrom r' (l :: rest) := by
  induction hn : text.length using Nat.strong_induction_on generalizing text r
  case h n hi =>
    cases text
    case nil => exact ⟨r, hf, by simp, rfl⟩
    case cons c text =>
      have ⟨r₁, count, rest', hf₁, hs, hc, hs₁, he₁⟩ :=
        recvFrom_step hf (fun h => hb (h ▸ List.mem_cons_self)) (text ++ l :: rest)
      have ⟨text', ht', hr⟩ := split_of_not_countable ht hs hc
      rw [ht'] at hb hn
      have hb' : 0x23 ∉ text' := fun h => hb <| List.mem_cons_of_mem c <| List.mem_append_right count h
      have hl : text'.length < n := by
        rw [← hn]
        simp only [List.length_cons, List.length_append]
        omega
      have ⟨r₂, hf₂, hs₂, he₂⟩ := hi text'.length hl hf₁ hb' rfl
      refine ⟨r₂, hf₂, fun h => ?_, ?_⟩
      case refine_1 =>
        rw [ht'] at h
        have h' : 0x24 ∉ text' := fun hm => h <| List.mem_cons_of_mem c <| List.mem_append_right count hm
        rw [hs₂ h', hs₁ fun hc => h (hc ▸ List.mem_cons_self), ht', ← List.cons_append, checksum_append,
          BitVec.add_assoc]
      case refine_2 => rw [List.cons_append, he₁, hr, he₂]

theorem recvFrom_encodes (he : Encodes data wire) (hf : r.Fits) (hr : r.reply = []) (hx : r.escape = false)
    (rest : List Byte) : ∃ r', r'.Fits ∧ r'.reply = data ∧ r'.sum = r.sum + checksum wire ∧ r'.escape = false ∧
      recvFrom r (wire ++ rest) = recvFrom r' rest := by
  induction he generalizing rest
  case nil => exact ⟨r, hf, hr, by simp, hx, rfl⟩
  case plain data wire c _ hc hi =>
    have ⟨r₁, hf₁, hd₁, hs₁, hx₁, he₁⟩ := hi (c :: rest)
    have hf' : Reply.Fits { r₁ with sum := r₁.sum + c } := hf₁.of_reply rfl rfl
    have ⟨r₂, hf₂, hd₂, hs₂, hx₂, he₂⟩ := hf'.add c
    refine ⟨r₂, hf₂, ?_, ?_, hx₂, ?_⟩
    case refine_1 => rw [hd₂, hd₁, hx₁]; rfl
    case refine_2 => rw [hs₂, hs₁]; simp [BitVec.add_assoc]
    case refine_3 => rw [List.append_assoc, List.singleton_append, he₁, recvFrom_plain hc, bind_of_ok he₂]
  case escaped data wire c _ hc hi =>
    have ⟨r₁, hf₁, hd₁, hs₁, hx₁, he₁⟩ := hi (0x7d :: (c ^^^ 0x20) :: rest)
    have hf' : Reply.Fits ⟨r₁.reply, r₁.size, r₁.sum + 0x7d + (c ^^^ 0x20), true⟩ := hf₁.of_reply rfl rfl
    have ⟨r₂, hf₂, hd₂, hs₂, hx₂, he₂⟩ := hf'.add (c ^^^ 0x20)
    refine ⟨r₂, hf₂, ?_, ?_, hx₂, ?_⟩
    case refine_1 => rw [hd₂, hd₁, if_pos rfl, BitVec.xor_assoc, BitVec.xor_self, BitVec.xor_zero]
    case refine_2 => rw [hs₂, hs₁]; simp [BitVec.add_assoc]
    case refine_3 =>
      rw [List.append_assoc, List.cons_append, List.singleton_append, he₁, recvFrom_escape, recvFrom_plain hc,
        bind_of_ok he₂]
  case run data wire c n _ hl hn hi =>
    have ⟨r₁, hf₁, hd₁, hs₁, hx₁, he₁⟩ := hi (0x2a :: n :: rest)
    have hf' : Reply.Fits { r₁ with sum := r₁.sum + 0x2a } := hf₁.of_reply rfl rfl
    have ⟨r₂, hf₂, hd₂, hs₂, hx₂, he₂⟩ := hf'.more hn c
    refine ⟨r₂, hf₂, ?_, ?_, hx₂.trans hx₁, ?_⟩
    case refine_1 => rw [hd₂, hd₁]
    case refine_2 => rw [hs₂, hs₁]; simp [BitVec.add_assoc]
    case refine_3 =>
      rw [List.append_assoc, List.cons_append, List.singleton_append, he₁, recvFrom_run (hd₁ ▸ hl) hn, bind_of_ok he₂]

end Streams

section Packets

-- What comes before a packet is skipped, with the beginnings of other packets.
theorem recvPacket_skip (hp : 0x23 ∉ pre.dropWhile (· ≠ 0x24)) (rest : List Byte) : ∃ r, r.Fits ∧ r.reply = [] ∧
    r.sum = 0 ∧ r.escape = false ∧ recvPacket (pre ++ 0x24 :: rest) = recvFrom r rest := by
  have hd : (pre ++ 0x24 :: rest).dropWhile (· ≠ 0x24) = pre.dropWhile (· ≠ 0x24) ++ 0x24 :: rest := by
    rw [List.dropWhile_append]
    split
    case isTrue h  => rw [List.isEmpty_iff.mp h, List.nil_append]; exact List.dropWhile_cons_of_neg (by decide)
    case isFalse h => rfl
  cases hs : pre.dropWhile (· ≠ 0x24)
  case nil =>
    refine ⟨.start, Reply.start_fits, rfl, rfl, rfl, ?_⟩
    rw [recvPacket, hd, hs]
    rfl
  case cons c text =>
    rw [hs] at hp
    have ⟨r, hf, _, he⟩ := recvFrom_body rest Reply.start_fits (by decide : Reply.countable 0x24 = false)
      fun h => hp <| List.mem_cons_of_mem c h
    refine ⟨r.restart, hf.restart, rfl, rfl, rfl, ?_⟩
    rw [recvPacket, hd, hs, List.cons_append, List.tail_cons, he, recvFrom_restart]

-- Any encoding is decoded, and the checksum is compared.
theorem recvPacket_wire (hp : 0x23 ∉ pre.dropWhile (· ≠ 0x24)) (he : Encodes data wire) (tail : List Byte) :
    recvPacket (pre ++ 0x24 :: (wire ++ 0x23 :: tail)) = .ok
      ⟨data, (checksum wire).setWidth 16 == gdbDecodeHex (tail.headD 0xff) (tail.tail.headD 0xff), tail.tail.tail⟩ := by
  have ⟨r₁, hf₁, hr₁, hs₁, hx₁, he₁⟩ := recvPacket_skip hp (wire ++ 0x23 :: tail)
  have ⟨r₂, hf₂, hr₂, hs₂, _, he₂⟩ := recvFrom_encodes he hf₁ hr₁ hx₁ (0x23 :: tail)
  rw [he₁, he₂, recvFrom_finish hf₂, hr₂, hs₂, hs₁]
  simp

theorem recvPacket_text (hp : 0x23 ∉ pre.dropWhile (· ≠ 0x24)) (hd : 0x24 ∉ text) (hn : 0x23 ∉ text)
    (tail : List Byte) : ∃ reply, recvPacket (pre ++ 0x24 :: (text ++ 0x23 :: tail)) = .ok ⟨reply,
      (checksum text).setWidth 16 == gdbDecodeHex (tail.headD 0xff) (tail.tail.headD 0xff), tail.tail.tail⟩ := by
  have ⟨r₁, hf₁, hr₁, hs₁, hx₁, he₁⟩ := recvPacket_skip hp (text ++ 0x23 :: tail)
  have ⟨r₂, hf₂, hs₂, he₂⟩ := recvFrom_body tail hf₁ (by decide : Reply.countable 0x23 = false) hn
  refine ⟨r₂.reply, ?_⟩
  rw [he₁, he₂, recvFrom_finish hf₂, hs₂ hd, hs₁]
  simp

theorem not_mem_skip_nil : (0x23 : Byte) ∉ ([] : List Byte).dropWhile (· ≠ 0x24) :=
  List.not_mem_nil

theorem recvPacket_carries (hc : Carries data text) (rest : List Byte) :
    recvPacket (text ++ rest) = .ok ⟨data, true, rest⟩ := by
  cases hc
  case mk wire msb lsb he hs =>
    have h := recvPacket_wire not_mem_skip_nil he (msb :: lsb :: rest)
    simpa [hs] using h

theorem recvPacket_damaged (hd : Damaged text) (rest : List Byte) :
    ∃ reply, recvPacket (text ++ rest) = .ok ⟨reply, false, rest⟩ := by
  cases hd
  case mk text msb lsb hd hn hs =>
    have ⟨reply, h⟩ := recvPacket_text not_mem_skip_nil hd hn (msb :: lsb :: rest)
    exact ⟨reply, by simpa [beq_false_of_ne hs] using h⟩

theorem decode_upperHex : ∀ b : Byte, b.setWidth 16 = gdbDecodeHex (upperHex (b >>> 4)) (upperHex (b &&& 0xf)) := by
  decide

theorem Encodes.of_plain (h : ∀ c ∈ command, ¬Special c) : Encodes command command := by
  induction command using List.reverseRecOn
  case nil => exact .nil
  case append_singleton command c hi =>
    exact .plain (hi fun c hc => h c <| List.mem_append_left _ hc) <| h c <| List.mem_append_right _ <| .head _

theorem not_special_xor : ∀ c : Byte, Special c → ¬Special (c ^^^ 0x20) := by
  decide

theorem encodes_escape : Encodes data (escape data) := by
  induction data using List.reverseRecOn
  case nil => exact .nil
  case append_singleton data c hi =>
    rw [escape, List.flatMap_append, List.flatMap_singleton]
    by_cases hc : Special c
    case pos => rw [if_pos hc]; exact .escaped hi (not_special_xor c hc)
    case neg => rw [if_neg hc]; exact .plain hi hc

-- A packet with the special characters of its data escaped.
theorem packet_escape_carries : Carries data (packet (escape data)) :=
  .mk encodes_escape (decode_upperHex _)

theorem packet_carries (h : ∀ c ∈ command, ¬Special c) : Carries command (packet command) :=
  .mk (.of_plain h) (decode_upperHex _)

-- Without the end of a packet there is no reply.
theorem recvFrom_closed (hf : r.Fits) (h : 0x23 ∉ input) : recvFrom r input = .error .closed := by
  induction hn : input.length using Nat.strong_induction_on generalizing input r
  case h n hi =>
    cases input
    case nil => rfl
    case cons c input =>
      have ⟨r', count, rest, hf', hs, _, _, he⟩ := recvFrom_step hf (fun hc => h (hc ▸ List.mem_cons_self)) input
      rw [he]
      refine hi rest.length ?_ hf' (fun hm => h ?_) rfl
      case refine_1 =>
        rw [← hn, hs, List.length_cons, List.length_append]
        omega
      case refine_2 => exact List.mem_cons_of_mem c (hs ▸ List.mem_append_right count hm)

theorem last_of_mem {a : Byte} (h : a ∈ text) : ∃ s t, text = s ++ a :: t ∧ a ∉ t := by
  have ⟨s, t, hs, ht⟩ := List.eq_append_cons_of_mem (List.mem_reverse.mpr h)
  exact ⟨t.reverse, s.reverse, by simpa using congrArg List.reverse hs, by simpa using ht⟩

-- Of any input, the packet that ends first is received. Another one may have begun before it.
theorem recvPacket_received (input : List Byte) :
    (0x23 ∉ input.dropWhile (· ≠ 0x24) ∧ recvPacket input = .error .closed) ∨
    ∃ pre text tail reply, input = pre ++ 0x24 :: (text ++ 0x23 :: tail) ∧
      0x23 ∉ pre.dropWhile (· ≠ 0x24) ∧ 0x24 ∉ text ∧ 0x23 ∉ text ∧ (∀ data, Encodes data text → reply = data) ∧
      recvPacket input = .ok ⟨reply,
        (checksum text).setWidth 16 == gdbDecodeHex (tail.headD 0xff) (tail.tail.headD 0xff), tail.tail.tail⟩ := by
  by_cases h : 0x23 ∈ input.dropWhile (· ≠ 0x24)
  case neg =>
    refine .inl ⟨h, recvFrom_closed Reply.start_fits fun hm => h <| List.mem_of_mem_tail hm⟩
  case pos =>
    have ⟨q, tail, hq, hn⟩ := List.eq_append_cons_of_mem h
    have hd : 0x24 ∈ q := by
      have hh := List.head?_dropWhile_not (· ≠ (0x24 : Byte)) input
      rw [hq] at hh
      cases q
      case nil      => simp at hh
      case cons c q =>
        have hc : c = 0x24 := by simpa using hh
        exact hc ▸ List.mem_cons_self
    have ⟨s, text, hs, ht⟩ := last_of_mem hd
    have hi : input = (input.takeWhile (· ≠ 0x24) ++ s) ++ 0x24 :: (text ++ 0x23 :: tail) := by
      conv_lhs => rw [← List.takeWhile_append_dropWhile (p := (· ≠ (0x24 : Byte))) (l := input), hq, hs]
      simp
    have hp : 0x23 ∉ (input.takeWhile (· ≠ 0x24) ++ s).dropWhile (· ≠ 0x24) := by
      rw [List.dropWhile_append_of_pos fun c => List.mem_takeWhile_imp (p := (· ≠ (0x24 : Byte)))]
      exact fun hm => hn <| hs ▸ List.mem_append_left _ ((List.dropWhile_sublist _).subset hm)
    have hx : 0x23 ∉ text := fun hm => hn <| hs ▸ List.mem_append_right _ (List.mem_cons_of_mem _ hm)
    have ⟨reply, hr⟩ := recvPacket_text hp ht hx tail
    refine .inr ⟨_, text, tail, reply, hi, hp, ht, hx, fun data he => ?_, by rw [← hr, ← hi]⟩
    rw [recvPacket_wire hp he] at hr
    cases hr
    rfl

end Packets

end Nemu.Gdb
