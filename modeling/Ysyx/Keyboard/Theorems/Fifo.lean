import Ysyx.Keyboard.Theorems.Receiver

-- The FIFO of the receiver keeps every code that has not been read, until it reports an overflow.

namespace Keyboard.Ps2

variable {s : Ps2} {i : Input} {is : List Input} {pushed popped : List Byte}

-- The codes `pushed` have been written and the codes `popped` have been read since the reset.
structure Queue (pushed popped : List Byte) (s : Ps2) : Prop where
  w_ptr    : s.w_ptr = BitVec.ofNat 3 pushed.length
  r_ptr    : s.r_ptr = BitVec.ofNat 3 popped.length
  ready    : s.overflow = false → (s.ready = true ↔ s.w_ptr ≠ s.r_ptr)
  contents : s.overflow = false → popped ++ s.unread = pushed

theorem queue_cleared : Queue [] [] (s.cleared i) where
  w_ptr      := rfl
  r_ptr      := rfl
  ready _    := by simp [cleared, edge]
  contents _ := by simp [cleared, edge, unread]

section Step

@[simp] theorem step_w_ptr : (s.step i).w_ptr = if (s.push? i.ps2_data).isSome then s.w_ptr + 1 else s.w_ptr := (rfl)
@[simp] theorem step_r_ptr : (s.step i).r_ptr = if s.pop i.nextdata_n then s.r_ptr + 1 else s.r_ptr := (rfl)

@[simp] theorem step_fifo : (s.step i).fifo = match s.push? i.ps2_data with
    | some code => Function.update s.fifo s.w_ptr code
    | none => s.fifo := (rfl)

@[simp] theorem step_ready : (s.step i).ready =
    if (s.push? i.ps2_data).isSome then true
    else if s.pop i.nextdata_n && s.w_ptr == s.r_ptr + 1 then false
    else s.ready := (rfl)

theorem step_overflow : (s.step i).overflow = true ↔ s.overflow = true ∨
    (s.push? i.ps2_data).isSome = true ∧ s.r_ptr = s.w_ptr + 1 := by
  cases h : s.push? i.ps2_data <;> simp [step, edge, h]

end Step

namespace Queue

-- Writing a code and reading one are independent.

theorem unread_push (hs : (s.step i).overflow = false) :
    Ring.between (s.step i).fifo s.r_ptr (s.step i).w_ptr = s.unread ++ (s.push? i.ps2_data).toList := by
  have ho := mt step_overflow.mpr (Bool.eq_false_iff.mp hs)
  cases hc : s.push? i.ps2_data
  case none => simp [hc, unread]
  case some code =>
    have hw : s.w_ptr + 1 ≠ s.r_ptr := fun h => ho <| .inr ⟨by simp [hc], h.symm⟩
    simp only [step_fifo, step_w_ptr, hc, Option.isSome_some, if_true, Option.toList_some]
    exact Ring.between_push hw

theorem step_w_ptr_ne (h : s.w_ptr ≠ s.r_ptr) (hs : (s.step i).overflow = false) :
    (s.step i).w_ptr ≠ s.r_ptr := by
  have ho := mt step_overflow.mpr (Bool.eq_false_iff.mp hs)
  rw [step_w_ptr]
  split
  case isTrue hc => exact fun he => ho <| .inr ⟨hc, he.symm⟩
  case isFalse => exact h

theorem step_fifo_r_ptr (h : s.w_ptr ≠ s.r_ptr) : (s.step i).fifo s.r_ptr = s.data := by
  rw [step_fifo, data]
  split
  case _ => exact Function.update_of_ne h.symm ..
  case _ => rfl

theorem unread_pop (h : Queue pushed popped s) (hp : s.overflow = false) (hs : (s.step i).overflow = false) :
    Ring.between (s.step i).fifo s.r_ptr (s.step i).w_ptr =
      (if s.pop i.nextdata_n then some s.data else none).toList ++ (s.step i).unread := by
  rw [unread, step_r_ptr]
  split
  case isTrue hn =>
    have hne : s.w_ptr ≠ s.r_ptr := (h.ready hp).mp (Bool.and_eq_true_iff.mp hn).left
    rw [Ring.between_pop (step_w_ptr_ne hne hs), step_fifo_r_ptr hne]
    rfl
  case isFalse => rfl

theorem ready_step (h : Queue pushed popped s) (hs : (s.step i).overflow = false) :
    (s.step i).ready = true ↔ (s.step i).w_ptr ≠ (s.step i).r_ptr := by
  have ho := mt step_overflow.mpr (Bool.eq_false_iff.mp hs)
  have hp : s.overflow = false := Bool.eq_false_iff.mpr fun h => ho <| .inl h
  have hr := h.ready hp
  rw [step_ready, step_w_ptr, step_r_ptr]
  cases hc : (s.push? i.ps2_data).isSome
  case false =>
    cases hn : s.pop i.nextdata_n
    case false => simpa [hc] using hr
    case true =>
      have := (Bool.and_eq_true_iff.mp hn).left
      by_cases he : s.w_ptr = s.r_ptr + 1
      all_goals simp_all
  case true =>
    have hw : s.w_ptr + 1 ≠ s.r_ptr := fun h => ho <| .inr ⟨hc, h.symm⟩
    cases hn : s.pop i.nextdata_n
    case false => simpa using hw
    case true =>
      have hne := hr.mp (Bool.and_eq_true_iff.mp hn).left
      simpa using hne

theorem step (h : Queue pushed popped s) : Queue (pushed ++ (s.push? i.ps2_data).toList)
    (popped ++ (if s.pop i.nextdata_n then some s.data else none).toList) (s.step i) where
  w_ptr := by
    cases hc : s.push? i.ps2_data <;> simp [hc, h.w_ptr, BitVec.ofNat_add]
  r_ptr := by
    cases hn : s.pop i.nextdata_n <;> simp [hn, h.r_ptr, BitVec.ofNat_add]
  ready := h.ready_step
  contents hs := by
    have hp : s.overflow = false := Bool.eq_false_iff.mpr fun hp => by simp [step_overflow.mpr (.inl hp)] at hs
    rw [List.append_assoc, ← h.unread_pop hp hs, unread_push hs, ← List.append_assoc, h.contents hp]

end Queue

theorem queue_run : Queue ((s.cleared i).pushed is) ((s.cleared i).popped is) ((s.cleared i).run is) := by
  rw [pushed, popped, run]
  induction is using List.reverseRecOn
  case nil => exact queue_cleared
  case append_singleton is j hi =>
    simp only [Clocked.emitted_append, Clocked.feed_append, Clocked.emitted_cons, Clocked.emitted_nil,
      List.append_nil]
    exact hi.step

-- The slots of the codes that have not been read are not written before `overflow` is set.
theorem Queue.overwritten (h : Queue pushed popped s) {j : Nat} (hl : popped.length ≤ j)
    (hj : j < pushed.length) (hw : BitVec.ofNat 3 j = s.w_ptr) : s.overflow = true := by
  by_contra ho
  have hc := congrArg List.length <| h.contents (Bool.eq_false_iff.mpr ho)
  have hu : s.unread.length < 8 := by
    rw [unread, Ring.length_between]
    exact (s.w_ptr - s.r_ptr).isLt
  rw [List.length_append] at hc
  have hm := congrArg BitVec.toNat (hw.trans h.w_ptr)
  rw [BitVec.toNat_ofNat, BitVec.toNat_ofNat] at hm
  omega

theorem overflow_run (h : s.overflow = true) : (s.run is).overflow = true :=
  Clocked.feed_invariant (P := fun _ (s : Ps2) => s.overflow = true) h fun _ _ _ hs => step_overflow.mpr (.inl hs)

-- Codes are only lost after `overflow` has been set.
theorem fifo_complete (s : Ps2) (i : Input) (is : List Input) :
    let t := (s.cleared i).run is
    (t.overflow = false →
      (s.cleared i).popped is ++ t.unread = (s.cleared i).pushed is ∧
      (t.ready = true ↔ t.unread ≠ []) ∧ ∀ code ∈ t.unread.head?, t.data = code) ∧
    (∀ j, ((s.cleared i).popped is).length ≤ j → j < ((s.cleared i).pushed is).length →
      BitVec.ofNat 3 j = t.w_ptr → t.overflow = true) ∧
    (t.overflow = true → ∀ is', (t.run is').overflow = true) := by
  have h : Queue ((s.cleared i).pushed is) ((s.cleared i).popped is) ((s.cleared i).run is) := queue_run
  refine ⟨fun ho => ⟨h.contents ho, ?ready, ?data⟩, fun _ => h.overwritten, fun ho _ => overflow_run ho⟩
  case ready => rw [h.ready ho, ne_eq, ne_eq, unread, Ring.between_eq_nil_iff]
  case data =>
    intro code hc
    by_cases he : ((s.cleared i).run is).w_ptr = ((s.cleared i).run is).r_ptr
    case pos => simp [unread, he] at hc
    case neg =>
      rw [unread, Ring.between_pop he] at hc
      exact Option.some.inj hc

-- Two codes are received, and the first one is read. Eight codes that are not read are too many.

def transmission (codes : List Byte) : List Input :=
  waves 4 <| codes.flatMap fun code => bits (send_buffer code)

example :
    let s := blank.cleared ⟨true, true, true⟩
    let is := transmission [0x1C, 0xF0] ++ [⟨true, true, false⟩, ⟨true, true, true⟩]
    s.pushed is = [0x1C, 0xF0] ∧ s.popped is = [0x1C] ∧ (s.run is).unread = [0xF0] ∧ (s.run is).overflow = false := by
  decide +kernel

example : ((blank.cleared ⟨true, true, true⟩).run <| transmission <| List.replicate 8 0x1C).overflow = true := by
  decide +kernel

end Keyboard.Ps2
