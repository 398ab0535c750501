import Ysyx.Nvboard.Uart
import Ysyx.Hardware.Clocked

namespace Nvboard.Uart

open Clocked (feed)

-- How sender and receiver stand to each other between two ticks, and the bytes that are on their way. The receiver
-- sees a level one tick after the sender has set it.
inductive Linked (u : Uart) : List Byte → Prop
  | quiet : u.rxState = 0 → u.txState = 0 → u.rx = 1 → (u.isRxIdle = true → u.rxSendingStr = []) → Linked u []
  | start {c : Byte} : u.rxState = 1 → u.txState = 0 → u.rx = 0 → u.rxData = c → u.isRxIdle = false → Linked u [c]
  | data {c : Byte} {k : Nat} : k < 8 → u.rxState = k + 2 → u.txState = k + 1 → u.rx = (c >>> k) &&& 1 →
    u.rxData = c >>> (k + 1) → u.txData = c <<< (8 - k) → u.isRxIdle = false → Linked u [c]
  | stop {c : Byte} : u.rxState = 0 → u.txState = 9 → u.rx = 1 → u.txData = c → u.isRxIdle = false → Linked u [c]

variable {u : Uart} {l : List Byte}

theorem shift_in : ∀ k : Nat, k < 8 → ∀ c : Byte,
    (((c >>> k) &&& 1#8) <<< 7) ||| ((c <<< (8 - k)) >>> 1) = c <<< (7 - k) := by
  decide +kernel

-- The ticks that are still needed until the sender is idle.
def left (u : Uart) : Nat :=
  10 * u.rxSendingStr.length + (if u.rxState = 0 then 0 else 10 - u.rxState) + if u.isRxIdle then 0 else 1

-- What a tick does to the bytes that have been fed, are on their way or wait: they stay the same.
structure Moved (u : Uart) (l : List Byte) (u' : Uart) : Prop where
  linked : ∃ l', Linked u' l' ∧ u'.fed ++ l' ++ u'.rxSendingStr = u.fed ++ l ++ u.rxSendingStr
  left   : u'.left = u.left - 1
  sub    : u'.rxSendingStr ⊆ u.rxSendingStr

-- The sender takes the next byte, or there is none.
theorem moved_rxSend (hr : u.rxState = 0) (ht : u.txState = 0) (hx : u.rx = 1) (hi : u.isRxIdle = false)
    (hs : 0 ∉ u.rxSendingStr) : Moved u [] u.rxSend := by
  cases hq : u.rxSendingStr
  case nil =>
    have hu : u.rxSend = { u with rxData := 0, isRxIdle := true } := by simp [rxSend, hr, hq]
    rw [hu]
    exact ⟨⟨[], .quiet hr ht hx fun _ => hq, rfl⟩, by simp [Uart.left, hr, hq, hi], fun _ h => h⟩
  case cons c s =>
    have hc : ¬c = 0#8 := fun hc => hs <| by simp [hq, hc]
    have hu : u.rxSend = { u with rxData := c, rxSendingStr := s, rx := 0, rxState := 1 } := by
      simp [rxSend, hr, hq, hc]
    rw [hu]
    refine ⟨⟨[c], .start rfl ht rfl rfl hi, by simp [hq]⟩, ?_, by simp [hq]⟩
    simp [Uart.left, hr, hq, hi]
    omega

theorem tick_of_busy {v : Uart} (hu : u.txReceive u.rx = v) (hi : v.isRxIdle = false) : u.tick = v.rxSend := by
  simp [Uart.tick, hu, hi]

theorem tick_of_idle {v : Uart} (hu : u.txReceive u.rx = v) (hi : v.isRxIdle = true) : u.tick = v := by
  simp [Uart.tick, hu, hi]

-- Bit `k` is taken by the receiver while the sender puts the next bit or the stop bit on the line.
theorem moved_data {c : Byte} {k : Nat} (hk : k < 8) (hr : u.rxState = k + 2) (ht : u.txState = k + 1)
    (hx : u.rx = (c >>> k) &&& 1) (hd : u.rxData = c >>> (k + 1)) (ht' : u.txData = c <<< (8 - k))
    (hi : u.isRxIdle = false) : Moved u [c] u.tick := by
  have hu : u.txReceive u.rx = { u with
      divisorCnt := u.divisor - 1, txData := c <<< (7 - k), txState := k + 2 } := by
    simp [txReceive, ht, hx, ht', show k + 1 ≤ 8 by omega, shift_in k hk c]
  rw [tick_of_busy hu hi]
  by_cases hk' : k = 7
  case pos =>
    subst hk'
    have hv : ({ u with divisorCnt := u.divisor - 1, txData := c <<< (7 - 7), txState := 7 + 2 } : Uart).rxSend =
        { u with divisorCnt := u.divisor - 1, txData := c, txState := 9, rx := 1, rxState := 0 } := by
      simp [rxSend, hr]
    rw [hv]
    refine ⟨⟨[c], .stop rfl rfl rfl rfl hi, rfl⟩, ?_, fun _ h => h⟩
    simp [Uart.left, hr, hi]
  case neg =>
    have hv : ({ u with divisorCnt := u.divisor - 1, txData := c <<< (7 - k), txState := k + 2 } : Uart).rxSend =
        { u with
          divisorCnt := u.divisor - 1, txData := c <<< (7 - k), txState := k + 2, rx := (c >>> (k + 1)) &&& 1,
          rxData := c >>> (k + 2), rxState := k + 3 } := by
      simp [rxSend, hr, hd, show k + 2 ≤ 8 by omega, BitVec.shiftRight_add]
    rw [hv]
    refine ⟨⟨[c], .data (k := k + 1) (by omega) rfl rfl rfl rfl ?_ hi, rfl⟩, ?_, fun _ h => h⟩
    case refine_1 => rw [show 8 - (k + 1) = 7 - k by omega]
    case refine_2 =>
      simp [Uart.left, hr, hi]
      omega

theorem Linked.tick (hl : Linked u l) (hs : 0 ∉ u.rxSendingStr) : Moved u l u.tick := by
  cases hl
  case quiet hr ht hx hi =>
    have hu : u.txReceive u.rx = { u with divisorCnt := u.divisor - 1 } := by simp [txReceive, ht, hx]
    cases hb : u.isRxIdle
    case false =>
      rw [tick_of_busy hu hb]
      have ⟨hl, hn, hq⟩ := moved_rxSend (u := { u with divisorCnt := u.divisor - 1 }) hr ht hx hb hs
      exact ⟨hl, hn, hq⟩
    case true =>
      rw [tick_of_idle hu hb]
      have hq := hi hb
      exact ⟨⟨[], .quiet hr ht hx fun _ => hq, rfl⟩, by simp [Uart.left, hr, hq, hb], fun _ h => h⟩
  case start c hr ht hx hd hi =>
    have hu : u.tick = { u with
        divisorCnt := u.divisor - 1, txData := 0, txState := 1, rx := c &&& 1, rxData := c >>> 1, rxState := 2 } := by
      simp [Uart.tick, txReceive, rxSend, hr, ht, hx, hd, hi]
    rw [hu]
    refine ⟨⟨[c], .data (k := 0) (by decide) rfl rfl ?_ rfl ?_ hi, rfl⟩, ?_, fun _ h => h⟩
    case refine_1 => simp
    case refine_2 => simp
    case refine_3 => simp [Uart.left, hr, hi]
  case data hk hr ht hx hd ht' hi => exact moved_data hk hr ht hx hd ht' hi
  case stop c hr ht hx hd hi =>
    have hu : u.txReceive u.rx = { u with divisorCnt := u.divisor - 1, txState := 0, fed := u.fed ++ [c] } := by
      simp [txReceive, ht, hx, hd]
    rw [tick_of_busy hu hi]
    have ⟨⟨l, hl, he⟩, hn, hq⟩ :=
      moved_rxSend (u := { u with divisorCnt := u.divisor - 1, txState := 0, fed := u.fed ++ [c] }) hr rfl hx hi hs
    exact ⟨⟨l, hl, by rw [List.append_nil] at he; exact he⟩, hn, hq⟩

section Runs

variable {es : List Event} {e : Event} {n : Nat}

def entered (es : List Event) : List Byte :=
  es.filterMap fun
    | .update     => none
    | .getchar ch => some ch.val

-- What holds at any time: each byte that has been entered has been fed, is on its way or waits, in this order.
structure Valid (input : List Byte) (u : Uart) : Prop where
  linked  : ∃ l, Linked u l ∧ u.fed ++ l ++ u.rxSendingStr = input
  nonzero : 0 ∉ u.rxSendingStr
  divisor : u.divisor = 16
  cnt     : 0 ≤ u.divisorCnt ∧ u.divisorCnt ≤ 15

variable {input : List Byte}

theorem Valid.powerOn {txData rxData : Byte} : Valid [] (Uart.powerOn txData rxData) where
  linked  := ⟨[], .quiet rfl rfl rfl fun _ => rfl, rfl⟩
  nonzero := nofun
  divisor := rfl
  cnt     := ⟨(by decide : (0 : Int) ≤ 15), Int.le_refl 15⟩

theorem Linked.getchar {c : Byte} (hl : Linked u l) : Linked (u.rxGetchar c) l := by
  cases hl
  case quiet hr ht hx _                => exact .quiet hr ht hx nofun
  case start hr ht hx hd _             => exact .start hr ht hx hd rfl
  case data hk hr ht hx hd ht' _       => exact .data hk hr ht hx hd ht' rfl
  case stop hr ht hx hd _              => exact .stop hr ht hx hd rfl

theorem Valid.getchar {c : Byte} (hv : Valid input u) (hc : c ≠ 0) : Valid (input ++ [c]) (u.rxGetchar c) where
  linked :=
    have ⟨l, hl, he⟩ := hv.linked
    ⟨l, hl.getchar, by rw [← he]; simp [rxGetchar]⟩
  nonzero := fun h => by
    cases List.mem_append.mp h
    case inl h => exact hv.nonzero h
    case inr h => exact hc (List.mem_singleton.mp h).symm
  divisor := hv.divisor
  cnt     := hv.cnt

theorem txReceive_divisor {tx : Byte} :
    (u.txReceive tx).divisor = u.divisor ∧ (u.txReceive tx).divisorCnt = u.divisor - 1 := by
  grind [txReceive]

theorem rxSend_divisor : u.rxSend.divisor = u.divisor ∧ u.rxSend.divisorCnt = u.divisorCnt := by
  grind [rxSend]

theorem tick_divisor : u.tick.divisor = u.divisor ∧ u.tick.divisorCnt = u.divisor - 1 := by
  have ⟨hd, hc⟩ : (u.txReceive u.rx).divisor = u.divisor ∧ (u.txReceive u.rx).divisorCnt = u.divisor - 1 :=
    txReceive_divisor
  cases hi : (u.txReceive u.rx).isRxIdle
  case true =>
    rw [tick_of_idle rfl hi]
    exact ⟨hd, hc⟩
  case false =>
    have ⟨hd', hc'⟩ := rxSend_divisor (u := u.txReceive u.rx)
    rw [tick_of_busy rfl hi]
    exact ⟨hd'.trans hd, hc'.trans hc⟩

theorem update_of_pos (h : 0 < u.divisorCnt) : u.update = { u with divisorCnt := u.divisorCnt - 1 } :=
  if_neg (by simp; omega)

theorem update_of_zero (h : u.divisorCnt = 0) : u.update = ({ u with divisorCnt := u.divisorCnt - 1 } : Uart).tick :=
  if_pos (by simp; omega)

theorem Linked.withCnt {d : Int} (hl : Linked u l) : Linked { u with divisorCnt := d } l := by
  cases hl
  case quiet hr ht hx hi         => exact .quiet hr ht hx hi
  case start hr ht hx hd hi      => exact .start hr ht hx hd hi
  case data hk hr ht hx hd ht' hi => exact .data hk hr ht hx hd ht' hi
  case stop hr ht hx hd hi       => exact .stop hr ht hx hd hi

theorem Valid.update (hv : Valid input u) : Valid input u.update ∧
    (u.update.left = 0 ∨ 16 * u.update.left + u.update.divisorCnt + 1 = 16 * u.left + u.divisorCnt) := by
  have ⟨⟨l, hl, he⟩, hz, hd, hc⟩ := hv
  by_cases h : u.divisorCnt = 0
  case neg =>
    rw [update_of_pos (by omega)]
    refine ⟨⟨⟨l, hl.withCnt, he⟩, hz, hd, ?_⟩, .inr ?_⟩
    case _ => simp; omega
    case _ =>
      simp only [Uart.left]
      omega
  case pos =>
    have ⟨⟨l', hl', he'⟩, hn, hs⟩ := (hl.withCnt (d := u.divisorCnt - 1)).tick hz
    have ⟨hd', hc'⟩ := tick_divisor (u := { u with divisorCnt := u.divisorCnt - 1 })
    have hn' : u.update.left = u.left - 1 := by rw [update_of_zero h, hn]; rfl
    have hc' : u.update.divisorCnt = 15 := by
      rw [update_of_zero h, hc']
      simp [hd]
    refine ⟨⟨⟨l', ?_, ?_⟩, fun h0 => hz <| hs ?_, ?_, by omega⟩, by omega⟩
    case _ => rw [update_of_zero h]; exact hl'
    case _ => rw [update_of_zero h]; exact he'.trans he
    case _ => rw [update_of_zero h] at h0; exact h0
    case _ => rw [update_of_zero h]; exact hd'.trans hd

-- Without further input, the sender runs out of work.
theorem Valid.updates (hv : Valid input u) : Valid input (feed next u (List.replicate n .update)) ∧
    ((feed next u (List.replicate n .update)).left = 0 ∨
      16 * (feed next u (List.replicate n .update)).left + (feed next u (List.replicate n .update)).divisorCnt + n =
        16 * u.left + u.divisorCnt) := by
  induction n
  case zero => exact ⟨hv, .inr (by simp)⟩
  case succ n hi =>
    have hu : feed next u (List.replicate (n + 1) .update) = (feed next u (List.replicate n .update)).update := by
      rw [List.replicate_succ', Clocked.feed_append]
      rfl
    have ⟨hv', hn⟩ := hi.left.update
    have hc := hi.left.cnt
    have hc' := hv'.cnt
    rw [hu]
    refine ⟨hv', ?_⟩
    cases hi.right
    case inl h0 => omega
    case inr he =>
      push_cast
      omega

theorem Linked.left_le (hl : Linked u l) : u.left ≤ 10 * (l ++ u.rxSendingStr).length + 1 := by
  have hi : (if u.isRxIdle then 0 else 1) ≤ 1 := by split <;> decide
  cases hl
  case quiet hr _ _ _     => simp [Uart.left, hr]; omega
  case start hr _ _ _ _   => simp [Uart.left, hr]; omega
  case data hr _ _ _ _ _  => simp [Uart.left, hr]; omega
  case stop hr _ _ _ _    => simp [Uart.left, hr]; omega

theorem Linked.of_left (hl : Linked u l) (h : u.left = 0) :
    l = [] ∧ u.rxSendingStr = [] ∧ u.txState = 0 ∧ u.rxState = 0 := by
  have hi : u.isRxIdle = true := by
    by_contra hi
    simp [Uart.left, hi] at h
  cases hl
  case quiet hr ht _ hq         => exact ⟨rfl, hq hi, ht, hr⟩
  case start hi' | stop hi'     => exact absurd hi (by simp [hi'])
  case data hi'                 => exact absurd hi (by simp [hi'])

theorem valid_feed {txData rxData : Byte} (es : List Event) :
    Valid (entered es) (feed next (.powerOn txData rxData) es) := by
  refine Clocked.feed_invariant (P := fun es u => Valid (entered es) u) .powerOn fun es e u hv => ?_
  cases e
  case update =>
    have he : entered (es ++ [.update]) = entered es := by simp [entered]
    rw [he]
    exact hv.update.left
  case getchar ch =>
    have he : entered (es ++ [.getchar ch]) = entered es ++ [ch.val] := by simp [entered]
    have hc : ch.val ≠ 0 := fun h => absurd ch.property.left (by rw [h]; decide)
    rw [he]
    exact hv.getchar hc

-- The bytes entered at any times `es`, and then `n` updates without input.
theorem loop_back (txData rxData : Byte) (es : List Event) (n : Nat) :
    (feed next (.powerOn txData rxData) es).fed <+: entered es ∧
    (16 * (10 * (entered es).length + 1) ≤ n →
      let u := feed next (.powerOn txData rxData) (es ++ List.replicate n .update)
      u.fed = entered es ∧ u.txState = 0 ∧ u.rxState = 0) := by
  have hv : Valid (entered es) (feed next (.powerOn txData rxData) es) := valid_feed es
  have ⟨l, hl, he⟩ := hv.linked
  refine ⟨⟨l ++ _, by rw [← he, List.append_assoc]⟩, fun hn => ?_⟩
  have ⟨hv', hu⟩ := hv.updates (n := n)
  have hb := hl.left_le
  have hlen : (l ++ (feed next (.powerOn txData rxData) es).rxSendingStr).length ≤ (entered es).length := by
    have := congrArg List.length he
    simp only [List.length_append] at this ⊢
    omega
  have hz : (feed next (feed next (.powerOn txData rxData) es) (List.replicate n .update)).left = 0 := by
    have hc := hv.cnt
    have hc' := hv'.cnt
    omega
  have ⟨l', hl', he'⟩ := hv'.linked
  have ⟨hl0, hs, ht, hr⟩ := hl'.of_left hz
  rw [hl0, hs, List.append_nil, List.append_nil] at he'
  rw [Clocked.feed_append]
  exact ⟨he', ht, hr⟩

end Runs

end Nvboard.Uart
