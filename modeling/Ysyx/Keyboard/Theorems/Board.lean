import Ysyx.Keyboard.Board
import Ysyx.Keyboard.Theorems.Receiver

-- The bytes that the board queues are the bytes that the receiver writes into its FIFO.

namespace Keyboard

variable {b b' : Board} {keys : Byte → Board.Key} {code : Byte} {n : Nat} {codes all : List Byte}
variable {sent total : List Bool}

-- The value of `cur_key` for a value of `data_idx`.
def shifted (code : Byte) (data_idx : Nat) : BitVec 32 :=
  code.setWidth 32 >>> min (data_idx - 1) 8

theorem shifted_ne : shifted code n ≠ NOT_A_KEY := by
  have h : (shifted code n).getLsbD 31 = false := by simp [shifted]
  intro he
  rw [he] at h
  exact absurd h (by decide)

theorem ps2_dat_shifted (h : n ≤ 10) : Board.ps2_dat n (shifted code n) code = (send_buffer code).getLsbD n := by
  have h' : ∀ (code : Byte) (n : Fin 11),
      Board.ps2_dat n (shifted code n) code = (send_buffer code).getLsbD n := by decide +kernel
  exact h' code ⟨n, Nat.lt_succ_of_le h⟩

theorem shift_shifted (h : n ≤ 10) : Board.shift n (shifted code n) = shifted code (n + 1) := by
  have h' : ∀ (code : Byte) (n : Fin 11), Board.shift n (shifted code n) = shifted code (n + 1) := by decide +kernel
  exact h' code ⟨n, Nat.lt_succ_of_le h⟩

def frame (code : Byte) : List Bool :=
  Ps2.bits (send_buffer code)

theorem take_succ_frame (h : n ≤ 10) :
    (frame code).take (n + 1) = (frame code).take n ++ [(send_buffer code).getLsbD n] := by
  have hl : n < (frame code).length := by simp [frame, Ps2.bits]; omega
  rw [← List.take_append_getElem hl]
  simp [frame, Ps2.bits]

theorem take_frame : (frame code).take 11 = frame code := by
  rw [List.take_of_length_le]
  simp [frame, Ps2.bits]

namespace Board

-- The bits of the current frame for which `PS2_CLK` has fallen.
inductive Sent (b : Board) : List Bool → Prop
  | idle : b.cur_key = NOT_A_KEY → b.data_idx = 0 → b.PS2_CLK = false → (b.is_kb_idle = true → b.all_keys = []) →
    Sent b []
  | low {code : Byte} {codes : List Byte} {n : Nat} : b.all_keys = code :: codes → b.is_kb_idle = false →
    b.data_idx = n → b.cur_key = shifted code n → n ≤ 10 → b.left_clk ≤ 10 →
    b.PS2_CLK = false → Sent b ((frame code).take n)
  | high {code : Byte} {codes : List Byte} {n : Nat} : b.all_keys = code :: codes → b.is_kb_idle = false →
    b.data_idx = n + 1 → b.cur_key = shifted code (n + 1) → n ≤ 10 → b.left_clk ≤ 10 →
    b.PS2_CLK = true → b.PS2_DAT = (send_buffer code).getLsbD n → Sent b ((frame code).take n)

-- All codes that have been queued so far, and all bits for which `PS2_CLK` has fallen.
def Inv (all : List Byte) (total : List Bool) (b : Board) : Prop :=
  ∃ done sent, all = done ++ b.all_keys ∧ total = done.flatMap frame ++ sent ∧ Sent b sent

-- The number of calls of `update_state` since the last edge of `PS2_CLK` that are certain.
def age (b : Board) : Nat :=
  if b.cur_key = NOT_A_KEY then 0 else 10 - b.left_clk

-- The number of calls of `update_state` until the queue is empty.
def calls (b : Board) : Nat :=
  if b.cur_key = NOT_A_KEY then
    242 * b.all_keys.length
  else
    242 * (b.all_keys.length - 1) + 11 * (21 + b.PS2_CLK.toNat - 2 * b.data_idx) + b.left_clk + 1

-- What a call of `update_state` does to the pins.
inductive Edge (total : List Bool) (b b' : Board) : List Bool → Prop
  | none : b'.PS2_CLK = b.PS2_CLK → b'.PS2_DAT = b.PS2_DAT → b'.age ≤ b.age + 1 → Edge total b b' total
  | rise : b.PS2_CLK = false → b'.PS2_CLK = true → 10 ≤ b.age → b'.age = 0 → Edge total b b' total
  | fall : b.PS2_CLK = true → b'.PS2_CLK = false → b'.PS2_DAT = b.PS2_DAT → 10 ≤ b.age → b'.age = 0 →
    Edge total b b' (total ++ [b.PS2_DAT])

section Step

-- One call of `update_state` while the keyboard is not idle.
structure Advances (all : List Byte) (total : List Bool) (b b' : Board) (total' : List Bool) : Prop where
  edge  : Edge total b b' total'
  inv   : Inv all total' b'
  calls : b'.calls = b.calls - 1
  idle  : b.calls = 0 → b'.is_kb_idle = true

theorem advances_wait {done : List Byte} (ha : all = done ++ b.all_keys) (ht : total = done.flatMap frame ++ sent)
    (hc : b.cur_key ≠ NOT_A_KEY) (h : Sent b sent) (hl : b.left_clk ≠ 0) :
    ∃ b', b.send = some b' ∧ Advances all total b b' total := by
  refine ⟨{ b with left_clk := b.left_clk - 1 }, by simp [send, hl],
      ⟨.none rfl rfl ?_, ⟨done, sent, ha, ht, ?_⟩, ?_, ?_⟩⟩
  case refine_1 => simp [age, hc]; omega
  case refine_2 =>
    cases h
    case idle h₁ _ _ _ => exact absurd h₁ hc
    case low n hk hi hd hs hn hl hp => exact .low hk hi hd hs hn (by simp; omega) hp
    case high n hk hi hd hs hn hl hp hq => exact .high hk hi hd hs hn (by simp; omega) hp hq
  case refine_3 => simp [Board.calls, hc]; omega
  case refine_4 => simp [Board.calls, hc]

theorem advances_rise {done : List Byte} (ha : all = done ++ b.all_keys)
    (ht : total = done.flatMap frame ++ (frame code).take n)
    (hk : b.all_keys = code :: codes) (hi : b.is_kb_idle = false) (hd : b.data_idx = n)
    (hs : b.cur_key = shifted code n) (hn : n ≤ 10) (hl : b.left_clk = 0) (hp : b.PS2_CLK = false) :
    ∃ b', b.send = some b' ∧ Advances all total b b' total := by
  have hc : b.cur_key ≠ NOT_A_KEY := hs ▸ shifted_ne
  have hb : b.send = some { b with
      PS2_CLK := true, left_clk := 10, PS2_DAT := (send_buffer code).getLsbD n,
      cur_key := shifted code (n + 1), data_idx := n + 1 } := by
    simp only [send, hl, hp, hk, hd, hs, ps2_dat_shifted hn, shift_shifted hn, CLK_NUM, if_true]
  refine ⟨_, hb, ⟨.rise hp rfl ?_ ?_, ⟨done, _, ha, ht, .high hk hi rfl rfl hn (by simp) rfl rfl⟩, ?_, ?_⟩⟩
  case refine_1 => simp [age, hc, hl]
  case refine_2 => simp [age]
  case refine_3 => simp [Board.calls, hc, shifted_ne, hk, hl, hp, hd]; omega
  case refine_4 => simp [Board.calls, hc]

theorem advances_fall {done : List Byte} (ha : all = done ++ b.all_keys)
    (ht : total = done.flatMap frame ++ (frame code).take n)
    (hk : b.all_keys = code :: codes) (hi : b.is_kb_idle = false) (hd : b.data_idx = n + 1)
    (hs : b.cur_key = shifted code (n + 1)) (hn : n ≤ 10) (hl : b.left_clk = 0) (hp : b.PS2_CLK = true)
    (hq : b.PS2_DAT = (send_buffer code).getLsbD n) :
    ∃ b', b.send = some b' ∧ Advances all total b b' (total ++ [b.PS2_DAT]) := by
  have hc : b.cur_key ≠ NOT_A_KEY := hs ▸ shifted_ne
  have ht' : total ++ [b.PS2_DAT] = done.flatMap frame ++ (frame code).take (n + 1) := by
    rw [ht, hq, take_succ_frame hn, List.append_assoc]
  by_cases h11 : n = 10
  case pos =>
    have hb : b.send = some { b with
        PS2_CLK := false, left_clk := 10, data_idx := 0, cur_key := NOT_A_KEY, all_keys := codes } := by
      simp [send, hl, hp, hk, hd, h11, CLK_NUM]
    have hf : total ++ [b.PS2_DAT] = (done ++ [code]).flatMap frame ++ [] := by
      rw [ht', h11, take_frame, List.flatMap_append, List.flatMap_singleton, List.append_nil]
    have hd' : all = (done ++ [code]) ++ codes := by rw [ha, hk, List.append_assoc]; rfl
    refine ⟨_, hb, ⟨.fall hp rfl rfl ?_ ?_, ⟨_, [], hd', hf, .idle rfl rfl rfl (by simp [hi])⟩, ?_, ?_⟩⟩
    case refine_1 => simp [age, hc, hl]
    case refine_2 => simp [age]
    case refine_3 => simp [Board.calls, hc, hk, hl, hp, hd, h11]
    case refine_4 => simp [Board.calls, hc]
  case neg =>
    have hb : b.send = some { b with PS2_CLK := false, left_clk := 10 } := by
      simp [send, hl, hp, hd, h11, CLK_NUM]
    refine ⟨_, hb, ⟨.fall hp rfl rfl ?_ ?_, ⟨done, _, ha, ht', .low hk hi hd hs (by omega) (by simp) rfl⟩, ?_, ?_⟩⟩
    case refine_1 => simp [age, hc, hl]
    case refine_2 => simp [age]
    case refine_3 => simp [Board.calls, hc, hk, hl, hp, hd]; omega
    case refine_4 => simp [Board.calls, hc]

theorem shifted_zero : code.setWidth 32 = shifted code 0 := by
  simp [shifted]

theorem Inv.update_state (h : Inv all total b) (hk : b.is_kb_idle = false) :
    ∃ b' total', b.update_state = some b' ∧ Advances all total b b' total' := by
  have ⟨done, sent, ha, ht, hs⟩ := h
  by_cases hc : b.cur_key = NOT_A_KEY
  case pos =>
    have hi : b.data_idx = 0 ∧ b.PS2_CLK = false ∧ sent = [] := by
      cases hs
      case idle _ hd hp _ => exact ⟨hd, hp, rfl⟩
      case low hs _ _ _ => exact absurd (hs ▸ hc) shifted_ne
      case high hs _ _ _ _ => exact absurd (hs ▸ hc) shifted_ne
    have ⟨hd, hp, he⟩ := hi
    subst he
    cases hq : b.all_keys
    case nil =>
      have hb : b.update_state = some { b with is_kb_idle := true } := by simp [Board.update_state, hc, hq]
      refine ⟨_, total, hb, ⟨.none rfl rfl (by simp [age, hc]), ⟨done, [], ha, ht, .idle hc hd hp fun _ => hq⟩, ?_,
        fun _ => rfl⟩⟩
      simp [Board.calls, hc, hq]
    case cons code codes =>
      have hb : b.update_state = some { b with cur_key := shifted code 0, left_clk := 9 } := by
        simp [Board.update_state, hc, hq, hd, send, CLK_NUM, shifted_zero]
      have hs : Sent { b with cur_key := shifted code 0, left_clk := 9 } ((frame code).take 0) :=
        .low hq hk hd rfl (by decide) (by simp) hp
      refine ⟨_, total, hb, ⟨.none rfl rfl ?_, ⟨done, _, ha, ht, hs⟩, ?_, ?_⟩⟩
      case refine_1 => simp [age, hc, shifted_ne]
      case refine_2 => simp [Board.calls, hc, shifted_ne, hq, hd, hp]; omega
      case refine_3 => simp [Board.calls, hc, hq]
  case neg =>
    have hb : b.update_state = b.send := by simp [Board.update_state, hc]
    rw [hb]
    by_cases hl : b.left_clk = 0
    case neg =>
      have ⟨b', hb, hi⟩ := advances_wait ha ht hc hs hl
      exact ⟨b', total, hb, hi⟩
    case pos =>
      cases hs
      case idle h₁ _ _ _ => exact absurd h₁ hc
      case low hk hi hd hs hn _ hp =>
        have ⟨b', hb, hi⟩ := advances_rise ha ht hk hi hd hs hn hl hp
        exact ⟨b', total, hb, hi⟩
      case high hk hi hd hs hn _ hp hq =>
        have ⟨b', hb, hi⟩ := advances_fall ha ht hk hi hd hs hn hl hp hq
        exact ⟨b', _, hb, hi⟩

end Step

theorem Inv.calls_of_idle (h : Inv all total b) (hk : b.is_kb_idle = true) : b.calls = 0 := by
  have ⟨done, sent, ha, ht, hs⟩ := h
  cases hs
  case idle hc _ _ hi => simp [Board.calls, hc, hi hk]
  case low hi _ _ _ _ _ => simp [hk] at hi
  case high hi _ _ _ _ _ _ => simp [hk] at hi

theorem Inv.calls_le (h : Inv all total b) : b.calls ≤ 242 * all.length := by
  have ⟨done, sent, ha, ht, hs⟩ := h
  rw [ha, List.length_append]
  cases hs
  case idle hc _ _ _ =>
    have : b.calls = 242 * b.all_keys.length := if_pos hc
    omega
  case low hk _ hd hs _ _ hp => simp [Board.calls, hs, shifted_ne, hp, hk]; omega
  case high hk _ hd hs _ _ hp _ => simp [Board.calls, hs, shifted_ne, hp, hk]; omega

-- With no calls left everything has been sent.
theorem Inv.of_calls (h : Inv all total b) (hc : b.calls = 0) : total = all.flatMap frame ∧ b.all_keys = [] ∧
    b.cur_key = NOT_A_KEY ∧ b.data_idx = 0 ∧ b.PS2_CLK = false := by
  have ⟨done, sent, ha, ht, hs⟩ := h
  cases hs
  case idle hk hd hp _ =>
    have hn : b.all_keys = [] := by simpa [Board.calls, hk] using hc
    exact ⟨by simp [ht, ha, hn], hn, hk, hd, hp⟩
  case low hs _ _ _ => simp [Board.calls, hs, shifted_ne] at hc
  case high hs _ _ _ _ => simp [Board.calls, hs, shifted_ne] at hc

section Push

variable {events : List (Byte × Bool)}

theorem push_key_eq {k : Byte} {d : Bool} : b.push_key keys k d =
    { b with all_keys := b.all_keys ++ scan_codes keys (k, d), is_kb_idle := false } := by
  unfold push_key scan_codes
  by_cases h : (keys k).map0 = 0xe0#8 <;> cases d <;> simp [h]

theorem push_keys_eq : b.push_keys keys events = { b with
    all_keys   := b.all_keys ++ events.flatMap (scan_codes keys)
    is_kb_idle := b.is_kb_idle && events.isEmpty } := by
  rw [push_keys]
  induction events generalizing b
  case nil => simp
  case cons e events hi => rw [List.foldl_cons, hi, push_key_eq]; simp

theorem Inv.push_keys (keys : Byte → Key) (events : List (Byte × Bool)) (h : Inv all total b) :
    Inv (all ++ events.flatMap (scan_codes keys)) total (b.push_keys keys events) := by
  have ⟨done, sent, ha, ht, hs⟩ := h
  rw [push_keys_eq]
  refine ⟨done, sent, by simp [ha], ht, ?_⟩
  cases hs
  case idle hc hd hp hi =>
    refine .idle hc hd hp fun he => ?_
    have ⟨he, hn⟩ : b.is_kb_idle = true ∧ events = [] := by simpa using he
    simp [hi he, hn]
  case low hk hi hd hs hn hl hp => exact .low (by rw [hk]; rfl) (by simp [hi]) hd hs hn hl hp
  case high hk hi hd hs hn hl hp hq => exact .high (by rw [hk]; rfl) (by simp [hi]) hd hs hn hl hp hq

end Push

section Link

variable {s : Ps2} {sampled : List Bool} {c : Cycle} {cs : List Cycle}

-- The levels of `PS2_CLK` in the synchroniser, without a glitch.
structure Level (b : Board) (sync : BitVec 3) : Prop where
  zero : sync.getLsbD 0 = b.PS2_CLK
  mono : sync.getLsbD 2 = b.PS2_CLK → sync.getLsbD 1 = b.PS2_CLK
  one  : 1 ≤ b.age → sync.getLsbD 1 = b.PS2_CLK
  two  : 2 ≤ b.age → sync.getLsbD 2 = b.PS2_CLK

-- The bit whose falling edge is on its way through the synchroniser.
def pending (sync : BitVec 3) (ps2_data : Bool) : List Bool :=
  if sync.getLsbD 2 && !sync.getLsbD 0 then [ps2_data] else []

def Linked (all : List Byte) (sampled : List Bool) (b : Board) (sync : BitVec 3) : Prop :=
  Level b sync ∧ Inv all (sampled ++ pending sync b.PS2_DAT) b

theorem step_sync {i : Ps2.Input} : (s.step i).ps2_clk_sync.getLsbD 0 = i.ps2_clk ∧
    (s.step i).ps2_clk_sync.getLsbD 1 = s.ps2_clk_sync.getLsbD 0 ∧
    (s.step i).ps2_clk_sync.getLsbD 2 = s.ps2_clk_sync.getLsbD 1 := by
  have h : ∀ (x : BitVec 3) (c : Bool), (x.extractLsb' 0 2 ++ BitVec.ofBool c).getLsbD 0 = c ∧
      (x.extractLsb' 0 2 ++ BitVec.ofBool c).getLsbD 1 = x.getLsbD 0 ∧
      (x.extractLsb' 0 2 ++ BitVec.ofBool c).getLsbD 2 = x.getLsbD 1 := by decide
  exact h s.ps2_clk_sync i.ps2_clk

-- The oldest bit of the synchroniser leaves it.
theorem pending_shift {x₁ x₂ c d : Bool} (h : x₂ = c → x₁ = c) :
    (if x₂ && !x₁ then [d] else []) ++ (if x₁ && !c then [d] else []) = if x₂ && !c then [d] else [] := by
  cases x₁ <;> cases x₂ <;> cases c <;> simp at h ⊢

theorem Level.edge (nextdata_n : Bool) (h : Level b s.ps2_clk_sync)
    (he : Edge (sampled ++ pending s.ps2_clk_sync b.PS2_DAT) b b' total) :
    Level b' (s.step ⟨b'.PS2_CLK, b'.PS2_DAT, nextdata_n⟩).ps2_clk_sync ∧
    sampled ++ s.samples [⟨b'.PS2_CLK, b'.PS2_DAT, nextdata_n⟩] ++
      pending (s.step ⟨b'.PS2_CLK, b'.PS2_DAT, nextdata_n⟩).ps2_clk_sync b'.PS2_DAT = total := by
  have hs {i} : s.samples [i] =
      if s.ps2_clk_sync.getLsbD 2 && !s.ps2_clk_sync.getLsbD 1 then [i.ps2_data] else [] := by
    rw [Ps2.samples_cons, Ps2.sampling, Ps2.samples_nil, List.append_nil]
    split <;> rfl
  obtain ⟨hz, hm, ho, ht⟩ := h
  rw [hs, pending, step_sync.left, step_sync.right.right]
  cases he
  case none hc hd ha =>
    refine ⟨⟨step_sync.left, ?_, ?_, ?_⟩, ?_⟩
    case refine_1 => exact fun _ => by rw [step_sync.right.left, hz, hc]
    case refine_2 => exact fun _ => by rw [step_sync.right.left, hz, hc]
    case refine_3 => exact fun _ => by rw [step_sync.right.right, ho (by omega), hc]
    case refine_4 => rw [hc, hd, List.append_assoc, pending_shift hm, pending, hz]
  case rise hc hc' ha ha' =>
    have ho := ho (by omega)
    have ht := ht (by omega)
    refine ⟨⟨step_sync.left, ?_, by omega, by omega⟩, ?_⟩
    case refine_1 => simp only [step_sync, ho, hc, hc', Bool.false_eq_true, false_implies]
    case refine_2 => rw [pending, ho, ht, hc, hc']; simp
  case fall hc hc' hd ha ha' =>
    have ho := ho (by omega)
    have ht := ht (by omega)
    refine ⟨⟨step_sync.left, ?_, by omega, by omega⟩, ?_⟩
    case refine_1 => simp only [step_sync, ho, hc, hc', Bool.true_eq_false, false_implies]
    case refine_2 => rw [pending, ho, ht, hz, hc, hc', hd]; simp

-- One cycle of the board and the receiver.
theorem Linked.step (keys : Byte → Key) (c : Cycle) (h : Linked all sampled b s.ps2_clk_sync) :
    ∃ b', b.update keys c = some b' ∧
    Linked (all ++ c.events.flatMap (scan_codes keys)) (sampled ++ s.samples [⟨b'.PS2_CLK, b'.PS2_DAT, c.nextdata_n⟩])
      b' (s.step ⟨b'.PS2_CLK, b'.PS2_DAT, c.nextdata_n⟩).ps2_clk_sync ∧
    (c.events = [] → b'.calls = b.calls - 1 ∧ (b.calls = 0 → b'.is_kb_idle = true)) := by
  have ⟨hl, hi⟩ := h
  have hi := hi.push_keys keys c.events
  have hl : Level (b.push_keys keys c.events) s.ps2_clk_sync := by
    rw [push_keys_eq]
    exact ⟨hl.zero, hl.mono, hl.one, hl.two⟩
  have hd : (b.push_keys keys c.events).PS2_DAT = b.PS2_DAT := by rw [push_keys_eq]
  have hn : c.events = [] → b.push_keys keys c.events = b := fun hn => by rw [hn]; rfl
  generalize hb : b.push_keys keys c.events = b₀ at hi hl hd hn
  rw [← hd] at hi
  rw [update, hb]
  cases hk : b₀.is_kb_idle
  case false =>
    have ⟨b', total', hu, ha⟩ := hi.update_state hk
    have ⟨hl', ht⟩ := hl.edge c.nextdata_n ha.edge
    exact ⟨b', hu, ⟨hl', ht ▸ ha.inv⟩, fun he => hn he ▸ ⟨ha.calls, ha.idle⟩⟩
  case true =>
    have he : Edge (sampled ++ pending s.ps2_clk_sync b₀.PS2_DAT) b₀ b₀ _ := .none rfl rfl (Nat.le_succ _)
    have ⟨hl', ht⟩ := hl.edge c.nextdata_n he
    refine ⟨b₀, rfl, ⟨hl', ht ▸ hi⟩, fun he => ⟨?_, fun _ => hk⟩⟩
    have : b₀.calls = 0 := hi.calls_of_idle hk
    rw [← hn he, this]

-- Every run of the board and the receiver: no assertion fails, and what has been sampled is what has been sent.
theorem Linked.transmit (keys : Byte → Key) (cs : List Cycle) (h : Linked all sampled b s.ps2_clk_sync) :
    ∃ b' is, b.transmit keys cs = some (b', is) ∧
    Linked (all ++ queued keys cs) (sampled ++ s.samples is) b' (s.run is).ps2_clk_sync ∧
    ((∀ c ∈ cs, c.events = []) → b'.calls = b.calls - cs.length) := by
  induction cs generalizing all sampled b s
  case nil => exact ⟨b, [], rfl, by simpa [queued] using h, fun _ => rfl⟩
  case cons c cs hi =>
    have ⟨b₁, hu, h₁, hc₁⟩ := h.step keys c
    have ⟨b₂, is, ht, h₂, hc₂⟩ := hi h₁
    refine ⟨b₂, ⟨b₁.PS2_CLK, b₁.PS2_DAT, c.nextdata_n⟩ :: is, by simp [Board.transmit, hu, ht], ?_, fun he => ?_⟩
    case refine_1 =>
      simp only [queued, List.flatMap_cons, List.append_assoc, Ps2.samples_cons, Ps2.samples_nil, Ps2.run_cons,
        List.append_nil] at h₂ ⊢
      exact h₂
    case refine_2 =>
      rw [hc₂ fun c hc => he c (List.mem_cons_of_mem _ hc), (hc₁ (he c List.mem_cons_self)).left, List.length_cons]
      omega

theorem transmit_append {cs' : List Cycle} : b.transmit keys (cs ++ cs') =
    (b.transmit keys cs).bind fun r => (r.fst.transmit keys cs').map fun r' => (r'.fst, r.snd ++ r'.snd) := by
  induction cs generalizing b
  case nil => simp [Board.transmit]
  case cons c cs hi =>
    simp only [List.cons_append, Board.transmit, hi]
    cases b.update keys c
    case none => rfl
    case some b =>
      cases hr : b.transmit keys cs
      case none => simp [hr]
      case some r => cases hr' : r.fst.transmit keys cs' <;> simp [hr, hr']

theorem linked_powerOn (h : s.ps2_clk_sync = 0) : Linked [] [] powerOn s.ps2_clk_sync := by
  rw [h]
  exact ⟨⟨rfl, fun _ => rfl, fun _ => rfl, fun _ => rfl⟩, [], [], rfl, rfl, .idle rfl rfl rfl fun _ => rfl⟩

end Link

section Agree

variable {s : Ps2} {cs cs' : List Cycle} {c₁ c₂ : Cycle} {sampled : List Bool} {is : List Ps2.Input}

theorem Inv.total_prefix (h : Inv all total b) : total <+: all.flatMap frame := by
  have ⟨done, sent, ha, ht, hs⟩ := h
  rw [ha, ht, List.flatMap_append]
  refine (List.prefix_append_right_inj _).mpr ?_
  cases hs
  case idle => exact List.nil_prefix
  case low hk _ _ _ _ _ _ =>
    rw [hk, List.flatMap_cons]
    exact (List.take_prefix ..).trans (List.prefix_append ..)
  case high hk _ _ _ _ _ _ _ =>
    rw [hk, List.flatMap_cons]
    exact (List.take_prefix ..).trans (List.prefix_append ..)

-- What is written into the FIFO is a part of what is queued, from the beginning on.
theorem Linked.pushed_prefix (h : Linked all (s.samples is) b (s.run is).ps2_clk_sync) (hc : s.count = 0) :
    s.pushed is <+: all := by
  have hp : s.samples is <+: all.flatMap frame := (List.prefix_append ..).trans h.right.total_prefix
  have hr : Ps2.Received [] s := ⟨by simp [hc], by simp, nofun⟩
  have hf : (Ps2.cut (all.flatMap frame)).filterMap Ps2.decode = all := Ps2.filterMap_cut_frames
  rw [(Ps2.pushed_eq_decode hr).left, ← hf]
  exact (Ps2.cut_prefix hp).filterMap _

-- Two cycles after the last call that sends something.
theorem Linked.settle (keys : Byte → Key) (h : Linked all sampled b s.ps2_clk_sync) (hc : b.calls = 0)
    (h₁ : c₁.events = []) (h₂ : c₂.events = []) : ∃ b' is, b.transmit keys [c₁, c₂] = some (b', is) ∧
    sampled ++ s.samples is = all.flatMap frame ∧ (s.run is).ps2_clk_sync = 0 ∧ b'.is_kb_idle = true ∧
    b'.calls = 0 ∧ Linked all (sampled ++ s.samples is) b' (s.run is).ps2_clk_sync := by
  have ⟨b₁, hu₁, hl₁, hc₁⟩ := h.step keys c₁
  have ⟨hc₁, hi₁⟩ := hc₁ h₁
  rw [hc] at hc₁
  have ⟨b₂, hu₂, hl₂, hc₂⟩ := hl₁.step keys c₂
  have ⟨hc₂, hi₂⟩ := hc₂ h₂
  rw [hc₁] at hc₂
  simp only [h₁, h₂, List.flatMap_nil, List.append_nil] at hl₁ hl₂
  refine ⟨b₂, [⟨b₁.PS2_CLK, b₁.PS2_DAT, c₁.nextdata_n⟩, ⟨b₂.PS2_CLK, b₂.PS2_DAT, c₂.nextdata_n⟩],
    by simp [Board.transmit, hu₁, hu₂], ?_⟩
  have hz : s.ps2_clk_sync.getLsbD 0 = false := h.left.zero.trans (h.right.of_calls hc).2.2.2.2
  have hz₁ : b₁.PS2_CLK = false := (hl₁.right.of_calls hc₁).2.2.2.2
  have ⟨ht, _, _, _, hz₂⟩ := hl₂.right.of_calls hc₂
  have hs : (((s.step ⟨b₁.PS2_CLK, b₁.PS2_DAT, c₁.nextdata_n⟩).step
      ⟨b₂.PS2_CLK, b₂.PS2_DAT, c₂.nextdata_n⟩)).ps2_clk_sync = 0 := by
    refine BitVec.eq_of_getLsbD_eq fun k hk => ?_
    match k with
    | 0 => exact step_sync.left.trans hz₂
    | 1 => exact step_sync.right.left.trans (step_sync.left.trans hz₁)
    | 2 => exact step_sync.right.right.trans (step_sync.right.left.trans hz)
  rw [hs] at ht hl₂
  have hp : pending 0 b₂.PS2_DAT = [] := rfl
  rw [hp, List.append_nil] at ht
  simp only [Ps2.run_cons, Ps2.run_nil, Ps2.samples_cons, Ps2.samples_nil, List.append_nil, List.append_assoc, hs]
    at ht hl₂ ⊢
  exact ⟨ht, trivial, hi₂ hc₁, hc₂, hl₂⟩

theorem queued_of_quiet (h : ∀ c ∈ cs, c.events = []) : queued keys cs = [] :=
  List.flatMap_eq_nil_iff.mpr fun c hc => by rw [h c hc]; rfl

-- The bytes that the receiver writes into its FIFO are the bytes that the board queues: at any time a part of them
-- from the beginning on, and all of them once the board has had the time to send them. No assertion fails.
theorem receives_queued (keys : Byte → Key) (s : Ps2) (hc : s.count = 0) (hs : s.ps2_clk_sync = 0) (cs : List Cycle) :
    (∃ b is, powerOn.transmit keys cs = some (b, is) ∧ s.pushed is <+: queued keys cs) ∧
    ∀ quiet : List Cycle, (∀ c ∈ quiet, c.events = []) → 242 * (queued keys cs).length + 2 ≤ quiet.length →
      ∃ b is, powerOn.transmit keys (cs ++ quiet) = some (b, is) ∧ s.pushed is = queued keys cs ∧
        (s.run is).count = 0 ∧ (s.run is).ps2_clk_sync = 0 ∧
        b.is_kb_idle = true ∧ b.all_keys = [] ∧ b.cur_key = NOT_A_KEY ∧ b.data_idx = 0 := by
  have ⟨b, is, ht, hl, _⟩ := (linked_powerOn hs).transmit keys cs
  refine ⟨⟨b, is, ht, hl.pushed_prefix hc⟩, fun quiet hq hn => ?_⟩
  have hd : (quiet.drop (quiet.length - 2)).length = 2 := by rw [List.length_drop]; omega
  have ⟨c₁, c₂, hd⟩ := List.length_eq_two.mp hd
  have hs' : quiet.take (quiet.length - 2) ++ [c₁, c₂] = quiet := hd ▸ List.take_append_drop ..
  rw [← hs'] at hq ⊢
  have hq' : ∀ c ∈ quiet.take (quiet.length - 2), c.events = [] := fun c hc => hq c (List.mem_append_left _ hc)
  have ⟨b', is', ht', hl', hc'⟩ := hl.transmit keys (quiet.take (quiet.length - 2))
  have hc' : b'.calls = 0 := by
    have := hl.right.calls_le
    rw [List.nil_append] at this
    rw [hc' hq', List.length_take]
    omega
  rw [queued_of_quiet hq', List.append_nil, List.nil_append, List.nil_append, ← Ps2.samples_append, ← Ps2.run_append]
    at hl'
  have ⟨b'', is'', ht'', hf, hz, hi, hc'', hl''⟩ := hl'.settle keys hc' (hq c₁ (by simp)) (hq c₂ (by simp))
  have ⟨_, hk, hk', hd, _⟩ := hl''.right.of_calls hc''
  rw [← Ps2.samples_append] at hf
  rw [← Ps2.run_append] at hz
  have hr : Ps2.Received [] s := ⟨by simp [hc], by simp, nofun⟩
  have ⟨hp, hm⟩ : s.pushed (is ++ is' ++ is'') = _ ∧ (s.run (is ++ is' ++ is'')).count.toNat = _ :=
    Ps2.pushed_eq_decode hr
  rw [hf] at hp hm
  refine ⟨b'', is ++ is' ++ is'', ?_, hp.trans Ps2.filterMap_cut_frames, ?_, hz, hi, hk, hk', hd⟩
  case refine_1 => simp [transmit_append, ht, ht', ht'']
  case refine_2 =>
    refine BitVec.eq_of_toNat_eq (hm.trans ?_)
    exact (congrArg (· % 11) Ps2.length_frames).trans (Nat.mul_mod_left ..)

theorem receives_queued_press : ∃ b is,
    powerOn.transmit (fun k => ⟨k, 0⟩) ([⟨[(0x1C, true)], true⟩] ++ List.replicate 244 ⟨[], true⟩) = some (b, is) ∧
    Ps2.blank.pushed is = [0x1C] := by
  have h : ∀ c ∈ List.replicate 244 (⟨[], true⟩ : Cycle), c.events = [] := fun c hc => by
    rw [List.eq_of_mem_replicate hc]
  have ⟨b, is, ht, hp, _⟩ := (receives_queued (fun k => ⟨k, 0⟩) Ps2.blank rfl rfl [⟨[(0x1C, true)], true⟩]).right
    (List.replicate 244 ⟨[], true⟩) h (by rw [List.length_replicate]; decide)
  exact ⟨b, is, ht, hp⟩

end Agree

end Board
end Keyboard
