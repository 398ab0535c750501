import Ysyx.Keyboard.Receiver

-- The receiver decodes the groups of 11 bits that it samples, and with them the frames that are sent.

namespace Keyboard.Ps2

variable {s : Ps2} {i : Input} {is : List Input} {codes : List Byte} {rest : List Bool} {b d : Bool}
variable {code : Byte} {group : BitVec 11} {groups : List (BitVec 11)}

section Groups

theorem bits_eq : bits group = [group.getLsbD 0, group.getLsbD 1, group.getLsbD 2, group.getLsbD 3,
    group.getLsbD 4, group.getLsbD 5, group.getLsbD 6, group.getLsbD 7, group.getLsbD 8, group.getLsbD 9,
    group.getLsbD 10] := rfl

theorem length_flatMap_bits : (groups.flatMap bits).length = groups.length * 11 := by
  simp [List.length_flatMap, bits]

theorem cut_bits_append : cut (bits group ++ rest) = group :: cut rest := by
  rw [bits_eq]
  simp only [List.cons_append, List.nil_append, cut]
  congr 1
  apply BitVec.eq_of_getLsbD_eq
  intro j hj
  rw [BitVec.getLsbD_ofBoolListLE]
  match j with
  | 0 | 1 | 2 | 3 | 4 | 5 | 6 | 7 | 8 | 9 | 10 => rfl

theorem cut_of_length_lt (h : rest.length < 11) : cut rest = [] := by
  unfold cut
  split
  case _ => simp at h; omega
  case _ => rfl

theorem cut_groups (h : rest.length < 11) : cut (groups.flatMap bits ++ rest) = groups := by
  induction groups
  case nil => exact cut_of_length_lt h
  case cons g gs hi => rw [List.flatMap_cons, List.append_assoc, cut_bits_append, hi]

theorem cut_prefix {bits bits' : List Bool} (h : bits <+: bits') : cut bits <+: cut bits' := by
  have ⟨rest, hr⟩ := h
  rw [← hr]
  clear hr h
  fun_induction cut bits
  case case1 hi =>
    simp only [List.cons_append, cut]
    exact (List.prefix_cons_inj _).mpr hi
  case case2 => exact List.nil_prefix

end Groups

section Parity

theorem foldl_xor {α : Type} {f : α → Bool} {l : List α} {p : Bool} :
    l.foldl (fun p i => p ^^ f i) p = (p ^^ decide (l.countP f % 2 = 1)) := by
  induction l generalizing p
  case nil => simp
  case cons x l hi =>
    rw [List.foldl_cons, hi, List.countP_cons]
    cases hx : f x
    case false => simp
    case true =>
      have : (l.countP f + 1) % 2 = 1 ↔ ¬l.countP f % 2 = 1 := by omega
      simp only [if_true, this, decide_not]
      cases p <;> cases decide (l.countP f % 2 = 1) <;> rfl

theorem reduceXor_eq {n : Nat} {x : BitVec n} :
    reduceXor x = decide ((List.range n).countP x.getLsbD % 2 = 1) := by
  rw [reduceXor, foldl_xor, Bool.false_xor]

-- The parity of the nine bits from bit 1 on.
theorem reduceXor_extract {n : Nat} {x : BitVec n} :
    reduceXor (x.extractLsb' 1 9) = decide ((List.range' 1 9).countP x.getLsbD % 2 = 1) := by
  have h : (List.range 9).countP (x.extractLsb' 1 9).getLsbD = (List.range' 1 9).countP x.getLsbD := by
    rw [List.range'_eq_map_range, List.countP_map]
    refine List.countP_congr fun j hj => ?_
    have := List.mem_range.mp hj
    simp [this]
  rw [reduceXor_eq, h]

theorem decode_eq : decode group = if !group.getLsbD 0 && group.getLsbD 10 && reduceXor (group.extractLsb' 1 9)
    then some (group.extractLsb' 1 8) else none := by
  rw [decode, reduceXor_extract]
  simp [and_assoc]

theorem decode_send_buffer {code : Byte} : decode (send_buffer code) = some code := by
  have h : ∀ code : Byte, decode (send_buffer code) = some code := by decide +kernel
  exact h code

end Parity

section Sampling

theorem push?_of_not_sampling (h : s.sampling = false) : s.push? d = none := by
  rw [push?, h]
  rfl

theorem getLsbD_setBit {n j k : Nat} {x : BitVec n} (hk : k < n) :
    (setBit x k b).getLsbD j = if j = k then b else x.getLsbD j := by
  rw [setBit, BitVec.getLsbD_or, BitVec.getLsbD_and, BitVec.getLsbD_not, BitVec.getLsbD_twoPow]
  by_cases hj : j = k
  case pos => cases b <;> simp [hj, hk]
  case neg =>
    have hk' : k ≠ j := fun h => hj h.symm
    by_cases hn : j < n
    case pos => cases b <;> simp [hj, hk', hn]
    case neg => cases b <;> simp [hj, hk', hn, BitVec.getLsbD_of_ge x j (Nat.le_of_not_lt hn)]

-- The bits `rest` have been sampled since the last complete group.
structure Received (rest : List Bool) (s : Ps2) : Prop where
  count  : s.count.toNat = rest.length
  le     : rest.length ≤ 10
  buffer : ∀ k (h : k < rest.length), s.buffer.getLsbD k = rest[k]

namespace Received

theorem idle (h : Received rest s) (hs : s.sampling = false) : Received rest (s.step i) := by
  have hc : (s.step i).count = s.count := by simp [step, edge, hs]
  have hb : (s.step i).buffer = s.buffer := by simp [step, edge, hs]
  exact ⟨hc ▸ h.count, h.le, hb ▸ h.buffer⟩

theorem store (h : Received rest s) (hs : s.sampling = true) (hl : rest.length < 10) :
    Received (rest ++ [i.ps2_data]) (s.step i) := by
  have hn : s.count ≠ 10#4 := fun he => by
    have := h.count
    rw [he] at this
    exact absurd hl (by rw [← this]; decide)
  have hc : (s.step i).count = s.count + 1 := by simp [step, edge, hs, hn]
  have hb : (s.step i).buffer = setBit s.buffer s.count.toNat i.ps2_data := by simp [step, edge, hs, hn]
  refine ⟨?count, by simp; omega, ?buffer⟩
  case count =>
    rw [hc, List.length_append, List.length_singleton, ← h.count]
    have := h.count
    bv_omega
  case buffer =>
    intro k hk
    rw [hb, getLsbD_setBit (by have := h.count; omega), h.count]
    rw [List.length_append, List.length_singleton] at hk
    split
    case isTrue he => simp [he]
    case isFalse he =>
      have hk : k < rest.length := by omega
      rw [h.buffer k hk, List.getElem_append_left hk]

theorem bits_cons (h : Received rest s) (hl : rest.length = 10) :
    Ps2.bits (BitVec.cons d s.buffer) = rest ++ [d] := by
  refine List.ext_getElem (by simp [Ps2.bits, hl]) fun k hk _ => ?_
  rw [Ps2.bits, List.length_map, List.length_range] at hk
  simp only [Ps2.bits]
  rw [ List.getElem_map, List.getElem_range, BitVec.getLsbD_cons]
  split
  case isTrue he => simp [he, hl]
  case isFalse he =>
    have hk : k < rest.length := by omega
    rw [h.buffer k hk, List.getElem_append_left hk]

theorem complete (h : Received rest s) (hs : s.sampling = true) (hl : rest.length = 10) :
    Received [] (s.step i) ∧ s.push? i.ps2_data = decode (BitVec.cons i.ps2_data s.buffer) := by
  have hn : s.count = 10#4 := BitVec.eq_of_toNat_eq (h.count.trans hl)
  have hc : (s.step i).count = 0 := by simp [step, edge, hs, hn]
  refine ⟨⟨by rw [hc]; rfl, by simp, nofun⟩, ?_⟩
  have h₀ : (BitVec.cons i.ps2_data s.buffer).getLsbD 0 = s.buffer.getLsbD 0 := BitVec.getLsbD_cons ..
  have h₁ : (BitVec.cons i.ps2_data s.buffer).getLsbD 10 = i.ps2_data := BitVec.getLsbD_cons ..
  have hx : ∀ n ≤ 9, (BitVec.cons i.ps2_data s.buffer).extractLsb' 1 n = s.buffer.extractLsb' 1 n := by
    intro n hn
    apply BitVec.eq_of_getLsbD_eq
    intro j hj
    have : 1 + j ≠ 10 := by omega
    simp [BitVec.getLsbD_cons, this]
  rw [decode_eq, h₀, h₁, hx 9 (by decide), hx 8 (by decide), push?, hs, hn]
  simp [validFrame]

-- One cycle: the sampled bit, if there is one, goes to the current group, and a complete group is decoded.
theorem step (h : Received rest s) : ∃ (groups : List (BitVec 11)) (rest' : List Bool),
    groups.flatMap Ps2.bits ++ rest' = rest ++ (if s.sampling then some i.ps2_data else none).toList ∧
    groups.filterMap decode = (s.push? i.ps2_data).toList ∧ Received rest' (s.step i) := by
  cases hs : s.sampling
  case false => exact ⟨[], rest, by simp, by simp [push?_of_not_sampling hs], h.idle hs⟩
  case true =>
    by_cases hl : rest.length = 10
    case pos =>
      have ⟨hr, hp⟩ := h.complete (i := i) hs hl
      refine ⟨[BitVec.cons i.ps2_data s.buffer], [], by simp [h.bits_cons hl], ?_, hr⟩
      rw [hp]
      cases hd : decode (BitVec.cons i.ps2_data s.buffer) <;> simp [hd]
    case neg =>
      have hl : rest.length < 10 := by have := h.le; omega
      have hn : s.count ≠ 10#4 := fun he => by have := h.count; simp [he] at this; omega
      exact ⟨[], _, by simp, by simp [push?, hn], h.store hs hl⟩

theorem run (is : List Input) (h : Received [] s) : ∃ (groups : List (BitVec 11)) (rest : List Bool),
    groups.flatMap Ps2.bits ++ rest = s.samples is ∧ groups.filterMap decode = s.pushed is ∧
    Received rest (s.run is) := by
  rw [samples, pushed, Ps2.run]
  induction is using List.reverseRecOn
  case nil => exact ⟨[], [], rfl, rfl, h⟩
  case append_singleton is i hi =>
    have ⟨gs, rest, hb, hp, hr⟩ := hi
    have ⟨gs', rest', hb', hp', hr'⟩ := hr.step (i := i)
    refine ⟨gs ++ gs', rest', ?_, ?_, by simpa using hr'⟩
    case _ => simp [← hb, hb']
    case _ => simp [← hp, hp']

end Received

theorem received_cleared : Received [] (s.cleared i) :=
  ⟨by simp [cleared, edge], by simp, nofun⟩

-- The written codes are those of the valid frames among the complete groups.
theorem pushed_eq_decode (h : Received [] s) : s.pushed is = (cut (s.samples is)).filterMap decode ∧
    (s.run is).count.toNat = (s.samples is).length % 11 := by
  have ⟨gs, rest, hb, hp, hr⟩ := h.run is
  have hl : rest.length < 11 := Nat.lt_succ_of_le hr.le
  rw [← hb, cut_groups hl, hp, hr.count, List.length_append, length_flatMap_bits]
  exact ⟨rfl, by omega⟩

end Sampling

section Sending

variable {low high idle : List Input} {bs : List Bool}

@[simp] theorem samples_nil : s.samples [] = [] := (rfl)
@[simp] theorem run_nil : s.run [] = s := (rfl)
@[simp] theorem run_cons : s.run (i :: is) = (s.step i).run is := (rfl)

theorem samples_cons : s.samples (i :: is) =
    (if s.sampling then some i.ps2_data else none).toList ++ (s.step i).samples is := (rfl)

theorem samples_append {js : List Input} : s.samples (is ++ js) = s.samples is ++ (s.run is).samples js :=
  Clocked.emitted_append

theorem run_append {js : List Input} : s.run (is ++ js) = (s.run is).run js :=
  Clocked.feed_append

theorem step_sync : (s.step i).ps2_clk_sync = s.ps2_clk_sync.extractLsb' 0 2 ++ BitVec.ofBool i.ps2_clk := (rfl)

-- A level that has reached all three stages of the synchroniser.
theorem samples_level {c : Bool} (hs : s.ps2_clk_sync = BitVec.fill 3 c) (h : ∀ i ∈ is, i.ps2_clk = c) :
    s.samples is = [] ∧ (s.run is).ps2_clk_sync = BitVec.fill 3 c := by
  induction is generalizing s
  case nil => exact ⟨rfl, hs⟩
  case cons i is hi =>
    have hn : (s.step i).ps2_clk_sync = BitVec.fill 3 c := by
      rw [step_sync, hs, h i List.mem_cons_self]
      cases c <;> rfl
    have hk : s.sampling = false := by
      rw [sampling, hs]
      cases c <;> rfl
    have ⟨hl, hr⟩ := hi hn fun i hi => h i (List.mem_cons_of_mem _ hi)
    exact ⟨by rw [samples_cons, hk, hl]; rfl, hr⟩

theorem samples_high (hs : Quiescent s.ps2_clk_sync) (hl : 4 ≤ high.length) (h : ∀ i ∈ high, i.ps2_clk = true) :
    s.samples high = [] ∧ (s.run high).ps2_clk_sync = BitVec.fill 3 true := by
  match high with
  | i₁ :: i₂ :: i₃ :: high =>
    have h₁ : i₁.ps2_clk = true := h i₁ (by simp)
    have h₂ : i₂.ps2_clk = true := h i₂ (by simp)
    have h₃ : i₃.ps2_clk = true := h i₃ (by simp)
    have hq : (((s.step i₁).step i₂).step i₃).ps2_clk_sync = BitVec.fill 3 true ∧ s.sampling = false ∧
        (s.step i₁).sampling = false ∧ ((s.step i₁).step i₂).sampling = false := by
      simp only [sampling, step_sync, h₁, h₂, h₃]
      simp only [Quiescent, List.mem_cons, List.not_mem_nil, or_false] at hs
      obtain hs | hs | hs | hs := hs <;> rw [hs] <;> decide
    have ⟨h₃, hs₀, hs₁, hs₂⟩ := hq
    have hh : ∀ i ∈ high, i.ps2_clk = true := fun i hi => h i (by simp [hi])
    have ⟨hl, hr⟩ := samples_level h₃ hh
    exact ⟨by simp [samples_cons, hs₀, hs₁, hs₂, hl], hr⟩

theorem samples_low (hs : s.ps2_clk_sync = BitVec.fill 3 true) (hl : 4 ≤ low.length)
    (h : ∀ i ∈ low, i.ps2_clk = false ∧ i.ps2_data = b) :
    s.samples low = [b] ∧ (s.run low).ps2_clk_sync = BitVec.fill 3 false := by
  match low with
  | i₁ :: i₂ :: i₃ :: low =>
    have h₁ : i₁.ps2_clk = false := (h i₁ (by simp)).left
    have h₂ : i₂.ps2_clk = false := (h i₂ (by simp)).left
    have h₃ : i₃.ps2_clk = false ∧ i₃.ps2_data = b := h i₃ (by simp)
    have hq : (((s.step i₁).step i₂).step i₃).ps2_clk_sync = BitVec.fill 3 false ∧ s.sampling = false ∧
        (s.step i₁).sampling = false ∧ ((s.step i₁).step i₂).sampling = true := by
      simp only [sampling, step_sync, h₁, h₂, h₃, hs]
      decide
    have ⟨hn, hs₀, hs₁, hs₂⟩ := hq
    have hh : ∀ i ∈ low, i.ps2_clk = false := fun i hi => (h i (by simp [hi])).left
    have ⟨hl, hr⟩ := samples_level hn hh
    exact ⟨by simp [samples_cons, hs₀, hs₁, hs₂, hl, h₃.right], hr⟩

theorem quiescent_fill {c : Bool} : Quiescent (BitVec.fill 3 c) := by
  cases c <;> simp [Quiescent, BitVec.fill]

-- A transmission is sampled bit by bit.
theorem Sends.samples (h : Sends bs is) (hs : s.ps2_clk_sync = BitVec.fill 3 true) :
    s.samples is = bs ∧ (s.run is).ps2_clk_sync = BitVec.fill 3 true := by
  induction h generalizing s
  case nil => exact ⟨rfl, hs⟩
  case cons b bs low high is hll hl hlh hh _ hi =>
    have ⟨hl, hsl⟩ := samples_low hs hll hl
    have ⟨hh, hsh⟩ := samples_high (hsl ▸ quiescent_fill) hlh hh
    have ⟨hi, hr⟩ := hi hsh
    simp only [samples_append, run_append, hl, hh, hi, hr, List.append_nil, List.singleton_append, and_self]

end Sending

section Frames

variable {idle : List Input}

theorem filterMap_decode_frames : (codes.map send_buffer).filterMap decode = codes := by
  induction codes
  case nil => rfl
  case cons code codes hi => rw [List.map_cons, List.filterMap_cons_some decode_send_buffer, hi]

theorem flatMap_frames :
    codes.flatMap (fun code => bits (send_buffer code)) = (codes.map send_buffer).flatMap bits := by
  rw [List.flatMap_map]

theorem filterMap_cut_frames :
    (cut (codes.flatMap fun code => bits (send_buffer code))).filterMap decode = codes := by
  have hg : cut ((codes.map send_buffer).flatMap bits ++ []) = codes.map send_buffer := cut_groups (by decide)
  rw [List.append_nil] at hg
  rw [flatMap_frames, hg, filterMap_decode_frames]

theorem length_frames : (codes.flatMap fun code => bits (send_buffer code)).length = codes.length * 11 := by
  rw [flatMap_frames, length_flatMap_bits, List.length_map]

-- The frames of some codes, sent after an idle level.
theorem pushed_frames (h : Received [] s) (hs : Quiescent s.ps2_clk_sync)
    (hl : 4 ≤ idle.length) (hi : ∀ i ∈ idle, i.ps2_clk = true)
    (hf : Sends (codes.flatMap fun code => bits (send_buffer code)) is) :
    s.pushed (idle ++ is) = codes ∧ (s.run (idle ++ is)).count = 0 := by
  have ⟨hsi, hri⟩ := samples_high hs hl hi
  have hb : s.samples (idle ++ is) = codes.flatMap fun code => bits (send_buffer code) := by
    rw [samples_append, hsi, (hf.samples hri).left, List.nil_append]
  have ⟨hp, hc⟩ : s.pushed (idle ++ is) = _ ∧ (s.run (idle ++ is)).count.toNat = _ := pushed_eq_decode h
  rw [hb] at hp hc
  refine ⟨by rw [hp, filterMap_cut_frames], BitVec.eq_of_toNat_eq ?_⟩
  rw [hc, length_frames]
  exact Nat.mul_mod_left ..

theorem decode_eq_some_iff : decode group = some code ↔
    group.getLsbD 0 = false ∧ group.getLsbD 10 = true ∧ (List.range' 1 9).countP group.getLsbD % 2 = 1 ∧
    ∀ k < 8, code.getLsbD k = group.getLsbD (1 + k) := by
  have hc : group.extractLsb' 1 8 = code ↔ ∀ k < 8, code.getLsbD k = group.getLsbD (1 + k) := by
    constructor
    case mp =>
      intro h k hk
      rw [← h, BitVec.getLsbD_extractLsb', decide_eq_true hk, Bool.true_and]
    case mpr =>
      intro h
      refine BitVec.eq_of_getLsbD_eq fun k hk => ?_
      rw [h k hk, BitVec.getLsbD_extractLsb', decide_eq_true hk, Bool.true_and]
  rw [decode, ← hc]
  split
  case isTrue hv => exact ⟨fun h => ⟨hv.1, hv.2.1, hv.2.2, Option.some.inj h⟩, fun h => congrArg some h.2.2.2⟩
  case isFalse hv => exact ⟨nofun, fun ⟨h₀, h₁, h₂, _⟩ => absurd ⟨h₀, h₁, h₂⟩ hv⟩

-- From reset the receiver writes exactly the bytes that are sent in frames, whatever the phase of `ps2_clk`, and
-- from any bits that it samples exactly the bytes of the groups that are valid frames.
theorem receives_frames (s : Ps2) (i : Input) :
    (∀ (codes : List Byte) (idle is : List Input),
      Quiescent (s.cleared i).ps2_clk_sync → 4 ≤ idle.length → (∀ i ∈ idle, i.ps2_clk = true) →
      Sends (codes.flatMap fun code => bits (send_buffer code)) is →
      (s.cleared i).pushed (idle ++ is) = codes ∧ ((s.cleared i).run (idle ++ is)).count = 0) ∧
    (∀ is : List Input, (s.cleared i).pushed is = (cut ((s.cleared i).samples is)).filterMap decode) ∧
    (∀ (group : BitVec 11) (b : Byte), decode group = some b ↔
      group.getLsbD 0 = false ∧ group.getLsbD 10 = true ∧ (List.range' 1 9).countP group.getLsbD % 2 = 1 ∧
      ∀ k < 8, b.getLsbD k = group.getLsbD (1 + k)) :=
  ⟨fun _ _ _ hs hl hi hf => pushed_frames received_cleared hs hl hi hf,
   fun _ => (pushed_eq_decode received_cleared).left, fun _ _ => decode_eq_some_iff⟩

-- A transmission whose levels all last `n` cycles.
def waves (n : Nat) (bs : List Bool) : List Input :=
  bs.flatMap fun b => List.replicate n ⟨false, b, true⟩ ++ List.replicate n ⟨true, b, true⟩

theorem sends_waves {n : Nat} {bs : List Bool} (h : 4 ≤ n) : Sends bs (waves n bs) := by
  induction bs
  case nil => exact .nil
  case cons b bs hi =>
    refine .cons (by simpa using h) ?low (by simpa using h) ?high hi
    case low => exact fun i hi => by simp [List.eq_of_mem_replicate hi]
    case high => exact fun i hi => by simp [List.eq_of_mem_replicate hi]

def blank : Ps2 where
  buffer       := 0
  fifo         := fun _ => 0
  w_ptr        := 0
  r_ptr        := 0
  ready        := false
  overflow     := false
  count        := 0
  ps2_clk_sync := 0

theorem receives_frames_press :
    (blank.cleared ⟨true, true, true⟩).pushed
      (List.replicate 4 ⟨true, true, true⟩ ++ waves 6 ([0x1C, 0xF0, 0x1C].flatMap fun code => bits (send_buffer code)))
        = [0x1C, 0xF0, 0x1C] :=
  ((receives_frames blank ⟨true, true, true⟩).left [0x1C, 0xF0, 0x1C] _ _ (by simp [Quiescent, cleared, edge, blank])
    (by decide) (fun i hi => by simp [List.eq_of_mem_replicate hi]) (sends_waves (by decide))).left

end Frames
end Keyboard.Ps2
