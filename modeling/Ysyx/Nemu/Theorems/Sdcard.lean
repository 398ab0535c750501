import Ysyx.Nemu.Sdcard
import Ysyx.Nemu.Theorems.Paddr

-- Which histories of accesses find a block device.

namespace Nemu.Sdcard

variable {cfg : Config} {base : HostAddr} {low offset b c data v : Word} {s s' s₁ s₂ s₃ : State Card} {f f' : FILE}
variable {a : Access} {as : List Access} {is_write w : Bool} {len cmd i n size : Nat}
variable {P Q : State Card → Access → Prop}

def Step (cfg : Config) (base : HostAddr) (low : Word) (a : Access) (s : State Card) (v : Word) (s' : State Card) :
    Prop :=
  a.run base cfg low s = .ok v s'

-- The accesses `as` lead from `s` to `s'`, and each of them meets `P`.
inductive Run (cfg : Config) (base : HostAddr) (low : Word) (P : State Card → Access → Prop) (s : State Card) :
    List Access → State Card → Prop
  | refl : Run cfg base low P s [] s
  | step {as : List Access} {s₁ s₂ : State Card} {a : Access} {v : Word} :
    Run cfg base low P s as s₁ → P s₁ a → Step cfg base low a s₁ v s₂ → Run cfg base low P s (as ++ [a]) s₂

-- The registers.

theorem reg_setReg_of_ne (h : i ≠ n) (hi : i < 32) (hn : n < 32) : reg base i (setReg base n v s) = reg base i s := by
  refine Memory.load32_store_disjoint ?_ ?_ ?_ <;> omega

-- `setReg` is used for the registers from the first response register on.
theorem reg_setReg (hi : i < 4) (hn : 4 ≤ n ∧ n < 32) : reg base i (setReg base n v s) = reg base i s :=
  reg_setReg_of_ne (by omega) (by omega) hn.right

-- A command changes the response registers at most.
theorem reg_handle_cmd (h : sdcard_handle_cmd base cmd s = .ok s') (hi : i < 4) : reg base i s' = reg base i s := by
  unfold sdcard_handle_cmd at h
  split at h <;> cases h
  case h_2 | h_3 | h_5 | h_14 => simp (disch := decide) only [reg_setReg hi]
  all_goals rfl

-- The commands that start a transfer.
def Starts (cmd : Nat) : Prop :=
  cmd = MMC_SEND_EXT_CSD ∨ cmd = MMC_READ_MULTIPLE_BLOCK ∨ cmd = MMC_WRITE_MULTIPLE_BLOCK

theorem handle_cmd_read (h : sdcard_handle_cmd base MMC_READ_MULTIPLE_BLOCK s = .ok s') :
    s' = prepare_rw base false s := by
  cases h
  rfl

theorem handle_cmd_write (h : sdcard_handle_cmd base MMC_WRITE_MULTIPLE_BLOCK s = .ok s') :
    s' = prepare_rw base true s := by
  cases h
  rfl

theorem handle_cmd_device (h : sdcard_handle_cmd base cmd s = .ok s') (hc : ¬Starts cmd) :
    s'.device = { s.device with blkcnt := s'.device.blkcnt } := by
  unfold sdcard_handle_cmd at h
  split at h <;> cases h
  case h_6 | h_12 | h_13 => simp [Starts] at hc
  all_goals rfl

-- The bus.

theorem invoke_sdhci (h : invoke_callback (sdhci base low) offset len w s = .ok .unit s') :
    sdcard_io_handler base offset len w s = .ok s' := by
  rw [invoke_callback_some (c := sdcard_io_handler base) rfl] at h
  split at h <;> cases h
  assumption

theorem host_read_state {x : HostAddr} (h : host_read cfg x len s = .ok v s') : s' = s := by
  unfold host_read at h
  rw [EState.get_bind] at h
  split at h
  case h_4 =>
    split at h <;> cases h
    rfl
  all_goals
    cases h
    rfl

theorem Step.read (h : Step cfg base low (.read offset len) s v s') :
    sdcard_io_handler base offset len false s = .ok s' ∧
      host_read cfg (base + offset.setWidth 64) len s' = .ok v s' := by
  have ⟨_, s₁, h₁, h₂⟩ := map_read_ok h
  have ho : low + offset - (sdhci base low).low = offset := add_sub_cancel_left low offset
  rw [ho] at h₁ h₂
  obtain rfl := host_read_state h₂
  exact ⟨invoke_sdhci h₁, h₂⟩

-- The state of the registers between a write and the callback.
def stored (base : HostAddr) (offset : Word) (len : Nat) (data : Word) (s : State Card) : State Card :=
  { s with host := s.host.store (base + offset.setWidth 64) len data }

theorem host_write_state {u : Unit} (h : host_write cfg (base + offset.setWidth 64) len data s = .ok u s₁) :
    (s₁ = s ∨ s₁ = stored base offset len data s) ∧
      (len = 1 ∨ len = 2 ∨ len = 4 → s₁ = stored base offset len data s) := by
  unfold host_write at h
  split at h
  case h_4 h₁ h₂ h₄ =>
    refine ⟨.inl ?_, fun hl => (hl.elim h₁ (·.elim h₂ h₄)).elim⟩
    split at h <;> cases h
    rfl
  all_goals
    cases h
    exact ⟨.inr rfl, fun _ => rfl⟩

theorem Step.write (h : Step cfg base low (.write offset len data) s v s') : ∃ s₁,
    (1 ≤ len ∧ len ≤ 8) ∧ (s₁ = s ∨ s₁ = stored base offset len data s) ∧
    (len = 1 ∨ len = 2 ∨ len = 4 → s₁ = stored base offset len data s) ∧
      sdcard_io_handler base offset len true s₁ = .ok s' := by
  have ⟨_, s₂, h₁, h₂⟩ := EState.bind_ok_iff.mp h
  cases h₂
  have ⟨hl, s₁, hw, hc⟩ := map_write_ok h₁
  have ho : low + offset - (sdhci base low).low = offset := add_sub_cancel_left low offset
  rw [ho] at hw hc
  have ⟨hs, hs'⟩ := host_write_state hw
  exact ⟨s₁, hl, hs, hs', invoke_sdhci hc⟩

theorem stored_eq : stored base offset len data s =
    { s with host := s.host.store (base + BitVec.ofNat 64 offset.toNat) len data } := by
  rw [stored, BitVec.ofNat_toNat]

theorem reg_stored (hi : i < 32) (hl : len ≤ 8) (h : 4 * i + 4 ≤ offset.toNat ∨ offset.toNat + len ≤ 4 * i) :
    reg base i (stored base offset len data s) = reg base i s := by
  have := offset.isLt
  rw [stored_eq]
  exact Memory.load32_store_disjoint h (by omega) (by omega)

-- The callback.

-- The command in `SDCMD`.
def command (base : HostAddr) (s : State Card) : Nat :=
  (reg base SDCMD s &&& 0x3f).toNat

inductive Handled (base : HostAddr) (s : State Card) : Nat → State Card → Prop
  | cmd {s' : State Card} : sdcard_handle_cmd base (command base s) s = .ok s' → Handled base s SDCMD s'
  | plain {i : Nat} : i ∈ [SDARG, SDRSP0, SDRSP1, SDRSP2, SDRSP3] → Handled base s i s
  | data : Handled base s SDDATA { transfer base s with device.addr := (transfer base s).device.addr + 4 }

theorem handler_handled (h : sdcard_io_handler base offset len w s = .ok s') :
    Handled base s (offset.toNat / 4) s' := by
  unfold sdcard_io_handler at h
  split at h
  case h_1 hi => exact hi ▸ .cmd h
  case h_7 hi =>
    cases h
    exact hi ▸ .data
  case h_8 => cases h
  case h_2 hi | h_3 hi | h_4 hi | h_5 hi | h_6 hi =>
    cases h
    rw [hi]
    exact .plain (by decide)

theorem transfer_of_ext_csd (base : HostAddr) (he : s.device.read_ext_csd = true) :
    (transfer base s).device.fp = s.device.fp ∧ (transfer base s).device.write_cmd = s.device.write_cmd := by
  simp only [transfer, he, if_true]
  split <;> exact ⟨rfl, rfl⟩

theorem transfer_read (he : s.device.read_ext_csd = false) (hw : s.device.write_cmd = false)
    (hf : s.device.fp = some f) : transfer base s = fread base f s := by
  simp [transfer, he, hw, hf]

theorem transfer_write (he : s.device.read_ext_csd = false) (hw : s.device.write_cmd = true)
    (hf : s.device.fp = some f) :
    transfer base s = { s with device.fp := some (f.fwrite (reg base SDDATA s)) } := by
  simp [transfer, he, hw, hf]

theorem reg_transfer (hi : i < 4) : reg base i (transfer base s) = reg base i s := by
  unfold transfer
  split
  case isTrue =>
    have hr : reg base i (setReg base SDDATA (ext_csd s.device.addr) s) = reg base i s := reg_setReg hi (by decide)
    simp only
    split <;> exact hr
  case isFalse =>
    split
    case h_2 => rfl
    case h_1 f _ =>
      split
      case isFalse => rfl
      case isTrue =>
        have ha : f.available ≤ 4 := Nat.min_le_left ..
        have hd : 4 * SDDATA = 64 := rfl
        exact Memory.load32_store_disjoint (.inl (by omega)) (by omega) (by omega)

theorem Handled.reg (h : Handled base s n s') (hi : i < 4) : reg base i s' = reg base i s := by
  cases h
  case cmd h => exact reg_handle_cmd h hi
  case plain => rfl
  case data => exact reg_transfer hi

-- An access is handled in a state that differs from the one before in written registers only.
theorem Step.handled (h : Step cfg base low a s v s') : ∃ s₁, s₁.device = s.device ∧
    (∀ i < 4, ¬a.Writes i → reg base i s₁ = reg base i s) ∧
    (¬a.Writes SDCMD → a.idx = SDCMD → s₁ = s) ∧ Handled base s₁ a.idx s' := by
  cases a
  case read => exact ⟨s, rfl, fun _ _ _ => rfl, fun _ _ => rfl, handler_handled h.read.left⟩
  case write =>
    have ⟨s₁, hl, hs, _, hh⟩ := h.write
    refine ⟨s₁, ?device, ?reg, ?same, handler_handled hh⟩
    case device => obtain rfl | rfl := hs <;> rfl
    case reg =>
      intro i hi hw
      obtain rfl | rfl := hs
      case inl => rfl
      case inr =>
        simp only [Access.Writes] at hw
        exact reg_stored (by omega) hl.right (by omega)
    case same =>
      intro hw hi
      simp only [Access.Writes, Access.idx] at hw hi
      omega

theorem Step.reg (h : Step cfg base low a s v s') (hi : i < 4) (hw : ¬a.Writes i) : reg base i s' = reg base i s := by
  have ⟨s₁, _, hr, _, hh⟩ := h.handled
  rw [hh.reg hi, hr i hi hw]

theorem Run.reg (h : Run cfg base low P s as s') (hi : i < 4) (hw : ∀ s a, P s a → ¬a.Writes i) :
    reg base i s' = reg base i s := by
  induction h
  case refl => rfl
  case step hp hs ih => rw [hs.reg hi (hw _ _ hp), ih]

-- Transfers.

-- The command in `SDCMD` has nothing to undo: it starts no transfer, or nothing has been transferred since it did,
-- and `SDARG` still names the block where the file stands.
def Idle (base : HostAddr) (s : State Card) : Prop :=
  match command base s with
  | MMC_SEND_EXT_CSD => s.device.addr = 0
  | MMC_READ_MULTIPLE_BLOCK | MMC_WRITE_MULTIPLE_BLOCK =>
    s.device.addr = 0 ∧ ∀ f ∈ s.device.fp, f.pos = 512 * (reg base SDARG s).toNat
  | _ => True

-- `SDDATA` is accessed by words in the direction of the transfer, which is none of the EXT_CSD, and the accesses that
-- execute the command in `SDCMD` again have no effect.
structure Regular (base : HostAddr) (s : State Card) (a : Access) : Prop where
  data : a.idx = SDDATA → (s.device.read_ext_csd = false ↔ a.isData s.device.write_cmd = true)
  cmd  : a.idx = SDCMD → ¬a.Writes SDCMD → Idle base s

theorem isData_read (h : (Access.read offset len).isData w = true) : w = false ∧ offset = 64 ∧ len = 4 := by
  simpa [Access.isData, and_assoc] using h

theorem isData_write (h : (Access.write offset len data).isData w = true) : w = true ∧ offset = 64 ∧ len = 4 := by
  simpa [Access.isData, and_assoc] using h

theorem idx_of_isData (h : a.isData w = true) : a.idx = SDDATA := by
  cases a
  case read =>
    obtain ⟨_, rfl, _⟩ := isData_read h
    rfl
  case write =>
    obtain ⟨_, rfl, _⟩ := isData_write h
    rfl

theorem Regular.not_ext_csd (h : Regular base s a) (ha : a.isData s.device.write_cmd = true) :
    s.device.read_ext_csd = false :=
  (h.data (idx_of_isData ha)).mpr ha

-- What a word of a transfer that stands at `k` has to achieve.
def Access.Done (k : Nat) (v : Word) (f f' : FILE) : Access → Prop
  | read ..        => v = f.word k ∧ f'.data = f.data ∧ f'.size = f.size
  | write _ _ data => f'.data = FILE.put f.data k data ∧ f'.size = f.size

def transferCmd (is_write : Bool) : Nat :=
  if is_write then MMC_WRITE_MULTIPLE_BLOCK else MMC_READ_MULTIPLE_BLOCK

-- The transfer stands at `k` in an image with `size` bytes.
structure Transferring (base : HostAddr) (is_write : Bool) (size k : Nat) (s : State Card) : Prop where
  file      : ∃ f, s.device.fp = some f ∧ f.size = size ∧ f.pos = k
  write_cmd : s.device.write_cmd = is_write
  command   : command base s = transferCmd is_write

variable {k : Nat}

theorem blk_addr_toNat : ((b.setWidth 64 : BitVec 64) <<< 9).toNat = 512 * b.toNat := by
  have := b.isLt
  rw [BitVec.toNat_shiftLeft, BitVec.toNat_setWidth, Nat.shiftLeft_eq]
  omega

theorem prepare_rw_fp (hf : s.device.fp = some f) :
    (prepare_rw base is_write s).device.fp = some (f.fseek (512 * (reg base SDARG s).toNat)) := by
  simp only [prepare_rw, hf, Option.map_some, blk_addr_toNat]

theorem handle_transferCmd (h : sdcard_handle_cmd base (transferCmd is_write) s = .ok s') :
    s' = prepare_rw base is_write s := by
  cases is_write
  case false => exact handle_cmd_read h
  case true => exact handle_cmd_write h

theorem available_eq (h : k + 4 ≤ size) (hf : f.size = size) (hp : f.pos = k) : f.available = 4 := by
  rw [FILE.available]
  omega

theorem fwrite_inside (h : f.pos + 4 ≤ f.size) (v : Word) :
    (f.fwrite v).data = FILE.put f.data f.pos v ∧ (f.fwrite v).size = f.size := by
  refine ⟨?_, Nat.max_eq_left h⟩
  have hg : (fun i => if f.size ≤ i ∧ i < f.pos then 0 else f.data i) = f.data := by
    funext i
    exact if_neg (by omega)
  rw [FILE.fwrite, hg]

theorem command_congr (h : reg base SDCMD s' = reg base SDCMD s) : command base s' = command base s := by
  rw [command, command, h]

-- One word of the transfer.

theorem Transferring.word_read (h : Transferring base false size k s) (hs : Step cfg base low (.read 64 4) s v s')
    (he : s.device.read_ext_csd = false) (hf : s.device.fp = some f) (hk : k + 4 ≤ size) :
    Transferring base false size (k + 4) s' ∧
      ∃ f', s'.device.fp = some f' ∧ v = f.word k ∧ f'.data = f.data ∧ f'.size = f.size := by
  have ⟨f₁, hf₁, hz, hp⟩ := h.file
  obtain rfl : f₁ = f := Option.some.inj (hf₁.symm.trans hf)
  have ⟨hh, hv⟩ := hs.read
  have hc := command_congr (hs.reg (by decide) nofun)
  have ha := available_eq hk hz hp
  have ht : s' = { transfer base s with device.addr := (transfer base s).device.addr + 4 } := (Except.ok.inj hh).symm
  have hv : v = s'.host.load32 (base + BitVec.ofNat 64 (4 * SDDATA)) := by
    cases hv
    rfl
  rw [transfer_read he h.write_cmd hf] at ht
  have hw : v = f₁.word k := by
    rw [hv, ht, ← hp]
    simp only [fread, ha]
    exact Memory.load32_store_same (by decide)
  rw [ht] at hc ⊢
  exact ⟨⟨⟨_, rfl, hz, by rw [ha, hp]⟩, h.write_cmd, hc.trans h.command⟩, _, rfl, hw, rfl, rfl⟩

theorem Transferring.word_write (h : Transferring base true size k s)
    (hs : Step cfg base low (.write 64 4 data) s v s') (he : s.device.read_ext_csd = false)
    (hf : s.device.fp = some f) (hk : k + 4 ≤ size) : Transferring base true size (k + 4) s' ∧
      ∃ f', s'.device.fp = some f' ∧ f'.data = FILE.put f.data k data ∧ f'.size = f.size := by
  have ⟨f₁, hf₁, hz, hp⟩ := h.file
  obtain rfl : f₁ = f := Option.some.inj (hf₁.symm.trans hf)
  have ⟨s₁, _, _, h₁, hh⟩ := hs.write
  obtain rfl := h₁ (by decide)
  have hc := command_congr (hs.reg (by decide) (by simp [Access.Writes]))
  have ht : s' = _ := (Except.ok.inj hh).symm
  have hd : reg base SDDATA (stored base 64 4 data s) = data := Memory.load32_store_same (by decide)
  rw [transfer_write (s := stored base 64 4 data s) he h.write_cmd hf, hd] at ht
  have ⟨hw, hz'⟩ := fwrite_inside (f := f₁) (by omega) data
  rw [ht] at hc ⊢
  exact ⟨⟨⟨_, rfl, hz'.trans hz, congrArg (· + 4) hp⟩, h.write_cmd, hc.trans h.command⟩, _, rfl, hp ▸ hw, hz'⟩

theorem Transferring.word (h : Transferring base is_write size k s) (hs : Step cfg base low a s v s')
    (ha : a.isData is_write = true) (he : s.device.read_ext_csd = false) (hf : s.device.fp = some f)
    (hk : k + 4 ≤ size) : Transferring base is_write size (k + 4) s' ∧
      ∃ f', s'.device.fp = some f' ∧ a.Done k v f f' := by
  cases a
  case read =>
    obtain ⟨rfl, rfl, rfl⟩ := isData_read ha
    exact h.word_read hs he hf hk
  case write =>
    obtain ⟨rfl, rfl, rfl⟩ := isData_write ha
    exact h.word_write hs he hf hk

theorem Idle.pos (h : Idle base s) (hc : command base s = transferCmd is_write) (hf : s.device.fp = some f) :
    f.pos = 512 * (reg base SDARG s).toNat := by
  rw [Idle, hc] at h
  cases is_write
  all_goals exact h.right f hf

-- Any other access leaves the transfer as it is.
theorem Transferring.other (h : Transferring base is_write size k s) (hs : Step cfg base low a s v s')
    (hw : ¬a.Writes SDCMD) (hr : Regular base s a) (ha : a.isData is_write = false) :
    Transferring base is_write size k s' := by
  have ⟨f, hf, hz, hp⟩ := h.file
  have hc := command_congr (hs.reg (by decide) hw)
  have ⟨s₁, hd, _, hsame, hh⟩ := hs.handled
  generalize hi : a.idx = i at hh
  cases hh
  case cmd hh =>
    obtain rfl := hsame hw hi
    rw [h.command] at hh
    obtain rfl := handle_transferCmd hh
    have hp' := (hr.cmd hi hw).pos h.command hf
    exact ⟨⟨_, prepare_rw_fp hf, hz, hp'.symm.trans hp⟩, rfl, hc.trans h.command⟩
  case plain => exact ⟨hd ▸ h.file, hd ▸ h.write_cmd, hc.trans h.command⟩
  case data =>
    have he : s₁.device.read_ext_csd = true := by
      have := hr.data hi
      rw [h.write_cmd, ha] at this
      simpa [hd] using this
    have ⟨hfp, hwc⟩ := transfer_of_ext_csd base he
    exact ⟨hfp ▸ hd ▸ h.file, hwc.trans (hd ▸ h.write_cmd), hc.trans h.command⟩

theorem Transferring.step (h : Transferring base is_write size k s) (hs : Step cfg base low a s v s')
    (hw : ¬a.Writes SDCMD) (hr : Regular base s a) (hk : a.isData is_write = true → k + 4 ≤ size) :
    Transferring base is_write size (if a.isData is_write then k + 4 else k) s' := by
  split
  case isTrue ha =>
    have ⟨_, hf, _⟩ := h.file
    exact (h.word hs ha (hr.not_ext_csd (h.write_cmd ▸ ha)) hf (hk ha)).left
  case isFalse ha => exact h.other hs hw hr (Bool.eq_false_of_not_eq_true ha)

-- The words of a transfer follow each other.
theorem Transferring.run (h : Transferring base is_write size k s)
    (hr : Run cfg base low (fun s a => ¬a.Writes SDCMD ∧ Regular base s a) s as s')
    (hk : k + 4 * as.countP (·.isData is_write) ≤ size) :
    Transferring base is_write size (k + 4 * as.countP (·.isData is_write)) s' := by
  induction hr
  case refl => exact h
  case step as _ _ a _ _ hp hs ih =>
    rw [List.countP_append, List.countP_singleton] at hk ⊢
    have ht := (ih (by omega)).step hs hp.left hp.right fun ha => by
      rw [if_pos ha] at hk
      omega
    split at ht
    case isTrue ha =>
      rw [if_pos ha]
      exact ht
    case isFalse ha =>
      rw [if_neg ha]
      exact ht

-- The command that starts a transfer.

theorem and_command_toNat (v : Word) : (v &&& 0x3f).toNat = (v.byte 0).toNat % 2 ^ 6 := by
  have h : (0x3f : Word).toNat = 2 ^ 6 - 1 := rfl
  rw [BitVec.toNat_and, h, Nat.and_two_pow_sub_one_eq_mod, BitVec.toNat_byte]
  omega

theorem command_stored (hl : 1 ≤ len) : command base (stored base 0 len c s) = (c &&& 0x3f).toNat := by
  have hb : (reg base SDCMD (stored base 0 len c s)).byte 0 = c.byte 0 := by
    rw [reg, Memory.byte_load32 (by decide)]
    refine (Memory.store_of_mem ?_).trans ?_
    · rw [Memory.mem_region]
      simp [SDCMD]
      omega
    · simp [SDCMD, BitVec.byte]
  rw [command, and_command_toNat, and_command_toNat, hb]

theorem Transferring.start (hs : Step cfg base low (.write 0 len c) s v s') (hl : len = 1 ∨ len = 2 ∨ len = 4)
    (hc : (c &&& 0x3f).toNat = transferCmd is_write) (hf : s'.device.fp = some f) :
    Transferring base is_write f.size (512 * (reg base SDARG s).toNat) s' := by
  have ⟨s₁, hr, _, h₁, hh⟩ := hs.write
  obtain rfl := h₁ hl
  have hcmd : Sdcard.command base (stored base 0 len c s) = transferCmd is_write := (command_stored hr.left).trans hc
  have hk : reg base SDARG (stored base 0 len c s) = reg base SDARG s := reg_stored (by decide) hr.right (by
    right
    simp [SDARG]
    omega)
  have hh : sdcard_handle_cmd base (Sdcard.command base (stored base 0 len c s)) (stored base 0 len c s) = .ok s' := hh
  rw [hcmd] at hh
  obtain rfl := handle_transferCmd hh
  obtain ⟨f₀, hf₀, rfl⟩ := Option.map_eq_some_iff.mp hf
  exact ⟨⟨_, prepare_rw_fp hf₀, rfl, congrArg (512 * BitVec.toNat ·) hk⟩, rfl, hcmd⟩

theorem arg_stored (hs : Step cfg base low (.write (4 * SDARG) 4 b) s v s') : reg base SDARG s' = b := by
  have ⟨s₁, _, _, h₁, hh⟩ := hs.write
  obtain rfl := h₁ (by decide)
  have h := (handler_handled hh).reg (i := SDARG) (by decide)
  exact h.trans (Memory.load32_store_same (by decide))

-- What the card owes its driver. A transfer starts when `SDARG` has been written with `b` and then `SDCMD` with the
-- command, and goes on until a command is written again; `P` is what the accesses have to meet until then.
structure BlockDevice (cfg : Config) (base : HostAddr) (low : Word) (P : State Card → Access → Prop) : Prop where
  transfer : ∀ {s₀ s₁ s₂ s₃ s₄ s₅ b len c as₁ as₂ is_write a v₁ v₂ v f g},
    Step cfg base low (.write (4 * SDARG) 4 b) s₀ v₁ s₁ →
    Run cfg base low (fun _ a => ¬a.Writes SDARG) s₁ as₁ s₂ →
    Step cfg base low (.write (4 * SDCMD) len c) s₂ v₂ s₃ →
    len = 1 ∨ len = 2 ∨ len = 4 → (c &&& 0x3f).toNat = transferCmd is_write →
    Run cfg base low (fun s a => ¬a.Writes SDCMD ∧ P s a) s₃ as₂ s₄ →
    Step cfg base low a s₄ v s₅ → a.isData is_write = true → P s₄ a →
    s₃.device.fp = some g → 512 * b.toNat + 4 * as₂.countP (·.isData is_write) + 4 ≤ g.size →
    s₄.device.fp = some f →
    ∃ f', s₅.device.fp = some f' ∧ a.Done (512 * b.toNat + 4 * as₂.countP (·.isData is_write)) v f f'
  registers : ∀ {s s' v offset len}, Step cfg base low (.read offset len) s v s' →
    offset.toNat / 4 ∈ [SDCMD, SDARG, SDRSP0, SDRSP1, SDRSP2, SDRSP3] → P s (.read offset len) →
    s'.device.fp = s.device.fp ∧ s'.device.addr = s.device.addr

theorem prepare_rw_iff : (prepare_rw base is_write s).device.fp = s.device.fp ∧
    (prepare_rw base is_write s).device.addr = s.device.addr ↔
      s.device.addr = 0 ∧ ∀ f ∈ s.device.fp, f.pos = 512 * (reg base SDARG s).toNat := by
  rw [and_comm, eq_comm]
  refine and_congr_right fun _ => ?_
  cases hf : s.device.fp
  case none => simp [prepare_rw, hf]
  case some f =>
    rw [prepare_rw_fp hf, Option.some_inj]
    constructor
    · intro h f' hf'
      cases hf'
      exact (congrArg FILE.pos h).symm
    · intro h
      rw [FILE.fseek, ← h f rfl]

-- A command that is executed again leaves the image and the position as they are exactly when it has nothing to undo.
theorem handle_cmd_iff_idle (h : sdcard_handle_cmd base (command base s) s = .ok s') :
    s'.device.fp = s.device.fp ∧ s'.device.addr = s.device.addr ↔ Idle base s := by
  rw [Idle]
  generalize command base s = cmd at h
  split
  case h_1 =>
    cases h
    exact ⟨fun hk => hk.right.symm, fun h₀ => ⟨rfl, h₀.symm⟩⟩
  case h_2 =>
    obtain rfl := handle_cmd_read h
    exact prepare_rw_iff
  case h_3 =>
    obtain rfl := handle_cmd_write h
    exact prepare_rw_iff
  case h_4 h₁ h₂ h₃ =>
    have hd := handle_cmd_device h fun hc => hc.elim h₁ (·.elim h₂ h₃)
    have hk : s'.device.fp = s.device.fp ∧ s'.device.addr = s.device.addr := ⟨by rw [hd], by rw [hd]⟩
    exact iff_of_true hk trivial

theorem registers_iff (h : Step cfg base low (.read offset len) s v s')
    (ho : offset.toNat / 4 ∈ [SDCMD, SDARG, SDRSP0, SDRSP1, SDRSP2, SDRSP3]) :
    s'.device.fp = s.device.fp ∧ s'.device.addr = s.device.addr ↔ (offset.toNat / 4 = SDCMD → Idle base s) := by
  have hh := handler_handled h.read.left
  generalize offset.toNat / 4 = i at ho hh
  cases hh
  case cmd hh => exact (handle_cmd_iff_idle hh).trans ⟨fun hi _ => hi, fun hi => hi rfl⟩
  case plain hi =>
    have hi : i ≠ SDCMD := by
      rintro rfl
      simp at hi
    exact ⟨fun _ he => absurd he hi, fun _ => ⟨rfl, rfl⟩⟩
  case data => simp at ho

theorem block_device : BlockDevice cfg base low (Regular base) where
  transfer := by
    intro s₀ s₁ s₂ s₃ s₄ s₅ b len c as₁ as₂ is_write a v₁ v₂ v f g h₁ h₂ h₃ hl hc h₄ h₅ ha hr hg hk hf
    have hb : reg base SDARG s₂ = b := (h₂.reg (by decide) fun _ _ => id).trans (arg_stored h₁)
    have ht := (Transferring.start h₃ hl hc hg).run h₄ (by rw [hb]; omega)
    rw [hb] at ht
    exact (ht.word h₅ ha (hr.not_ext_csd (ht.write_cmd ▸ ha)) hf (by omega)).right
  registers h ho hr := (registers_iff h ho).mpr fun hi => hr.cmd hi id

-- Where the condition is violated by an EXT_CSD transfer, a word of a transfer does not reach the file.
theorem Step.ext_csd (h : Step cfg base low a s v s') (ha : a.isData w = true) (he : s.device.read_ext_csd = true) :
    s'.device.fp = s.device.fp := by
  have ⟨s₁, hd, hr, hs, hh⟩ := h.handled
  rw [idx_of_isData ha] at hh
  cases hh
  case plain hi => exact absurd hi (by decide)
  case data => exact hd ▸ (transfer_of_ext_csd base (hd ▸ he)).left

-- A card with a small image.
namespace Example

def board : Config where
  MBASE    := 0x80000000
  MSIZE    := 0x8000000
  pos      := Config.pos_default
  fits     := Config.fits_default
  DEVICE   := true
  DIFFTEST := false
  RT_CHECK := true

def space : HostAddr := 0x1000
def mmio  : Word     := 0xa3000000

def image (pos : Nat) : FILE where
  size := 1024
  data := fun i => BitVec.ofNat 8 (i + 1)
  pos

def start : State Card where
  host             := fun _ => 0
  pc               := 0
  is_skip_ref      := false
  skip_dut_nr_inst := 0
  device           := {
    fp           := some (image 0)
    blkcnt       := 0
    blk_addr     := 0
    addr         := 0
    write_cmd    := false
    read_ext_csd := false
  }

def after (s : State Card) (a : Access) : State Card :=
  match a.run space board mmio s with
  | .ok _ s' | .error _ s' => s'

-- `SDARG` is written with 1.
def armed (s : State Card) : State Card :=
  after s (.write 4 4 1)

-- The command to read is written.
def reading (s : State Card) : State Card :=
  after (armed s) (.write 0 4 18)

-- The first word of the EXT_CSD is read.
def halfway : State Card :=
  after (after start (.write 0 4 8)) (.read 64 4)

theorem step_armed (s : State Card) : Step board space mmio (.write 4 4 1) s 0 (armed s) := rfl

theorem transferCmd_read : ((18 : Word) &&& 0x3f).toNat = transferCmd false := rfl

theorem regular_read (h : s.device.read_ext_csd = false ∧ s.device.write_cmd = false) :
    Regular space s (.read 64 4) where
  data _ := by simp [h, Access.isData]
  cmd hi := absurd hi (by decide)

end Example

open Example

-- The second word of block 1.
theorem block_device_read : ∃ f, (after (after (reading start) (.read 64 4)) (.read 64 4)).device.fp = some f ∧
    (Access.read 64 4).Done 516 0x08070605 (image 516) f := by
  have hc : Step board space mmio (.write 0 4 18) (armed start) 0 (reading start) := rfl
  have hw : Step board space mmio (.read 64 4) (reading start) 0x04030201 (after (reading start) (.read 64 4)) := rfl
  have hr := Run.refl.step (P := fun s a => ¬a.Writes SDCMD ∧ Regular space s a) ⟨id, regular_read (by decide)⟩ hw
  have hf : (after (reading start) (.read 64 4)).device.fp = some (image 516) := rfl
  exact block_device.transfer (step_armed start) .refl hc (.inr <| .inr rfl) transferCmd_read hr rfl rfl
    (regular_read (by decide)) rfl (by decide) hf

-- After the first word of the EXT_CSD has been read, the first word that is read from block 1 is the next one of the
-- EXT_CSD.
theorem not_block_device : ¬ ∀ cfg base low, BlockDevice cfg base low fun _ _ => True := by
  intro h
  have hc : Step board space mmio (.write 0 4 18) (armed halfway) 0 (reading halfway) := rfl
  have hr : Step board space mmio (.read 64 4) (reading halfway) 0 (after (reading halfway) (.read 64 4)) := rfl
  have hf : (reading halfway).device.fp = some (image 512) := rfl
  have ⟨_, _, hv, _⟩ := (h board space mmio).transfer (step_armed halfway) .refl hc (.inr <| .inr rfl)
    transferCmd_read .refl hr rfl trivial rfl (by decide) hf
  exact absurd hv (by decide)

end Nemu.Sdcard
