import Ysyx.Monads.EState
import Ysyx.Nemu.Memory

-- Guest accesses and the regions that they are routed to.

namespace Nemu

variable {D α : Type} {env : Env D} {cfg : Config} {s : State D} {addr data : Word} {len : Nat}
variable {a : HostAddr} {map : IOMap D}

open EState (bind_of_ok bind_of_error)

-- The program is stopped with a message about the address, before anything has happened.
def OutOfBound (r : EStateM.Result Stop (State D) α) (s : State D) : Prop :=
  ∃ e : Stop, e.IsOutOfBound ∧ r = .error e s

theorem outOfBound_error {e : Stop} (h : e.IsOutOfBound) :
    OutOfBound (.error e s : EStateM.Result Stop (State D) α) s :=
  ⟨e, h, rfl⟩

theorem not_outOfBound_ok {v : α} {s s' : State D} : ¬OutOfBound (.ok v s') s :=
  nofun

namespace Env

variable (env : Env D)

-- The map that `addr` is routed to, if it is not in the physical memory.
def selected (addr : Word) : Option (IOMap D) :=
  if env.DEVICE then env.maps.find? (map_inside · addr) else none

def InPmem (a : Nat) : Prop :=
  env.MBASE ≤ a ∧ a ≤ env.MBASE + env.MSIZE - 1

-- All bytes of the access lie in the region of its first byte.
def Inside (addr : Word) (len : Nat) : Prop :=
  (∀ i < len, env.InPmem (addr.toNat + i)) ∨
  env.in_pmem addr = false ∧ ∃ map ∈ env.selected addr,
    ∀ i < len, map.low.toNat ≤ addr.toNat + i ∧ addr.toNat + i ≤ map.high.toNat

-- The access does not straddle the end of the region of its first byte.
def Fits (addr : Word) (len : Nat) : Prop :=
  if env.in_pmem addr then addr.toNat + len ≤ env.MBASE + env.MSIZE
  else ∀ map ∈ env.selected addr, addr.toNat + len - 1 ≤ map.high.toNat

instance : Decidable (env.Fits addr len) :=
  inferInstanceAs <| Decidable (if env.in_pmem addr then addr.toNat + len ≤ env.MBASE + env.MSIZE
    else ∀ map ∈ env.selected addr, addr.toNat + len - 1 ≤ map.high.toNat)

-- Reads and writes either stay in one region or are reported.
structure Guarded (s : State D) (addr : Word) (len : Nat) : Prop where
  read    : ∀ v s', env.paddr_read addr len s = .ok v s' → env.Inside addr len
  write   : ∀ data s', env.paddr_write addr len data s = .ok () s' → env.Inside addr len
  reads   : ¬env.Inside addr len → OutOfBound (env.paddr_read addr len s) s
  writes  : ¬env.Inside addr len → ∀ data, OutOfBound (env.paddr_write addr len data s) s

end Env

theorem in_pmem_iff : env.in_pmem addr = true ↔ env.MBASE ≤ addr.toNat ∧ addr.toNat < env.MBASE + env.MSIZE := by
  have h₁ := env.fits
  have h₂ := env.pos
  rw [Env.in_pmem, decide_eq_true_iff, BitVec.toNat_sub, BitVec.toNat_ofNat,
    Nat.mod_eq_of_lt (a := env.MBASE) (by omega)]
  omega

theorem map_inside_iff :
    map_inside map addr = true ↔ map.low.toNat ≤ addr.toNat ∧ addr.toNat ≤ map.high.toNat := by
  simp [map_inside, BitVec.le_def]

theorem selected_inside (h : env.selected addr = some map) : map_inside map addr = true := by
  rw [Env.selected] at h
  split at h
  case isTrue => simpa using List.find?_some h
  case isFalse => cases h

section Checked

-- What `map_read` and `map_write` do before the access.
def checked (addr : Word) (len : Nat) (map : Option (IOMap D)) (access : IOMap D → M D α) : M D α := do
  if ¬(len ≥ 1 ∧ len ≤ 8) then throw .assertion
  access (← check_bound map addr)

variable {access : IOMap D → M D α}

theorem check_bound_inside (h : map_inside map addr = true) : (check_bound (some map) addr : M D _) = pure map := by
  have hb : (decide (addr ≤ map.high) && decide (addr ≥ map.low)) = true := by
    rw [Bool.and_comm]
    exact h
  rw [check_bound, if_pos hb]

theorem checked_eq (hl : 1 ≤ len ∧ len ≤ 8) (h : map_inside map addr = true) :
    checked addr len (some map) access = access map := by
  simp [checked, hl, check_bound_inside h]

theorem checked_none (hl : 1 ≤ len ∧ len ≤ 8) :
    checked addr len none access s = .error (.outOfBound addr s.pc) s := by
  simp [checked, check_bound, hl]
  rfl

-- Accesses of other lengths, or outside of the map, do not succeed.
theorem checked_ok {v : α} {s' : State D} (h : checked addr len (some map) access s = .ok v s') :
    (1 ≤ len ∧ len ≤ 8) ∧ access map s = .ok v s' := by
  by_cases hl : 1 ≤ len ∧ len ≤ 8
  case neg =>
    simp only [checked, hl, not_false_eq_true, if_true] at h
    cases h
  case pos =>
    by_cases hb : map_inside map addr = true
    case pos =>
      rw [checked_eq hl hb] at h
      exact ⟨hl, h⟩
    case neg =>
      have hb : ¬(decide (addr ≤ map.high) && decide (addr ≥ map.low)) = true := by
        rw [Bool.and_comm]
        exact hb
      simp only [checked, check_bound, hl, hb] at h
      cases h

end Checked

section

variable (hl : len = 1 ∨ len = 2 ∨ len = 4)
include hl

theorem host_read_ok (cfg : Config) (a : HostAddr) (s : State D) : ∃ v, host_read cfg a len s = .ok v s := by
  rcases hl with rfl | rfl | rfl
  all_goals exact ⟨_, rfl⟩

theorem host_write_ok (cfg : Config) (a : HostAddr) (data : Word) (s : State D) :
    ∃ s', host_write cfg a len data s = .ok () s' := by
  rcases hl with rfl | rfl | rfl
  all_goals exact ⟨_, rfl⟩

theorem map_read_eq (h : map_inside map addr = true) : map_read cfg addr len (some map) = (do
    invoke_callback map (addr - map.low) len false
    host_read cfg (map.space + (addr - map.low).setWidth 64) len : M D Word) :=
  checked_eq (by omega) h

theorem map_write_eq (h : map_inside map addr = true) : map_write cfg addr len data (some map) = (do
    host_write cfg (map.space + (addr - map.low).setWidth 64) len data
    invoke_callback map (addr - map.low) len true : M D Unit) :=
  checked_eq (by omega) h

theorem map_read_none : map_read cfg addr len none s = .error (.outOfBound addr s.pc) s :=
  checked_none (by omega)

theorem map_write_none : map_write cfg addr len data none s = .error (.outOfBound addr s.pc) s :=
  checked_none (by omega)

end

theorem invoke_callback_none {offset : Word} {w : Bool} (h : map.callback = none) :
    invoke_callback map offset len w s = .ok () s := by
  simp only [invoke_callback, h]
  rfl

theorem invoke_callback_some {offset : Word} {w : Bool} {c} (h : map.callback = some c) :
    invoke_callback map offset len w s =
      match c offset len w s with
      | .ok s' => .ok () s'
      | .error message => .error (.device message) s := by
  simp only [invoke_callback, h]
  rw [EState.get_bind]
  cases c offset len w s <;> rfl

theorem invoke_callback_cases (map : IOMap D) (offset : Word) (len : Nat) (w : Bool) (s : State D) :
    (∃ s', invoke_callback map offset len w s = .ok () s') ∨
    ∃ message, invoke_callback map offset len w s = .error (.device message) s := by
  cases hc : map.callback
  case none => exact .inl ⟨s, invoke_callback_none hc⟩
  case some c =>
    rw [invoke_callback_some hc]
    cases c offset len w s
    case ok s' => exact .inl ⟨s', rfl⟩
    case error message => exact .inr ⟨message, rfl⟩

theorem map_read_ok {v : Word} {s' : State D} (h : map_read cfg addr len (some map) s = .ok v s') :
    (1 ≤ len ∧ len ≤ 8) ∧ ∃ s₁, invoke_callback map (addr - map.low) len false s = .ok .unit s₁ ∧
      host_read cfg (map.space + (addr - map.low).setWidth 64) len s₁ = .ok v s' := by
  have ⟨hl, h⟩ := checked_ok h
  have ⟨_, s₁, h₁, h₂⟩ := EState.bind_ok_iff.mp h
  exact ⟨hl, s₁, h₁, h₂⟩

theorem map_write_ok {u : Unit} {s' : State D} (h : map_write cfg addr len data (some map) s = .ok u s') :
    (1 ≤ len ∧ len ≤ 8) ∧ ∃ s₁, host_write cfg (map.space + (addr - map.low).setWidth 64) len data s = .ok .unit s₁ ∧
      invoke_callback map (addr - map.low) len true s₁ = .ok .unit s' := by
  have ⟨hl, h⟩ := checked_ok h
  have ⟨_, s₁, h₁, h₂⟩ := EState.bind_ok_iff.mp h
  exact ⟨hl, s₁, h₁, h₂⟩

theorem not_outOfBound_device {message : String} {s₁ : State D} :
    ¬OutOfBound (.error (.device message) s₁ : EStateM.Result Stop (State D) α) s := by
  intro ⟨_, he, hr⟩
  cases hr
  exact he

theorem map_read_not_outOfBound (hl : len = 1 ∨ len = 2 ∨ len = 4) (h : map_inside map addr = true)
    {s₁ : State D} : ¬OutOfBound (map_read cfg addr len (some map) s₁) s := by
  rw [map_read_eq hl h]
  cases invoke_callback_cases map (addr - map.low) len false s₁
  case inl h =>
    have ⟨s₂, h⟩ := h
    have ⟨_, hr⟩ := host_read_ok hl cfg (map.space + (addr - map.low).setWidth 64) s₂
    rw [bind_of_ok h, hr]
    exact not_outOfBound_ok
  case inr h =>
    have ⟨_, h⟩ := h
    rw [bind_of_error h]
    exact not_outOfBound_device

theorem map_write_not_outOfBound (hl : len = 1 ∨ len = 2 ∨ len = 4) (h : map_inside map addr = true)
    {s₁ : State D} : ¬OutOfBound (map_write cfg addr len data (some map) s₁) s := by
  have ⟨s₂, hw⟩ := host_write_ok hl cfg (map.space + (addr - map.low).setWidth 64) data s₁
  rw [map_write_eq hl h, bind_of_ok hw]
  cases invoke_callback_cases map (addr - map.low) len true s₂
  case inl h =>
    have ⟨_, h⟩ := h
    rw [h]
    exact not_outOfBound_ok
  case inr h =>
    have ⟨_, h⟩ := h
    rw [h]
    exact not_outOfBound_device

theorem fetch_mmio_map_some (h : env.maps.find? (map_inside · addr) = some map) :
    ∃ s', env.fetch_mmio_map addr s = .ok (some map) s' := by
  simp only [Env.fetch_mmio_map, find_mapid_by_addr, h, difftest_skip_ref]
  split
  all_goals exact ⟨_, rfl⟩

theorem fetch_mmio_map_none (h : env.maps.find? (map_inside · addr) = none) :
    env.fetch_mmio_map addr s = .ok none s := by
  simp only [Env.fetch_mmio_map, find_mapid_by_addr, h]
  rfl

-- The state behind `difftest_skip_ref`.
def skipped (cfg : Config) (s : State D) : State D :=
  if cfg.DIFFTEST then { s with is_skip_ref := true, skip_dut_nr_inst := 0 } else s

theorem difftest_skip_ref_eq {cfg : Config} : difftest_skip_ref cfg s = .ok () (skipped cfg s) := by
  rw [difftest_skip_ref, skipped]
  split <;> rfl

theorem host_read_four {cfg : Config} {a : HostAddr} : host_read cfg a 4 s = .ok (s.host.load32 a) s :=
  rfl

namespace Env

-- An access whose first byte lies in the physical memory is performed.

theorem paddr_read_in_pmem (hl : len = 1 ∨ len = 2 ∨ len = 4) (h : env.in_pmem addr = true) :
    ∃ v, env.paddr_read addr len s = .ok v s := by
  simp only [paddr_read, h, if_true, pmem_read]
  exact host_read_ok hl ..

theorem paddr_write_in_pmem (data : Word) (hl : len = 1 ∨ len = 2 ∨ len = 4) (h : env.in_pmem addr = true) :
    ∃ s', env.paddr_write addr len data s = .ok () s' := by
  simp only [paddr_write, h, if_true, pmem_write]
  exact host_write_ok hl ..

theorem device_of_selected (hs : env.selected addr = some map) :
    env.DEVICE = true ∧ env.maps.find? (map_inside · addr) = some map := by
  rw [selected] at hs
  split at hs
  case isTrue hd => exact ⟨hd, hs⟩
  case isFalse => contradiction

-- A read of a region is a call of its callback.
theorem paddr_read_map {map : IOMap D} (h : env.in_pmem addr = false) (hs : env.selected addr = some map) :
    env.paddr_read addr 4 s = (do
      invoke_callback map (addr - map.low) 4 false
      host_read env.toConfig (map.space + (addr - map.low).setWidth 64) 4) (skipped env.toConfig s) := by
  have ⟨hd, hm⟩ := device_of_selected hs
  have hf : env.fetch_mmio_map addr s = .ok (some map) (skipped env.toConfig s) := by
    simp only [Env.fetch_mmio_map, find_mapid_by_addr, hm]
    rw [bind_of_ok difftest_skip_ref_eq]
    rfl
  simp only [Env.paddr_read, h, hd, Env.mmio_read, Bool.false_eq_true, if_false, if_true]
  rw [bind_of_ok hf, map_read_eq (.inr (.inr rfl)) (selected_inside hs)]

-- An access whose first byte lies in a map is performed or fails in the callback of the device.

theorem paddr_read_selected (hl : len = 1 ∨ len = 2 ∨ len = 4) (h : env.in_pmem addr = false)
    (hs : env.selected addr = some map) {s₁ : State D} : ¬OutOfBound (env.paddr_read addr len s₁) s := by
  have ⟨hd, hm⟩ := device_of_selected hs
  have ⟨_, hf⟩ := fetch_mmio_map_some (s := s₁) hm
  simp only [paddr_read, h, hd, mmio_read, Bool.false_eq_true, if_false, if_true]
  rw [bind_of_ok hf]
  exact map_read_not_outOfBound hl (selected_inside hs)

theorem paddr_write_selected (hl : len = 1 ∨ len = 2 ∨ len = 4) (h : env.in_pmem addr = false)
    (hs : env.selected addr = some map) {s₁ : State D} : ¬OutOfBound (env.paddr_write addr len data s₁) s := by
  have ⟨hd, hm⟩ := device_of_selected hs
  have ⟨_, hf⟩ := fetch_mmio_map_some (s := s₁) hm
  simp only [paddr_write, h, hd, mmio_write, Bool.false_eq_true, if_false, if_true]
  rw [bind_of_ok hf]
  exact map_write_not_outOfBound hl (selected_inside hs)

-- Every other access is reported.

theorem out_of_bound_eq : (env.out_of_bound addr : M D α) s =
    .error (.pmemOutOfBound addr env.PMEM_LEFT env.PMEM_RIGHT s.pc) s := rfl

theorem paddr_read_unselected (hl : len = 1 ∨ len = 2 ∨ len = 4) (h : env.in_pmem addr = false)
    (hs : env.selected addr = none) : OutOfBound (env.paddr_read addr len s) s := by
  cases hd : env.DEVICE
  case false =>
    simp only [paddr_read, h, hd, Bool.false_eq_true, if_false]
    rw [out_of_bound_eq]
    exact outOfBound_error trivial
  case true =>
    have hf : env.fetch_mmio_map addr s = .ok none s := fetch_mmio_map_none <| by simpa [selected, hd] using hs
    simp only [paddr_read, h, hd, mmio_read, Bool.false_eq_true, if_false, if_true]
    rw [bind_of_ok hf, map_read_none hl]
    exact outOfBound_error trivial

theorem paddr_write_unselected (hl : len = 1 ∨ len = 2 ∨ len = 4) (h : env.in_pmem addr = false)
    (hs : env.selected addr = none) : OutOfBound (env.paddr_write addr len data s) s := by
  cases hd : env.DEVICE
  case false =>
    simp only [paddr_write, h, hd, Bool.false_eq_true, if_false]
    rw [out_of_bound_eq]
    exact outOfBound_error trivial
  case true =>
    have hf : env.fetch_mmio_map addr s = .ok none s := fetch_mmio_map_none <| by simpa [selected, hd] using hs
    simp only [paddr_write, h, hd, mmio_write, Bool.false_eq_true, if_false, if_true]
    rw [bind_of_ok hf, map_write_none hl]
    exact outOfBound_error trivial

theorem inside_iff_of_in_pmem (hl : 0 < len) (h : env.in_pmem addr = true) :
    env.Inside addr len ↔ env.Fits addr len := by
  have ⟨hlo, hhi⟩ := in_pmem_iff.mp h
  simp only [Inside, Fits, InPmem, h, if_true, Bool.true_eq_false, false_and, or_false]
  constructor
  · intro hi
    have := hi (len - 1) (by omega)
    omega
  · intro hf i hi
    omega

theorem not_inPmem_of_not_in_pmem (hl : 0 < len) (h : env.in_pmem addr = false) :
    ¬∀ i < len, env.InPmem (addr.toNat + i) := by
  intro hi
  have ⟨_, _⟩ := hi 0 hl
  have := env.pos
  refine absurd (in_pmem_iff.mpr ?_) (Bool.eq_false_iff.mp h)
  omega

theorem inside_iff_of_selected (hl : 0 < len) (h : env.in_pmem addr = false) (hs : env.selected addr = some map) :
    env.Inside addr len ↔ env.Fits addr len := by
  have ⟨hlo, hhi⟩ := map_inside_iff.mp (selected_inside hs)
  simp only [Inside, not_inPmem_of_not_in_pmem hl h, Fits, h, hs, Option.mem_def, Option.some.injEq, true_and,
    false_or, exists_eq_left', forall_eq', Bool.false_eq_true, if_false]
  constructor
  · intro hi
    have := hi (len - 1) (by omega)
    omega
  · intro hf i hi
    omega

theorem fits_of_unselected (h : env.in_pmem addr = false) (hs : env.selected addr = none) :
    env.Fits addr len := by
  simp [Fits, h, hs]

theorem fits_of_inside (hl : 0 < len) (h : env.Inside addr len) : env.Fits addr len := by
  cases hp : env.in_pmem addr
  case true => exact (inside_iff_of_in_pmem hl hp).mp h
  case false =>
    cases hs : env.selected addr
    case none => exact fits_of_unselected hp hs
    case some => exact (inside_iff_of_selected hl hp hs).mp h

-- An access that straddles the end of its region is not reported.
theorem not_outOfBound_of_straddles (data : Word) (hl : len = 1 ∨ len = 2 ∨ len = 4)
    (h : ¬env.Fits addr len) :
    ¬OutOfBound (env.paddr_read addr len s) s ∧ ¬OutOfBound (env.paddr_write addr len data s) s := by
  cases hp : env.in_pmem addr
  case true =>
    have ⟨_, hr⟩ := paddr_read_in_pmem (s := s) hl hp
    have ⟨_, hw⟩ := paddr_write_in_pmem (s := s) data hl hp
    rw [hr, hw]
    exact ⟨not_outOfBound_ok, not_outOfBound_ok⟩
  case false =>
    cases hs : env.selected addr
    case none => exact absurd (fits_of_unselected hp hs) h
    case some => exact ⟨paddr_read_selected hl hp hs, paddr_write_selected hl hp hs⟩

theorem inside_or_outOfBound (hl : len = 1 ∨ len = 2 ∨ len = 4) (h : env.Fits addr len) :
    env.Inside addr len ∨
    OutOfBound (env.paddr_read addr len s) s ∧ ∀ data, OutOfBound (env.paddr_write addr len data s) s := by
  have hl₀ : 0 < len := by omega
  cases hp : env.in_pmem addr
  case true => exact .inl <| (inside_iff_of_in_pmem hl₀ hp).mpr h
  case false =>
    cases hs : env.selected addr
    case none => exact .inr ⟨paddr_read_unselected hl hp hs, fun _ => paddr_write_unselected hl hp hs⟩
    case some => exact .inl <| (inside_iff_of_selected hl₀ hp hs).mpr h

end Env

theorem OutOfBound.not_ok {r : EStateM.Result Stop (State D) α} {v : α} {s' : State D} (h : OutOfBound r s) :
    r ≠ .ok v s' := by
  have ⟨_, _, hr⟩ := h
  rw [hr]
  nofun

open Env in
-- An access straddles the end of its region if and only if it is neither contained nor reported.
theorem paddr_guarded_iff_fits (hl : len = 1 ∨ len = 2 ∨ len = 4) : env.Guarded s addr len ↔ env.Fits addr len := by
  have hl₀ : 0 < len := by omega
  constructor
  · intro h
    by_contra hf
    exact (not_outOfBound_of_straddles 0 hl hf).left <| h.reads <| mt (fits_of_inside hl₀) hf
  · intro hf
    cases inside_or_outOfBound (s := s) hl hf
    case inl h => exact ⟨fun _ _ _ => h, fun _ _ _ => h, absurd h, absurd h⟩
    case inr h =>
      have ⟨hr, hw⟩ := h
      exact ⟨fun _ _ he => absurd he hr.not_ok, fun d _ he => absurd he (hw d).not_ok, fun _ => hr, fun _ => hw⟩

-- The default configuration of riscv32, without devices.
def riscv32 : Env Unit where
  MBASE    := 0x80000000
  MSIZE    := 0x8000000
  pos      := Config.pos_default
  fits     := Config.fits_default
  DEVICE   := false
  DIFFTEST := false
  RT_CHECK := true
  pmem     := 0
  maps     := []

def riscv32Start : State Unit where
  host             := fun _ => 0
  pc               := 0x80000000
  is_skip_ref      := false
  skip_dut_nr_inst := 0
  device           := ()

theorem paddr_guarded_iff_fits_start : riscv32.Guarded riscv32Start 0x87fffffc 4 :=
  (paddr_guarded_iff_fits <| .inr <| .inr rfl).mpr (by decide)

-- The word at the last byte of the physical memory is read and reaches behind it.
theorem paddr_not_guarded : ¬∀ (env : Env Unit) (s : State Unit) (addr : Word) (len : Nat),
    len = 1 ∨ len = 2 ∨ len = 4 → env.Guarded s addr len := by
  intro h
  have hi := (h riscv32 riscv32Start 0x87ffffff 4 <| .inr <| .inr rfl).read _ _ rfl
  exact absurd ((Env.inside_iff_of_in_pmem (by decide) rfl).mp hi) (by decide)

end Nemu
