import Ysyx.Bytes.Blocks
import Ysyx.Hardware.Counter
import Ysyx.Vga.Basic

-- The scan: from any values of the counters the controller comes to present whole frames.

namespace Vga

variable {c : Ctrl} {t i j k : Nat}

namespace Ctrl

theorem h_valid_iff : c.h_valid = true ↔ 144 < c.x_cnt.toNat ∧ c.x_cnt.toNat ≤ 784 := by
  rw [h_valid, Bool.and_eq_true, decide_eq_true_iff, decide_eq_true_iff]
  rfl

theorem v_valid_iff : c.v_valid = true ↔ 35 < c.y_cnt.toNat ∧ c.y_cnt.toNat ≤ 515 := by
  rw [v_valid, Bool.and_eq_true, decide_eq_true_iff, decide_eq_true_iff]
  rfl

-- The addresses stay in the picture whatever the counters are.

theorem h_addr_le : c.h_addr.toNat ≤ 639 := by
  rw [h_addr]
  split
  case isTrue h =>
    have := h_valid_iff.mp h
    rw [BitVec.toNat_sub]
    simp
    omega
  case isFalse => simp

theorem v_addr_le : c.v_addr.toNat ≤ 479 := by
  rw [v_addr]
  split
  case isTrue h =>
    have := v_valid_iff.mp h
    rw [BitVec.toNat_sub]
    simp
    omega
  case isFalse => simp

end Ctrl

-- The position of the scan `t` cycles after the start of a frame.
structure At (t : Nat) (c : Ctrl) : Prop where
  x_cnt : c.x_cnt.toNat = t % 800 + 1
  y_cnt : c.y_cnt.toNat = t / 800 % 525 + 1

namespace At

theorem next_x_cnt (h : At t c) : (c.next false).x_cnt.toNat = (t + 1) % 800 + 1 := by
  have hx := h.x_cnt
  by_cases he : c.x_cnt.toNat = h_total
  all_goals
    simp only [Ctrl.next, he, if_true, Bool.false_eq_true, if_false, BitVec.toNat_add]
    simp only [h_total] at he
    simp
    omega

theorem next_y_cnt (h : At t c) : (c.next false).y_cnt.toNat = (t + 1) / 800 % 525 + 1 := by
  have hx := h.x_cnt
  have hy := h.y_cnt
  by_cases he : c.x_cnt.toNat = h_total
  case pos =>
    by_cases hv : c.y_cnt.toNat = v_total
    all_goals
      simp only [Ctrl.next, he, hv, and_self, and_true, if_true, Bool.false_eq_true, if_false, BitVec.toNat_add]
      simp only [h_total] at he
      simp only [v_total] at hv
      simp
      omega
  case neg =>
    simp only [Ctrl.next, he, and_false, Bool.false_eq_true, if_false]
    simp only [h_total] at he
    omega

theorem next (h : At t c) : At (t + 1) (c.next false) :=
  ⟨h.next_x_cnt, h.next_y_cnt⟩

theorem h_valid_iff (h : At t c) : c.h_valid = true ↔ 144 ≤ t % 800 ∧ t % 800 < 784 := by
  rw [Ctrl.h_valid_iff, h.x_cnt]
  omega

theorem v_valid_iff (h : At t c) : c.v_valid = true ↔ 35 ≤ t / 800 % 525 ∧ t / 800 % 525 < 515 := by
  rw [Ctrl.v_valid_iff, h.y_cnt]
  omega

end At

namespace At

theorem h_addr_eq (h : At t c) (hc : t % 800 < 784) : c.h_addr = BitVec.ofNat 10 (t % 800 - 144) := by
  have hx := h.x_cnt
  apply BitVec.eq_of_toNat_eq
  rw [Ctrl.h_addr, BitVec.toNat_ofNat]
  split
  case isTrue hv =>
    have := h.h_valid_iff.mp hv
    rw [BitVec.toNat_sub, hx]
    simp
    omega
  case isFalse hv =>
    have := mt h.h_valid_iff.mpr hv
    simp
    omega

theorem v_addr_eq (h : At t c) (hl : t / 800 % 525 < 515) : c.v_addr = BitVec.ofNat 10 (t / 800 % 525 - 35) := by
  have hy := h.y_cnt
  apply BitVec.eq_of_toNat_eq
  rw [Ctrl.v_addr, BitVec.toNat_ofNat]
  split
  case isTrue hv =>
    have := h.v_valid_iff.mp hv
    rw [BitVec.toNat_sub, hy]
    simp
    omega
  case isFalse hv =>
    have := mt h.v_valid_iff.mpr hv
    simp
    omega

end At

namespace Ctrl

theorem cycles_succ : c.cycles (t + 1) = (c.cycles t).next false := rfl

theorem cycles_add {m n : Nat} : c.cycles (m + n) = (c.cycles m).cycles n :=
  Clocked.run_add

theorem cycles_at (h : At 0 c) : At t (c.cycles t) :=
  Clocked.run_invariant (P := At) h fun _ _ ih => ih.next

-- The column does not depend on the row, and the row changes at the end of a line only.

theorem cycles_x_cnt : (c.cycles t).x_cnt = (Counter.next h_total)^[t] c.x_cnt := by
  induction t
  case zero => rfl
  case succ t ih =>
    rw [cycles_succ, Function.iterate_succ_apply', ← ih]
    rfl

theorem cycles_x_cnt_line (h : c.x_cnt = 1) : (c.cycles t).x_cnt.toNat = t % 800 + 1 := by
  rw [cycles_x_cnt, h]
  exact Counter.toNat_iterate_one (by decide) (by decide)

theorem cycles_y_cnt_line (h : c.x_cnt = 1) (ht : t < 800) : (c.cycles t).y_cnt = c.y_cnt := by
  induction t
  case zero => rfl
  case succ t ih =>
    have hx : (c.cycles t).x_cnt.toNat ≠ h_total := by
      rw [cycles_x_cnt_line h, h_total]
      omega
    rw [cycles_succ, ← ih (Nat.lt_of_succ_lt ht)]
    simp [next, hx]

theorem cycles_line (h : c.x_cnt = 1) :
    (c.cycles 800).x_cnt = 1 ∧ (c.cycles 800).y_cnt = Counter.next v_total c.y_cnt := by
  have hx : (c.cycles 799).x_cnt.toNat = h_total := cycles_x_cnt_line h
  have hy : (c.cycles 799).y_cnt = c.y_cnt := cycles_y_cnt_line h (by decide)
  rw [cycles_succ]
  simp [next, hx, hy, Counter.next]

theorem cycles_lines (h : c.x_cnt = 1) :
    (c.cycles (800 * k)).x_cnt = 1 ∧ (c.cycles (800 * k)).y_cnt = (Counter.next v_total)^[k] c.y_cnt := by
  induction k
  case zero => exact ⟨h, rfl⟩
  case succ k ih =>
    rw [Nat.mul_succ, cycles_add, Function.iterate_succ_apply', ← ih.right]
    exact cycles_line ih.left

-- The first cycle of a frame.
def FrameStart (c : Ctrl) : Prop :=
  c.x_cnt = 1 ∧ c.y_cnt = 1

theorem FrameStart.at (h : c.FrameStart) : At 0 c :=
  ⟨congrArg BitVec.toNat h.left, congrArg BitVec.toNat h.right⟩

theorem exists_frameStart (c : Ctrl) : ∃ n ≤ 1024 + 800 * 1024, (c.cycles n).FrameStart := by
  have ⟨m, hm, hx⟩ := Counter.exists_iterate_eq_one h_total (by decide) c.x_cnt
  rw [← cycles_x_cnt] at hx
  have ⟨k, hk, hy⟩ := Counter.exists_iterate_eq_one v_total (by decide) (c.cycles m).y_cnt
  have hl := cycles_lines (k := k) hx
  refine ⟨m + 800 * k, by omega, ?_⟩
  rw [cycles_add]
  exact ⟨hl.left, hl.right.trans hy⟩

end Ctrl

theorem At.frameStart (h : At t c) (hx : t % 800 = 0) (hy : t / 800 % 525 = 0) : c.FrameStart := by
  constructor
  · apply BitVec.eq_of_toNat_eq
    rw [h.x_cnt, hx]
    rfl
  · apply BitVec.eq_of_toNat_eq
    rw [h.y_cnt, hy]
    rfl

-- The counters of a controller that scans.
structure Ctrl.InRange (c : Ctrl) : Prop where
  x_cnt : 1 ≤ c.x_cnt.toNat ∧ c.x_cnt.toNat ≤ 800
  y_cnt : 1 ≤ c.y_cnt.toNat ∧ c.y_cnt.toNat ≤ 525

-- What the cycles from `c` on have to present for one frame. Cycle `800 * i + j` is column `j` of line `i`.
structure Ctrl.Frame (c : Ctrl) : Prop where
  presented : c.presented (525 * 800) =
    (List.range (480 * 640)).map fun k => (BitVec.ofNat 10 (k % 640), BitVec.ofNat 10 (k / 640))
  once      : ∀ h < 640, ∀ v < 480, ∃! t, t < 525 * 800 ∧ (c.cycles t).valid = true ∧
    (c.cycles t).h_addr.toNat = h ∧ (c.cycles t).v_addr.toNat = v
  addr      : ∀ t < 525 * 800, (c.cycles t).h_addr.toNat ≤ 639 ∧ (c.cycles t).v_addr.toNat ≤ 479
  hsync     : ∀ i < 525, ∀ j < 800, (c.cycles (800 * i + j)).hsync = false ↔ j < 96
  vsync     : ∀ i < 525, ∀ j < 800, (c.cycles (800 * i + j)).vsync = false ↔ i < 2

namespace At

theorem inRange (h : At t c) : c.InRange := by
  have hx := h.x_cnt
  have hy := h.y_cnt
  constructor <;> omega

theorem valid_iff (h : At t c) : c.valid = true ↔
    (144 ≤ t % 800 ∧ t % 800 < 784) ∧ 35 ≤ t / 800 % 525 ∧ t / 800 % 525 < 515 := by
  rw [Ctrl.valid, Bool.and_eq_true, h.h_valid_iff, h.v_valid_iff]

theorem hsync_iff (h : At t c) : c.hsync = false ↔ t % 800 < 96 := by
  rw [Ctrl.hsync, decide_eq_false_iff_not, h.x_cnt, h_frontporch]
  omega

theorem vsync_iff (h : At t c) : c.vsync = false ↔ t / 800 % 525 < 2 := by
  rw [Ctrl.vsync, decide_eq_false_iff_not, h.y_cnt, v_frontporch]
  omega

theorem addr (h : At t c) (hv : c.valid = true) :
    c.h_addr.toNat = t % 800 - 144 ∧ c.v_addr.toNat = t / 800 % 525 - 35 := by
  have hv := h.valid_iff.mp hv
  rw [h.h_addr_eq hv.left.right, h.v_addr_eq hv.right.right, BitVec.toNat_ofNat, BitVec.toNat_ofNat]
  omega

theorem addr?_blank (h : At (800 * i + j) c) (hi : i < 525) (hj : j < 800)
    (hb : ¬(35 ≤ i ∧ i < 515) ∨ ¬(144 ≤ j ∧ j < 784)) : c.addr? = none := by
  rw [Ctrl.addr?, if_neg]
  rw [h.valid_iff]
  omega

theorem addr?_valid (h : At (800 * (35 + i) + (144 + j)) c) (hi : i < 480) (hj : j < 640) :
    c.addr? = some (BitVec.ofNat 10 j, BitVec.ofNat 10 i) := by
  have hv : c.valid = true := by
    rw [h.valid_iff]
    omega
  have hx : (800 * (35 + i) + (144 + j)) % 800 - 144 = j := by omega
  have hy : (800 * (35 + i) + (144 + j)) / 800 % 525 - 35 = i := by omega
  rw [Ctrl.addr?, if_pos hv, h.h_addr_eq (by omega), h.v_addr_eq (by omega), hx, hy]

end At

namespace Ctrl.FrameStart

theorem presented (h : c.FrameStart) : c.presented (525 * 800) =
    (List.range (480 * 640)).map fun k => (BitVec.ofNat 10 (k % 640), BitVec.ofNat 10 (k / 640)) := by
  refine List.filterMap_range_grid (g := fun i j => (BitVec.ofNat 10 j, BitVec.ofNat 10 i))
    35 480 10 144 640 16 ?inside ?outside
  case inside => exact fun i hi j hj => (cycles_at h.at).addr?_valid hi hj
  case outside => exact fun i hi j hj hb => (cycles_at h.at).addr?_blank hi hj hb

theorem once (h : c.FrameStart) (hi : i < 480) (hj : j < 640) : ∃! t, t < 525 * 800 ∧ (c.cycles t).valid = true ∧
    (c.cycles t).h_addr.toNat = j ∧ (c.cycles t).v_addr.toNat = i := by
  have ha {t : Nat} : At t (c.cycles t) := cycles_at h.at
  refine ⟨800 * (35 + i) + (144 + j), ⟨by omega, ?valid, ?addr⟩, ?unique⟩
  case valid =>
    rw [ha.valid_iff]
    omega
  case addr =>
    have hv : (c.cycles (800 * (35 + i) + (144 + j))).valid = true := by
      rw [ha.valid_iff]
      omega
    rw [(ha.addr hv).left, (ha.addr hv).right]
    omega
  case unique =>
    intro t ⟨ht, hv, hh, hw⟩
    have hr := ha.valid_iff.mp hv
    rw [(ha.addr hv).left] at hh
    rw [(ha.addr hv).right] at hw
    omega

theorem frame (h : c.FrameStart) : c.Frame where
  presented     := h.presented
  once _ hj _ hi := h.once hi hj
  addr _ _      := ⟨h_addr_le, v_addr_le⟩
  hsync i hi j hj := by
    rw [(cycles_at h.at).hsync_iff]
    omega
  vsync i hi j hj := by
    rw [(cycles_at h.at).vsync_iff]
    omega

-- The frames follow each other.

theorem next (h : c.FrameStart) : (c.cycles (525 * 800)).FrameStart :=
  (cycles_at h.at).frameStart (by decide) (by decide)

theorem cycles (h : c.FrameStart) (k : Nat) : (c.cycles (k * (525 * 800))).FrameStart := by
  induction k
  case zero => exact h
  case succ k ih =>
    rw [Nat.succ_mul, cycles_add]
    exact ih.next

end Ctrl.FrameStart

theorem scan_frames (c : Ctrl) : ∃ n ≤ 1025 + 1024 * 801, (∀ t ≥ n, (c.cycles t).InRange) ∧
    (∃ t ≥ n, (c.cycles t).FrameStart) ∧
    ∀ t, (c.cycles t).FrameStart → ∀ k, (c.cycles (t + k * (525 * 800))).Frame := by
  have ⟨n, hn, hs⟩ := c.exists_frameStart
  refine ⟨n, by omega, ?range, ⟨n, le_refl n, hs⟩, ?frames⟩
  case range =>
    intro t ht
    obtain ⟨d, rfl⟩ := Nat.exists_eq_add_of_le ht
    rw [Ctrl.cycles_add]
    exact (Ctrl.cycles_at hs.at).inRange
  case frames =>
    intro t ht k
    rw [Ctrl.cycles_add]
    exact (ht.cycles k).frame

end Vga
