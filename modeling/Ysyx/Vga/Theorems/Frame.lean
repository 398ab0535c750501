import Ysyx.Vga.Theorems.Scan

-- What one frame presents.

namespace Vga

variable {s : Top} {mem : Vmem} {t i j : Nat}

theorem cycles_succ : s.cycles mem (t + 1) = (s.cycles mem t).edge mem := rfl

-- The memory does not influence the scan.
theorem cycles_ctrl : (s.cycles mem t).ctrl = s.ctrl.cycles t := by
  induction t
  case zero => rfl
  case succ t ih => rw [cycles_succ, Ctrl.cycles_succ, ← ih, Top.edge]

theorem cycles_at (h : At 0 s.ctrl) : At t (s.cycles mem t).ctrl := by
  rw [cycles_ctrl]
  exact Ctrl.cycles_at h

theorem pixel?_eq : s.pixel? = if s.ctrl.valid then some s.vga_data else none := by
  have : s.VGA_R ++ s.VGA_G ++ s.VGA_B = s.vga_data := by
    rw [Top.VGA_R, Top.VGA_G, Top.VGA_B, BitVec.extractLsb'_append_extractLsb'_eq_extractLsb' (by rfl)]
    exact BitVec.extractLsb'_append_extractLsb'
  rw [Top.pixel?, this, Top.VGA_BLANK_N]

namespace At

theorem edge_vga_data (mem : Vmem) (h : At t s.ctrl) (hl : t / 800 % 525 < 515) (hc : t % 800 < 784) :
    (s.edge mem).vga_data = stored mem (t / 800 % 525 - 35) (t % 800 - 144) := by
  rw [Top.edge, h.h_addr_eq hc, h.v_addr_eq hl, stored, BitVec.setWidth_ofNat_of_le (by decide)]

end At

-- Cycle `800 * i + j` is column `j` of line `i`.

theorem pixel?_blank (h : At 0 s.ctrl) (hi : i < 525) (hj : j < 800)
    (hb : ¬(35 ≤ i ∧ i < 515) ∨ ¬(144 ≤ j ∧ j < 784)) : (s.cycles mem (800 * i + j)).pixel? = none := by
  have ha : At (800 * i + j) (s.cycles mem (800 * i + j)).ctrl := cycles_at h
  have hv : ¬(s.cycles mem (800 * i + j)).ctrl.valid = true := by
    rw [Ctrl.valid, Bool.and_eq_true, ha.h_valid_iff, ha.v_valid_iff]
    omega
  rw [pixel?_eq, if_neg hv]

-- The picture memory answers one cycle late, except that the first column is asked for twice.
theorem pixel?_valid (h : At 0 s.ctrl) (hi : i < 480) (hj : j < 640) :
    (s.cycles mem (800 * (35 + i) + (144 + j))).pixel? = some (stored mem i (j - 1)) := by
  have ha : At (800 * (35 + i) + (144 + j)) (s.cycles mem (800 * (35 + i) + (144 + j))).ctrl := cycles_at h
  have hv : (s.cycles mem (800 * (35 + i) + (144 + j))).ctrl.valid = true := by
    rw [Ctrl.valid, Bool.and_eq_true, ha.h_valid_iff, ha.v_valid_iff]
    omega
  have hp : At (800 * (35 + i) + (143 + j)) (s.cycles mem (800 * (35 + i) + (143 + j))).ctrl := cycles_at h
  have hd := hp.edge_vga_data mem (by omega) (by omega)
  have h₁ : (800 * (35 + i) + (143 + j)) / 800 % 525 - 35 = i := by omega
  have h₂ : (800 * (35 + i) + (143 + j)) % 800 - 144 = j - 1 := by omega
  rw [h₁, h₂] at hd
  have ht : 800 * (35 + i) + (144 + j) = 800 * (35 + i) + (143 + j) + 1 := by omega
  rw [pixel?_eq, if_pos hv, ht, cycles_succ, hd]

theorem shown_frame (h : At 0 s.ctrl) :
    s.shown mem (525 * 800) = (List.range (480 * 640)).map fun k => stored mem (k / 640) (k % 640 - 1) :=
  List.filterMap_range_grid (g := fun i j => stored mem i (j - 1)) 35 480 10 144 640 16
    (fun _ hi _ hj => pixel?_valid h hi hj) fun _ hi _ hj hb => pixel?_blank h hi hj hb

-- The frame that starts in `s` presents the stored image.
structure ShowsImage (mem : Vmem) (s : Top) : Prop where
  length : (s.shown mem (525 * 800)).length = 640 * 480
  pixel  : ∀ k < 640 * 480, (s.shown mem (525 * 800))[k]? = some (stored mem (k / 640) (k % 640))

-- The first cycle of a frame.
def Top.FrameStart (s : Top) : Prop :=
  s.ctrl.x_cnt = 1 ∧ s.ctrl.y_cnt = 1

theorem Top.FrameStart.at (h : s.FrameStart) : At 0 s.ctrl :=
  Ctrl.FrameStart.at h

-- The registers are 0 when the design starts. The line that follows is not part of a frame.

theorem first_line (h : s.ctrl = ⟨0, 0⟩) (ht : t ≤ 800) : (s.cycles mem t).ctrl = ⟨BitVec.ofNat 10 t, 0⟩ := by
  induction t
  case zero => exact h
  case succ t ih =>
    have hx : t % 1024 ≠ h_total := by
      rw [h_total]
      omega
    rw [cycles_succ, Top.edge, ih (Nat.le_of_succ_le ht)]
    simp [Ctrl.next, hx, BitVec.ofNat_add]

theorem frameStart_first (h : s.ctrl = ⟨0, 0⟩) : (s.cycles mem 801).FrameStart := by
  rw [cycles_succ, Top.FrameStart, Top.edge, first_line h (Nat.le_refl 800)]
  exact ⟨rfl, rfl⟩

theorem frameStart_cycles (h : s.ctrl = ⟨0, 0⟩) (k : Nat) :
    (s.cycles mem (801 + k * (525 * 800))).FrameStart := by
  have hs : (s.cycles mem 801).FrameStart := frameStart_first h
  rw [Top.FrameStart, cycles_ctrl] at hs
  rw [Top.FrameStart, cycles_ctrl, Ctrl.cycles_add]
  exact Ctrl.FrameStart.cycles hs k

theorem getElem?_shown (h : s.FrameStart) {k : Nat} (hk : k < 640 * 480) :
    (s.shown mem (525 * 800))[k]? = some (stored mem (k / 640) (k % 640 - 1)) := by
  rw [shown_frame h.at, List.getElem?_map, List.getElem?_range hk]
  rfl

theorem shows_image_iff (h : s.FrameStart) :
    ShowsImage mem s ↔ ∀ i < 480, ∀ j < 639, stored mem i j = stored mem i (j + 1) := by
  constructor
  · intro hs i hi j hj
    have hk : 640 * i + (j + 1) < 640 * 480 := by omega
    have he := (getElem?_shown h hk).symm.trans (hs.pixel _ hk)
    rw [show (640 * i + (j + 1)) / 640 = i by omega, show (640 * i + (j + 1)) % 640 = j + 1 by omega] at he
    exact Option.some.inj he
  · intro hm
    refine ⟨by simp [shown_frame h.at], fun k hk => ?_⟩
    rw [getElem?_shown h hk]
    cases hj : k % 640
    case zero => rfl
    case succ j => rw [Nat.add_sub_cancel, hm (k / 640) (by omega) j (by omega)]

-- Each line has a colour of its own.
def stripes : Vmem :=
  fun a => (a.extractLsb' 10 9).setWidth 24

theorem stored_stripes : stored stripes i j = (BitVec.ofNat 9 i).setWidth 24 := by
  rw [stored, stripes, BitVec.extractLsb'_append_eq_left]

-- The third frame after the start.
theorem shows_image_iff_stripes : stored stripes 0 0 ≠ stored stripes 1 0 ∧
    ShowsImage stripes ((⟨⟨0, 0⟩, 0⟩ : Top).cycles stripes (801 + 2 * (525 * 800))) := by
  refine ⟨by decide, (shows_image_iff <| frameStart_cycles rfl 2).mpr fun i _ j _ => ?_⟩
  rw [stored_stripes, stored_stripes]

-- The second pixel of the first line is not the stored one.
theorem not_shows_image : ¬∀ (mem : Vmem) (s : Top), s.FrameStart → ShowsImage mem s := by
  intro h
  have hs : Top.FrameStart ⟨⟨1, 1⟩, 0⟩ := ⟨rfl, rfl⟩
  have hp := (h (fun a => if a = 0 then 0 else 0xffffff) _ hs).pixel 1 (by decide)
  rw [getElem?_shown hs (by decide)] at hp
  exact absurd hp (by decide)

end Vga
