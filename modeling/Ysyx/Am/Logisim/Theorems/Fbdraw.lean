import Ysyx.Am.Logisim.Fbdraw
import Ysyx.Monads.EState
import Mathlib.Tactic.Ring
import Mathlib.Data.BitVec

namespace Am.Logisim

open Overlay (overlay overlays)
open Memory (region)

variable {m m' : Memory 32} {pixels : Int → Word} {w : Int} {len n : Nat} {p : Word}

-- The bytes of the frame buffer.
def frame : Set Word :=
  region fb (4 * 256 * 256)

-- `fb[r * W + c]`
def pixel (m : Memory 32) (c r : Int) : Word :=
  m.load32 (fb + BitVec.ofInt 32 (4 * (r * W + c)))

-- Row `j` of the rectangle, which is drawn from `p` on.
def row (w : Int) (len : Nat) (p : Word) (pixels : Int → Word) (j : Nat) : Word → Option Byte :=
  piece (p + BitVec.ofNat 32 (1024 * j)) (bytes fun k => pixels (k + j * w)) len

theorem rows_memcpy : rows memcpy w len n p pixels m =
    .ok .unit (overlays m ((List.range n).map (row w len p pixels))) := by
  induction n generalizing p pixels m
  case zero => rfl
  case succ n hi =>
    have hz : row w len p pixels 0 = piece p (bytes pixels) len := by simp [row]
    have hs j : row w len p pixels (j + 1) =
        row w len (p + BitVec.ofInt 32 (4 * W)) (fun k => pixels (k + w)) j := by
      have hp : p + BitVec.ofNat 32 (1024 * (j + 1)) = p + BitVec.ofInt 32 (4 * W) + BitVec.ofNat 32 (1024 * j) := by
        rw [BitVec.add_assoc, Nat.mul_succ, Nat.add_comm, BitVec.ofNat_add]
        rfl
      have hk : (fun k => pixels (k + (j + 1 : Nat) * w)) = fun k => pixels (k + j * w + w) := by
        funext k
        congr 1
        push_cast
        ring
      rw [row, hp, hk, row]
    have hr : (List.range (n + 1)).map (row w len p pixels) = piece p (bytes pixels) len ::
        (List.range n).map (row w len (p + BitVec.ofInt 32 (4 * W)) fun k => pixels (k + w)) := by
      rw [List.range_succ_eq_map, List.map_cons, List.map_map, hz]
      exact congrArg _ <| List.map_congr_left fun j _ => hs j
    rw [hr, rows]
    exact hi

section Offsets

variable {a : Word} {src : Nat → Byte} {D o : Nat}

theorem piece_at (hD : D + n < 2 ^ 32) (ho : o < 2 ^ 32) :
    piece (a + BitVec.ofNat 32 D) src n (a + BitVec.ofNat 32 o) =
      if D ≤ o ∧ o < D + n then some (src (o - D)) else none := by
  have hd : (a + BitVec.ofNat 32 o - (a + BitVec.ofNat 32 D)).toNat = if D ≤ o then o - D else 2 ^ 32 + o - D := by
    have hs : a + BitVec.ofNat 32 o - (a + BitVec.ofNat 32 D) = BitVec.ofNat 32 o - BitVec.ofNat 32 D := by
      rw [add_sub_add_left_eq_sub]
    rw [hs, BitVec.toNat_sub, BitVec.toNat_ofNat, BitVec.toNat_ofNat, Nat.mod_eq_of_lt ho]
    split
    case isTrue => rw [Nat.mod_eq_of_lt (a := D) (by omega)]; omega
    case isFalse => rw [Nat.mod_eq_of_lt (a := D) (by omega)]; omega
  rw [piece, hd]
  by_cases h : D ≤ o
  case pos => simp only [h, if_true, true_and, show o - D < n ↔ o < D + n by omega]
  case neg => rw [if_neg h, if_neg (by omega), if_neg fun hc => h hc.left]

theorem exists_offset (a x : Word) : ∃ o < 2 ^ 32, x = a + BitVec.ofNat 32 o := by
  refine ⟨(x - a).toNat, (x - a).isLt, ?_⟩
  rw [BitVec.ofNat_toNat, BitVec.setWidth_eq, add_sub_cancel]

end Offsets

section Rectangle

variable {X Y Wd Hh j o c r k : Nat} {a : Word}

-- `&fb[y * W + x]`
def corner (X Y : Nat) : Word :=
  fb + BitVec.ofNat 32 (4 * (Y * 256 + X))

theorem row_at (hx : X + Wd ≤ 256) (hy : Y + j < 256) (ho : o < 2 ^ 32) :
    row Wd (4 * Wd) (corner X Y) pixels j (fb + BitVec.ofNat 32 o) =
      if 4 * ((Y + j) * 256 + X) ≤ o ∧ o < 4 * ((Y + j) * 256 + X) + 4 * Wd then
        some (bytes (fun k => pixels (k + j * Wd)) (o - 4 * ((Y + j) * 256 + X)))
      else none := by
  have hc : corner X Y + BitVec.ofNat 32 (1024 * j) = fb + BitVec.ofNat 32 (4 * ((Y + j) * 256 + X)) := by
    rw [corner, BitVec.add_assoc, ← BitVec.ofNat_add]
    congr 2
    ring
  rw [row, hc, piece_at (by omega) ho]

-- The memory after the rows of a rectangle.
def drawn (m : Memory 32) (pixels : Int → Word) (X Y Wd Hh : Nat) : Memory 32 :=
  overlays m ((List.range Hh).map (row Wd (4 * Wd) (corner X Y) pixels))

theorem drawn_inside (hx : X + Wd ≤ 256) (hy : Y + Hh ≤ 256) (hc : X ≤ c ∧ c < X + Wd) (hj : j < Hh) (hk : k < 4) :
    drawn m pixels X Y Wd Hh (fb + BitVec.ofNat 32 (4 * ((Y + j) * 256 + c) + k)) =
      (pixels ((j * Wd + (c - X) : Nat))).byte k := by
  refine Overlay.overlays_range_of_some hj ?value fun i hi hn => ?other
  case value =>
    rw [row_at hx (by omega) (by omega), if_pos (by omega)]
    have ho : 4 * ((Y + j) * 256 + c) + k - 4 * ((Y + j) * 256 + X) = 4 * (c - X) + k := by omega
    have hd : (4 * (c - X) + k) / 4 = c - X := by omega
    have hm : (4 * (c - X) + k) % 4 = k := by omega
    rw [ho, bytes, hd, hm, ← Int.natCast_mul, ← Int.natCast_add, Nat.add_comm]
  case other => rw [row_at hx (by omega) (by omega), if_neg (by omega)]

theorem drawn_other (hx : X + Wd ≤ 256) (hy : Y + Hh ≤ 256) (hc : c < 256) (hr : r < 256)
    (h : ¬((X ≤ c ∧ c < X + Wd) ∧ Y ≤ r ∧ r < Y + Hh)) (hk : k < 4) :
    drawn m pixels X Y Wd Hh (fb + BitVec.ofNat 32 (4 * (r * 256 + c) + k)) =
      m (fb + BitVec.ofNat 32 (4 * (r * 256 + c) + k)) := by
  refine Overlay.overlays_range_of_none fun j hj => ?_
  rw [row_at hx (by omega) (by omega), if_neg (by omega)]

theorem drawn_outside (hx : X + Wd ≤ 256) (hy : Y + Hh ≤ 256) (ha : a ∉ frame) :
    drawn m pixels X Y Wd Hh a = m a := by
  have ⟨o, ho, ha'⟩ := exists_offset fb a
  subst ha'
  rw [frame, Memory.mem_region, Memory.toNat_add_ofNat_sub ho] at ha
  refine Overlay.overlays_range_of_none fun j hj => ?_
  rw [row_at hx (by omega) ho, if_neg (by omega)]

-- The whole screen in one piece is the same as its rows.
theorem drawn_screen : drawn m pixels 0 0 256 256 = overlay m (piece fb (bytes pixels) (4 * 256 * 256)) := by
  funext a
  have ⟨o, ho, ha⟩ := exists_offset fb a
  have hz : fb + BitVec.ofNat 32 0 = fb := BitVec.add_zero _
  have hp : piece (fb + BitVec.ofNat 32 0) (bytes pixels) (4 * 256 * 256) (fb + BitVec.ofNat 32 o) = _ :=
    piece_at (by decide) ho
  rw [hz] at hp
  subst ha
  rw [overlay, hp]
  by_cases hs : o < 4 * 256 * 256
  case neg =>
    rw [if_neg (by omega), Option.getD_none]
    exact drawn_outside (Nat.le_refl _) (Nat.le_refl _) <| by
      rwa [frame, Memory.mem_region, Memory.toNat_add_ofNat_sub ho]
  case pos =>
    have hi :
        drawn m pixels 0 0 256 256 (fb + BitVec.ofNat 32 (4 * ((0 + o / 1024) * 256 + o / 4 % 256) + o % 4)) = _ :=
      drawn_inside (Nat.le_refl _) (Nat.le_refl _) (by omega) (by omega) (by omega)
    rw [show 4 * ((0 + o / 1024) * 256 + o / 4 % 256) + o % 4 = o by omega] at hi
    have hk : o / 1024 * 256 + (o / 4 % 256 - 0) = o / 4 := by omega
    rw [hi, if_pos (by omega), Option.getD_some, bytes, hk, Nat.sub_zero]

end Rectangle

section Requests

variable {ctl : Fbdraw} {mc : Memcpy} {x y h : Int}

structure OnScreen (x y w h : Int) : Prop where
  left   : 0 ≤ x
  right  : x + w ≤ W
  top    : 0 ≤ y
  bottom : y + h ≤ H

-- The rectangle lies on the screen, its pixels have been copied and nothing else has changed.
structure Drawn (x y w h : Int) (pixels : Int → Word) (m m' : Memory 32) : Prop extends OnScreen x y w h where
  inside  : ∀ i j, 0 ≤ i → i < w → 0 ≤ j → j < h → pixel m' (x + i) (y + j) = pixels (j * w + i)
  others  : ∀ c r, 0 ≤ c → c < W → 0 ≤ r → r < H → ¬((x ≤ c ∧ c < x + w) ∧ y ≤ r ∧ r < y + h) →
    pixel m' c r = pixel m c r
  outside : ∀ a ∉ frame, m' a = m a

theorem pixel_natCast {c r : Nat} : pixel m c r = m.load32 (fb + BitVec.ofNat 32 (4 * (r * 256 + c))) := by
  rw [pixel, ← BitVec.ofInt_natCast]
  rfl

theorem pixel_congr {c r : Nat}
    (h : ∀ k < 4,
      m' (fb + BitVec.ofNat 32 (4 * (r * 256 + c) + k)) = m (fb + BitVec.ofNat 32 (4 * (r * 256 + c) + k))) :
    pixel m' c r = pixel m c r := by
  rw [pixel_natCast, pixel_natCast]
  refine Memory.load32_congr fun k hk => ?_
  rw [BitVec.add_assoc, ← BitVec.ofNat_add]
  exact h k hk

theorem drawn_of_onScreen (hs : OnScreen x y w h) (hw : 0 ≤ w) (hh : 0 ≤ h) :
    Drawn x y w h pixels m (drawn m pixels x.toNat y.toNat w.toNat h.toNat) := by
  obtain ⟨X, rfl⟩ := Int.eq_ofNat_of_zero_le hs.left
  obtain ⟨Y, rfl⟩ := Int.eq_ofNat_of_zero_le hs.top
  obtain ⟨Wd, rfl⟩ := Int.eq_ofNat_of_zero_le hw
  obtain ⟨Hh, rfl⟩ := Int.eq_ofNat_of_zero_le hh
  have hx : X + Wd ≤ 256 := Int.ofNat_le.mp hs.right
  have hy : Y + Hh ≤ 256 := Int.ofNat_le.mp hs.bottom
  refine ⟨hs, fun i j hi hw hj hh => ?inside, fun c r hc hw hr hh hn => ?others, fun a ha => drawn_outside hx hy ha⟩
  case inside =>
    obtain ⟨i, rfl⟩ := Int.eq_ofNat_of_zero_le hi
    obtain ⟨j, rfl⟩ := Int.eq_ofNat_of_zero_le hj
    rw [← Int.natCast_add, ← Int.natCast_add, pixel_natCast]
    refine (BitVec.eq_ofBytes fun k hk => ?_).symm
    rw [BitVec.add_assoc, ← BitVec.ofNat_add]
    have hd : drawn m pixels X Y Wd Hh (fb + BitVec.ofNat 32 (4 * ((Y + j) * 256 + (X + i)) + k)) = _ :=
      drawn_inside hx hy (by omega) (Int.ofNat_lt.mp hh) hk
    rw [Int.toNat_natCast, Int.toNat_natCast, Int.toNat_natCast, Int.toNat_natCast, hd, Nat.add_sub_cancel_left]
    push_cast
    rfl
  case others =>
    obtain ⟨c, rfl⟩ := Int.eq_ofNat_of_zero_le hc
    obtain ⟨r, rfl⟩ := Int.eq_ofNat_of_zero_le hr
    exact pixel_congr fun k hk => drawn_other hx hy (Int.ofNat_lt.mp hw) (Int.ofNat_lt.mp hh) (by omega) hk

section Outcomes

variable {f : Int → Machine Unit} {v : Int}

theorem int_bind_of_fits (h : Signed.Fits 32 v) : (int v >>= f) m = f v m :=
  EState.bind_of_ok <| by rw [int, Signed.checked_of_fits h]; rfl

theorem int_bind_of_not_fits (h : ¬Signed.Fits 32 v) : (int v >>= f) m = .error .undefined m :=
  EState.bind_of_error <| by rw [int, Signed.checked_of_not_fits h]; rfl

-- The copy of the whole screen.
def whole (mc : Memcpy) (pixels : Int → Word) : Machine Unit :=
  mc fb (bytes pixels) (4 * toSize W * toSize H)

-- The requests that do not cover the whole screen.
def partialScreen (ctl : Fbdraw) : Prop :=
  ¬(ctl.x.toInt = 0 ∧ ctl.y.toInt = 0 ∧ ctl.w.toInt = W ∧ ctl.h.toInt = H)

-- What follows the checks.
def copy (mc : Memcpy) (pixels : Int → Word) (x y w h : Int) : Machine Unit := do
  let i ← int ((← int (y * W)) + x)
  rows mc w (toSize (toInt (4 * toSize w))) h.toNat (fb + BitVec.ofInt 32 (4 * i)) pixels

theorem fbdraw_whole (hp : ctl.pixels = some pixels) (hf : ¬partialScreen ctl) : fbdraw mc ctl = whole mc pixels := by
  rw [fbdraw, hp]
  exact if_pos (not_not.mp hf)

theorem fbdraw_of_partialScreen (hp : ctl.pixels = some pixels) (hf : partialScreen ctl) : fbdraw mc ctl = (do
    if (← int (ctl.x.toInt + ctl.w.toInt)) > W then throw (.panic "bad draw command")
    if (← int (ctl.y.toInt + ctl.h.toInt)) > H then throw (.panic "bad draw command")
    copy mc pixels ctl.x.toInt ctl.y.toInt ctl.w.toInt ctl.h.toInt) := by
  rw [fbdraw, hp]
  exact if_neg hf

-- A check on the sum `v` of a coordinate and a length.
theorem check_eq {next : Machine Unit} {bound : Int} (hl : -2 ^ 31 ≤ v) :
    (do if (← int v) > bound then throw (.panic "bad draw command")
        next : Machine Unit) m =
      if v < 2 ^ 31 then if bound < v then .error (.panic "bad draw command") m else next m
      else .error .undefined m := by
  by_cases h : v < 2 ^ 31
  case neg => rw [int_bind_of_not_fits fun hf => h hf.right, if_neg h]
  case pos =>
    rw [int_bind_of_fits ⟨hl, h⟩, if_pos h]
    by_cases hv : bound < v
    case pos => rw [if_pos hv, if_pos hv]; rfl
    case neg => rw [if_neg hv, if_neg hv]

end Outcomes

-- What a request may come to: a panic that leaves the frame buffer as it is, or the picture.
def Meets (x y w h : Int) (pixels : Int → Word) (m : Memory 32) : EStateM.Result Stop (Memory 32) Unit → Prop
  | .ok _ m'              => Drawn x y w h pixels m m'
  | .error (.panic _) m'  => ∀ a ∈ frame, m' a = m a
  | .error .undefined _   => False

-- The checks decide on the sums, as far as these have a value. What they let pass has to meet `P`.
def Decided (x y w h : Int) (P : Prop) : Prop :=
  x + w < 2 ^ 31 ∧ (W < x + w ∨ y + h < 2 ^ 31 ∧ (H < y + h ∨ P))

theorem meets_fbdraw_iff {P : Prop} (hp : ctl.pixels = some pixels) (hw : 0 ≤ ctl.w.toInt) (hh : 0 ≤ ctl.h.toInt)
    (hs : whole mc pixels m = copy mc pixels 0 0 W H m)
    (hc : ctl.x.toInt + ctl.w.toInt ≤ W → ctl.y.toInt + ctl.h.toInt ≤ H →
      (Meets ctl.x.toInt ctl.y.toInt ctl.w.toInt ctl.h.toInt pixels m
        (copy mc pixels ctl.x.toInt ctl.y.toInt ctl.w.toInt ctl.h.toInt m) ↔ P)) :
    Meets ctl.x.toInt ctl.y.toInt ctl.w.toInt ctl.h.toInt pixels m (fbdraw mc ctl m) ↔
      Decided ctl.x.toInt ctl.y.toInt ctl.w.toInt ctl.h.toInt P := by
  have hlx := ctl.x.le_toInt
  have hly := ctl.y.le_toInt
  rw [Decided]
  by_cases hf : partialScreen ctl
  case neg =>
    have ⟨hx, hy, hw, hh⟩ := not_not.mp hf
    rw [hx, hy, hw, hh] at hc ⊢
    rw [fbdraw_whole hp hf, hs, hc (by decide) (by decide)]
    exact ⟨fun hP => ⟨by decide, .inr ⟨by decide, .inr hP⟩⟩, fun ⟨_, h⟩ =>
      (h.resolve_left (by decide)).right.resolve_left (by decide)⟩
  case pos =>
    rw [fbdraw_of_partialScreen hp hf, check_eq (by omega)]
    by_cases hx : ctl.x.toInt + ctl.w.toInt < 2 ^ 31
    case neg => simp only [hx, if_false, false_and, Meets]
    case pos =>
      rw [if_pos hx, and_iff_right hx]
      by_cases hbx : W < ctl.x.toInt + ctl.w.toInt
      case pos => simp only [hbx, if_true, Meets, implies_true, true_or]
      case neg =>
        rw [if_neg hbx, or_iff_right hbx, check_eq (by omega)]
        by_cases hy : ctl.y.toInt + ctl.h.toInt < 2 ^ 31
        case neg => simp only [hy, if_false, false_and, Meets]
        case pos =>
          rw [if_pos hy, and_iff_right hy]
          by_cases hby : H < ctl.y.toInt + ctl.h.toInt
          case pos => simp only [hby, if_true, Meets, implies_true, true_or]
          case neg =>
            rw [if_neg hby, or_iff_right hby]
            exact hc (Int.not_lt.mp hbx) (Int.not_lt.mp hby)

section Copies

theorem toSize_toInt {n : Nat} (h : n < 2 ^ 32) : toSize (toInt n) = n := by
  rw [toSize, toInt, BitVec.ofInt_toInt, BitVec.toNat_ofNat, Nat.mod_eq_of_lt h]

theorem toSize_natCast {n : Nat} (h : n < 2 ^ 32) : toSize n = n := by
  rw [toSize, BitVec.ofInt_natCast, BitVec.toNat_ofNat, Nat.mod_eq_of_lt h]

theorem copy_of_fits (hy : Signed.Fits 32 (y * W)) (hx : Signed.Fits 32 (y * W + x)) :
    copy mc pixels x y w h m =
      rows mc w (toSize (toInt (4 * toSize w))) h.toNat (fb + BitVec.ofInt 32 (4 * (y * W + x))) pixels m := by
  rw [copy, int_bind_of_fits hy, int_bind_of_fits hx]

theorem copy_of_not_fits (hf : ¬(Signed.Fits 32 (y * W) ∧ Signed.Fits 32 (y * W + x))) :
    copy mc pixels x y w h m = .error .undefined m := by
  rw [copy]
  by_cases hy : Signed.Fits 32 (y * W)
  case neg => rw [int_bind_of_not_fits hy]
  case pos => rw [int_bind_of_fits hy, int_bind_of_not_fits fun hx => hf ⟨hy, hx⟩]

theorem fits_of_onScreen (hs : OnScreen x y w h) (hw : 0 ≤ w) (hh : 0 ≤ h) :
    Signed.Fits 32 (y * W) ∧ Signed.Fits 32 (y * W + x) := by
  have ⟨_, hr, _, hb⟩ := hs
  unfold W H at *
  omega

theorem copy_memcpy (hs : OnScreen x y w h) (hw : 0 ≤ w) (hh : 0 ≤ h) :
    copy memcpy pixels x y w h m = .ok .unit (drawn m pixels x.toNat y.toNat w.toNat h.toNat) := by
  have ⟨hy, hx⟩ := fits_of_onScreen hs hw hh
  have ⟨_, hr, _, hb⟩ := hs
  unfold W H at *
  obtain ⟨X, rfl⟩ := Int.eq_ofNat_of_zero_le hs.left
  obtain ⟨Y, rfl⟩ := Int.eq_ofNat_of_zero_le hs.top
  obtain ⟨Wd, rfl⟩ := Int.eq_ofNat_of_zero_le hw
  have hc : fb + BitVec.ofInt 32 (4 * ((Y : Int) * 256 + X)) = corner X Y := by
    rw [corner, ← BitVec.ofInt_natCast]
    rfl
  rw [copy_of_fits hy hx, rows_memcpy, toSize_natCast (by omega), toSize_toInt (by omega), W, hc]
  rfl

theorem meets_copy_memcpy_iff (hw : 0 ≤ w) (hh : 0 ≤ h) (hr : x + w ≤ W) (hb : y + h ≤ H) :
    Meets x y w h pixels m (copy memcpy pixels x y w h m) ↔ 0 ≤ x ∧ 0 ≤ y := by
  constructor
  case mpr =>
    intro ⟨hx, hy⟩
    have hs : OnScreen x y w h := ⟨hx, hr, hy, hb⟩
    rw [copy_memcpy hs hw hh]
    exact drawn_of_onScreen hs hw hh
  case mp =>
    intro hm
    by_cases hf : Signed.Fits 32 (y * W) ∧ Signed.Fits 32 (y * W + x)
    case pos =>
      rw [copy_of_fits hf.left hf.right, rows_memcpy] at hm
      exact ⟨hm.left, hm.top⟩
    case neg =>
      rw [copy_of_not_fits hf] at hm
      exact hm.elim

-- The function of klib never copies anything.
theorem meets_copy_klib_iff (hw : 0 ≤ w) (hh : 0 ≤ h) (hr : x + w ≤ W) (hb : y + h ≤ H) :
    Meets x y w h pixels m (copy Klib.memcpy pixels x y w h m) ↔
      (0 ≤ x ∧ 0 ≤ y) ∨ 0 < h ∧ -2 ^ 31 ≤ y * W ∧ -2 ^ 31 ≤ y * W + x := by
  by_cases hf : Signed.Fits 32 (y * W) ∧ Signed.Fits 32 (y * W + x)
  case neg =>
    rw [copy_of_not_fits hf]
    refine iff_of_false id fun hc => hf ?_
    unfold W H at *
    omega
  case pos =>
    rw [copy_of_fits hf.left hf.right]
    by_cases h0 : h = 0
    case pos =>
      subst h0
      refine ⟨fun hm => .inl ⟨hm.left, hm.top⟩, fun hc => ?_⟩
      have ⟨hx, hy⟩ := hc.resolve_right fun hc => Int.lt_irrefl _ hc.left
      exact drawn_of_onScreen ⟨hx, hr, hy, hb⟩ hw hh
    case neg =>
      obtain ⟨n, hn⟩ : ∃ n, h.toNat = n + 1 := ⟨h.toNat - 1, by omega⟩
      rw [hn]
      exact iff_of_true (fun _ _ => rfl) (.inr ⟨by omega, hf.left.left, hf.right.left⟩)

theorem whole_memcpy : whole memcpy pixels m = copy memcpy pixels 0 0 W H m := by
  rw [copy_memcpy ⟨by decide, by decide, by decide, by decide⟩ (by decide) (by decide)]
  exact congrArg _ drawn_screen.symm

theorem whole_klib : whole Klib.memcpy pixels m = copy Klib.memcpy pixels 0 0 W H m := by
  rw [copy_of_fits (by decide) (by decide)]
  rfl

end Copies

-- A request is served as it should if and only if the sums that are evaluated have a value and one of them is too
-- large or no coordinate is negative. The `memcpy` of klib panics, which saves some of the other requests.
theorem meets_iff (hp : ctl.pixels = some pixels) (hw : 0 ≤ ctl.w.toInt) (hh : 0 ≤ ctl.h.toInt) :
    (Meets ctl.x.toInt ctl.y.toInt ctl.w.toInt ctl.h.toInt pixels m (fbdraw memcpy ctl m) ↔
      Decided ctl.x.toInt ctl.y.toInt ctl.w.toInt ctl.h.toInt (0 ≤ ctl.x.toInt ∧ 0 ≤ ctl.y.toInt)) ∧
    (Meets ctl.x.toInt ctl.y.toInt ctl.w.toInt ctl.h.toInt pixels m (fbdraw Klib.memcpy ctl m) ↔
      Decided ctl.x.toInt ctl.y.toInt ctl.w.toInt ctl.h.toInt
        ((0 ≤ ctl.x.toInt ∧ 0 ≤ ctl.y.toInt) ∨
          0 < ctl.h.toInt ∧ -2 ^ 31 ≤ ctl.y.toInt * W ∧ -2 ^ 31 ≤ ctl.y.toInt * W + ctl.x.toInt)) ∧
    whole memcpy pixels m = copy memcpy pixels 0 0 W H m ∧
    whole Klib.memcpy pixels m = copy Klib.memcpy pixels 0 0 W H m := by
  exact ⟨meets_fbdraw_iff hp hw hh whole_memcpy (meets_copy_memcpy_iff hw hh),
    meets_fbdraw_iff hp hw hh whole_klib (meets_copy_klib_iff hw hh), whole_memcpy, whole_klib⟩

end Requests

-- A pixel in column 10 of row 20, with either `memcpy`, and the whole screen.
theorem meets_iff_pixel :
    let pixels : Int → Word := fun _ => 0xffffff
    let ctl : Fbdraw := { x := 10, y := 20, w := 1, h := 1, pixels := some pixels }
    Meets 10 20 1 1 pixels (fun _ => 0) (fbdraw memcpy ctl fun _ => 0) ∧
    Meets 10 20 1 1 pixels (fun _ => 0) (fbdraw Klib.memcpy ctl fun _ => 0) ∧
    whole memcpy pixels (fun _ => 0) = copy memcpy pixels 0 0 W H (fun _ => 0) ∧
    whole Klib.memcpy pixels (fun _ => 0) = copy Klib.memcpy pixels 0 0 W H (fun _ => 0) := by
  intro pixels ctl
  have hx : ctl.x.toInt = 10 := by decide
  have hy : ctl.y.toInt = 20 := by decide
  have hw : ctl.w.toInt = 1 := by decide
  have hh : ctl.h.toInt = 1 := by decide
  have hm := meets_iff (m := fun _ => 0) (show ctl.pixels = some pixels from rfl) (by rw [hw]; decide)
    (by rw [hh]; decide)
  rw [hx, hy, hw] at hm
  have hd {P : Prop} (h : P) : Decided 10 20 1 1 P := ⟨by decide, .inr ⟨by decide, .inr h⟩⟩
  have ⟨h₁, h₂, h₃⟩ := hm
  rw [h₁, h₂]
  exact ⟨hd (by decide), hd <| .inl (by decide), h₃⟩

-- A pixel left of the screen: the four bytes before the frame buffer are overwritten. The first sum has no value for
-- a pixel in the last column that an `int` can name.
theorem not_meets :
    let ctl : Fbdraw := { x := -1, y := 0, w := 1, h := 1, pixels := some fun _ => 0xffffffff }
    let far : Fbdraw := { x := 0x7fffffff, y := 0, w := 1, h := 1, pixels := some fun _ => 0xffffffff }
    ¬Meets (-1) 0 1 1 (fun _ => 0xffffffff) (fun _ => 0) (fbdraw memcpy ctl fun _ => 0) ∧
    (∃ m', fbdraw memcpy ctl (fun _ => 0) = .ok .unit m' ∧ 0x1ffffffc ∉ frame ∧ m' 0x1ffffffc = 0xff) ∧
    ¬Meets 0x7fffffff 0 1 1 (fun _ => 0xffffffff) (fun _ => 0) (fbdraw Klib.memcpy far fun _ => 0) := by
  refine ⟨fun h => ?left, ⟨_, rfl, ?outside, by decide⟩, id⟩
  case left => exact absurd h.left (by decide)
  case outside =>
    rw [frame, Memory.mem_region]
    decide

end Am.Logisim
