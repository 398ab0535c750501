import Mathlib.Data.BitVec
import Mathlib.Tactic.Abel
import Mathlib.Logic.Function.Basic

-- Ring buffers with wrapping pointers: the entries from the read pointer up to the write pointer.

namespace Ring

variable {k : Nat} {α : Type} {f : BitVec k → α} {r w d : BitVec k} {x : α}

def between (f : BitVec k → α) (r w : BitVec k) : List α :=
  (List.range (w - r).toNat).map fun i => f (r + BitVec.ofNat k i)

@[simp] theorem between_self : between f r r = [] := by
  simp [between]

@[simp] theorem length_between : (between f r w).length = (w - r).toNat := by
  simp [between]

theorem between_eq_nil_iff : between f r w = [] ↔ w = r := by
  rw [← List.length_eq_zero_iff, length_between]
  constructor
  · intro h
    exact sub_eq_zero.mp (BitVec.eq_of_toNat_eq h)
  · rintro rfl
    simp

theorem toNat_add_one (h : d + 1 ≠ 0) : (d + 1).toNat = d.toNat + 1 := by
  have hlt := d.isLt
  have ha : (d + 1).toNat = (d.toNat + 1) % 2 ^ k := by
    rw [BitVec.toNat_add, show (1 : BitVec k).toNat = 1 % 2 ^ k from BitVec.toNat_ofNat 1 k, Nat.add_mod_mod]
  by_cases he : d.toNat + 1 = 2 ^ k
  case pos =>
    rw [he, Nat.mod_self] at ha
    exact absurd (BitVec.eq_of_toNat_eq ha) h
  case neg => exact ha.trans (Nat.mod_eq_of_lt (by omega))

-- A buffer that does not become full keeps its entries when the next one is written.
theorem between_push (h : w + 1 ≠ r) :
    between (Function.update f w x) r (w + 1) = between f r w ++ [x] := by
  have hs : w + 1 - r = w - r + 1 := by abel
  have hn : w - r + 1 ≠ 0 := hs ▸ sub_ne_zero.mpr h
  rw [between, hs, toNat_add_one hn, List.range_succ, List.map_append, List.map_singleton]
  congr 1
  case _ =>
    refine List.map_congr_left fun i hi => Function.update_of_ne ?_ ..
    intro he
    have hi := List.mem_range.mp hi
    have hd : w - r = BitVec.ofNat k i := by rw [← he]; abel
    have := Nat.mod_le i (2 ^ k)
    rw [hd, BitVec.toNat_ofNat] at hi
    omega
  case _ =>
    have hw : r + BitVec.ofNat k (w - r).toNat = w := by
      rw [BitVec.ofNat_toNat, BitVec.setWidth_eq]
      abel
    rw [hw, Function.update_self]

theorem between_pop (h : w ≠ r) : between f r w = f r :: between f (r + 1) w := by
  have hs : w - r = w - (r + 1) + 1 := by abel
  have hn : w - (r + 1) + 1 ≠ 0 := hs ▸ sub_ne_zero.mpr h
  rw [between, hs, toNat_add_one hn, List.range_succ_eq_map, List.map_cons, List.map_map]
  congr 1
  case _ => simp
  case _ =>
    refine List.map_congr_left fun i _ => congrArg f ?_
    rw [Nat.succ_eq_add_one, BitVec.ofNat_add]
    abel

end Ring
