import Ysyx.Am.X86.Boot
import Ysyx.Bytes.Overlay

-- What the boot loader copies and clears for a segment.

namespace Am.Boot

open BitVec (ofNat)
open Elf (Segment)
open Fuel (Yields)

variable {disk : Disk} {file : Nat → Byte} {mem : Memory 32} {buf cur sect nbytes a : Word} {n k i : Nat}
variable {s : Segment}

-- The file follows the boot sector and the arguments.
def Contains (disk : Disk) (file : Nat → Byte) : Prop :=
  ∀ n i, n + 3 < 2 ^ 28 → i < 512 → disk false (ofNat 28 (n + 3)) i = file (512 * n + i)

-- A segment that can be read by sectors.
structure Aligned (s : Segment) : Prop where
  sizes : s.filesz ≤ s.memsz
  congr : s.paddr % 512 = s.offset % 512

-- The end of the bytes of a segment. Addresses are words.
def stop (s : Segment) : Nat :=
  (s.paddr + s.filesz) % 2 ^ 32

-- The loop over the sectors does not end if they reach the end of the address space.
def Ends (s : Segment) : Prop :=
  stop s ≤ 0xfffffe00

instance : Decidable (Ends s) :=
  inferInstanceAs <| Decidable (_ ≤ _)

-- The sectors that the bytes of a segment lie in.
def Sectors (s : Segment) (a : Nat) : Prop :=
  512 * (s.paddr % 2 ^ 32 / 512) ≤ a ∧ a < 512 * ((stop s + 511) / 512)

instance : DecidablePred (Sectors s) :=
  fun _ => inferInstanceAs <| Decidable (_ ∧ _)

-- The bytes that are cleared.
def Zeros (s : Segment) (a : Word) : Prop :=
  (a - ofNat 32 (stop s)).toNat < (ofNat 32 s.memsz - ofNat 32 s.filesz).toNat

instance : DecidablePred (Zeros s) :=
  fun _ => inferInstanceAs <| Decidable (_ < _)

-- The sector of the disk for an address. The offset is an `int`.
def sectorOf (s : Segment) (a : Nat) : Word :=
  (ofNat 32 s.offset).sdiv (ofNat 32 SECTSIZE) + ofNat 32 (ARGSIZE / SECTSIZE) + 1 +
    ofNat 32 (a / 512 - s.paddr % 2 ^ 32 / 512)

-- What a segment puts into the memory: zeros behind its bytes, and the sectors around them.
def patch (disk : Disk) (s : Segment) (a : Word) : Option Byte :=
  if Zeros s a then some 0
  else if Sectors s a.toNat then some (disk.sector (sectorOf s a.toNat) (a.toNat % 512))
  else none

section Sectors

theorem toNat_sub_add {x : Nat} (h : x < 2 ^ 32) : (a - (buf + ofNat 32 x)).toNat =
    if x ≤ (a - buf).toNat then (a - buf).toNat - x else (a - buf).toNat + 2 ^ 32 - x := by
  rw [← sub_sub]
  have hd := (a - buf).isLt
  generalize a - buf = d at hd
  rw [BitVec.toNat_sub, BitVec.toNat_ofNat, Nat.mod_eq_of_lt h]
  split <;> omega

theorem fold_read_disk (h : n ≤ 128) : (List.range n).foldl (fun mem i =>
      mem.store (buf + ofNat 32 (4 * i)) 4 (BitVec.ofBytes fun k => disk.sector sect (4 * i + k))) mem =
    fun a => if (a - buf).toNat < 4 * n then disk.sector sect (a - buf).toNat else mem a := by
  induction n
  case zero => simp
  case succ n hi =>
    rw [List.range_succ, List.foldl_append, hi (by omega)]
    funext a
    rw [List.foldl_cons, List.foldl_nil, Memory.store_apply, toNat_sub_add (by omega)]
    generalize (a - buf).toNat = d
    by_cases hd : 4 * n ≤ d ∧ d < 4 * (n + 1)
    case pos =>
      have hb : (BitVec.ofBytes fun k => disk.sector sect (4 * n + k)).byte (d - 4 * n) = _ :=
        BitVec.byte_ofBytes (by omega)
      rw [if_pos hd.left, if_pos (by omega), if_pos hd.right]
      rw [show 4 * n + (d - 4 * n) = d by omega] at hb
      exact hb
    case neg =>
      rw [if_neg (by split <;> omega)]
      by_cases hn : d < 4 * n
      case pos => rw [if_pos hn, if_pos (by omega)]
      case neg => rw [if_neg hn, if_neg (by omega)]

-- A sector is read to its place.
theorem read_disk_eq : read_disk disk buf sect mem =
    fun a => if (a - buf).toNat < 512 then disk.sector sect (a - buf).toNat else mem a :=
  fold_read_disk le_rfl

-- The memory after `n` sectors.
def copied (disk : Disk) (cur sect : Word) (mem : Memory 32) (n : Nat) : Memory 32 :=
  fun a =>
    if (a - cur).toNat < 512 * n then disk.sector (sect + ofNat 32 ((a - cur).toNat / 512)) ((a - cur).toNat % 512)
    else mem a

theorem copied_succ (h : 512 * (n + 1) ≤ 2 ^ 32) :
    read_disk disk (cur + ofNat 32 (512 * n)) (sect + ofNat 32 n) (copied disk cur sect mem n) =
    copied disk cur sect mem (n + 1) := by
  funext a
  rw [read_disk_eq]
  simp only [copied]
  rw [toNat_sub_add (by omega)]
  have hd := (a - cur).isLt
  generalize (a - cur).toNat = d at hd
  by_cases hn : 512 * n ≤ d ∧ d < 512 * (n + 1)
  case pos =>
    rw [if_pos hn.left, if_pos (by omega), if_pos hn.right]
    rw [show d / 512 = n by omega, show d % 512 = d - 512 * n by omega]
  case neg =>
    rw [if_neg (by split <;> omega)]
    by_cases hl : d < 512 * n
    case pos => rw [if_pos hl, if_pos (by omega)]
    case neg => rw [if_neg hl, if_neg (by omega)]

-- The variables after `n` sectors.
def copies (disk : Disk) (cur sect : Word) (mem : Memory 32) (n : Nat) : Copy where
  cur  := cur + ofNat 32 (512 * n)
  sect := sect + ofNat 32 n
  mem  := copied disk cur sect mem n

theorem copied_zero : copied disk cur sect mem 0 = mem :=
  funext fun _ => if_neg <| Nat.not_lt_zero _

theorem copies_zero : copies disk cur sect mem 0 = { cur, sect, mem } := by
  rw [copies, copied_zero]
  simp

theorem copies_succ (h : 512 * (n + 1) ≤ 2 ^ 32) :
    { cur  := (copies disk cur sect mem n).cur + ofNat 32 SECTSIZE
      sect := (copies disk cur sect mem n).sect + 1
      mem  := read_disk disk (copies disk cur sect mem n).cur (copies disk cur sect mem n).sect
        (copies disk cur sect mem n).mem } =
    copies disk cur sect mem (n + 1) := by
  simp only [copies, copied_succ h]
  rw [BitVec.add_assoc, ← BitVec.ofNat_add, BitVec.add_assoc, BitVec.ofNat_add n 1]
  rfl

theorem loop_copy_yields {ed : Word} (hn : cur.toNat + 512 * n < 2 ^ 32) (he : ed.toNat ≤ cur.toNat + 512 * n)
    (hl : ∀ i < n, cur.toNat + 512 * i < ed.toNat) :
    Yields (Fuel.loop (fun s : Copy => s.cur < ed)
      (fun s => return {
        cur  := s.cur + ofNat 32 SECTSIZE
        sect := s.sect + 1
        mem  := read_disk disk s.cur s.sect s.mem })
      { cur, sect, mem })
    (copies disk cur sect mem n) := by
  have hc : ∀ i ≤ n, (copies disk cur sect mem i).cur.toNat = cur.toNat + 512 * i := by
    intro i hi
    rw [copies, BitVec.toNat_add, BitVec.toNat_ofNat]
    omega
  rw [← copies_zero]
  refine Yields.loop (fun i hi => ?_) ?_ fun i hi => ?_
  case refine_1 =>
    rw [decide_eq_true_iff, BitVec.lt_def, hc i (Nat.le_of_lt hi)]
    exact hl i hi
  case refine_2 =>
    rw [decide_eq_false_iff_not, BitVec.lt_def, hc n le_rfl]
    omega
  case refine_3 =>
    rw [← copies_succ (by omega)]
    exact .pure

theorem toNat_aligned : (buf &&& ~~~ofNat 32 (SECTSIZE - 1)).toNat = 512 * (buf.toNat / 512) := by
  have h : buf &&& ~~~ofNat 32 (SECTSIZE - 1) = buf >>> 9 <<< 9 := by
    ext k hk
    have hb : (ofNat 32 (SECTSIZE - 1)).getLsbD k = decide (k < 9) := by
      rw [BitVec.getLsbD_ofNat, show SECTSIZE - 1 = 2 ^ 9 - 1 by rfl, Nat.testBit_two_pow_sub_one]
      simp [hk]
    generalize ofNat 32 (SECTSIZE - 1) = c at hb
    simp [← BitVec.getLsbD_eq_getElem, hk, hb]
    grind
  rw [h, BitVec.toNat_shiftLeft, BitVec.toNat_ushiftRight, Nat.shiftLeft_eq, Nat.shiftRight_eq_div_pow]
  omega

theorem toNat_sect {disk_offset : Word} (h : disk_offset.toNat < 2 ^ 31) :
    (disk_offset.sdiv (ofNat 32 SECTSIZE) + ofNat 32 (ARGSIZE / SECTSIZE) + 1).toNat =
      disk_offset.toNat / 512 + 3 := by
  have hm : disk_offset.msb = false := by
    rw [BitVec.msb_eq_decide]
    simp only [decide_eq_false_iff_not]
    omega
  have hd : disk_offset.sdiv (ofNat 32 SECTSIZE) = disk_offset.udiv (ofNat 32 SECTSIZE) := by
    rw [BitVec.sdiv_eq, hm]
    rfl
  rw [hd, BitVec.toNat_add, BitVec.toNat_add, BitVec.udiv_eq, BitVec.toNat_udiv]
  simp [SECTSIZE, ARGSIZE]
  omega

-- All sectors that the bytes lie in are copied.
theorem copy_from_disk_yields {disk_offset : Word} (h : (buf + nbytes).toNat ≤ 0xfffffe00) :
    Yields (copy_from_disk disk buf nbytes disk_offset mem)
      (copied disk (buf &&& ~~~ofNat 32 (SECTSIZE - 1))
        (disk_offset.sdiv (ofNat 32 SECTSIZE) + ofNat 32 (ARGSIZE / SECTSIZE) + 1) mem
        (((buf + nbytes).toNat + 511) / 512 - buf.toNat / 512)) := by
  have hb := buf.isLt
  refine .bind (loop_copy_yields ?_ ?_ fun i hi => ?_) .pure
  all_goals
    rw [toNat_aligned]
    omega

-- In the last sector of the address space, the end is never reached.
theorem copy_from_disk_eq_none {disk_offset : Word} (h : 0xfffffe00 < (buf + nbytes).toNat) :
    copy_from_disk disk buf nbytes disk_offset mem n = none := by
  refine Fuel.bind_eq_none <| Fuel.loop_eq_none (I := fun s => s.cur.toNat % 512 = 0) (fun s hs => ?_)
    (fun s n s' hs h => ?_) ?_
  case refine_1 =>
    rw [decide_eq_true_iff, BitVec.lt_def]
    omega
  case refine_2 =>
    obtain rfl := Option.some_inj.mp h
    rw [BitVec.toNat_add, BitVec.toNat_ofNat, SECTSIZE]
    omega
  case refine_3 =>
    rw [toNat_aligned]
    omega

end Sectors

section Clear

variable {bss filesz memsz : Word}

-- The memory after `n` rounds of the other loop.
def cleared (bss : Word) (mem : Memory 32) (n : Nat) : Memory 32 :=
  fun a => if (a - bss).toNat < n then 0 else mem a

theorem cleared_succ (h : n < 2 ^ 32) :
    Function.update (cleared bss mem n) (bss + ofNat 32 n) 0 = cleared bss mem (n + 1) := by
  funext a
  rw [Function.update_apply]
  simp only [cleared]
  by_cases ha : a = bss + ofNat 32 n
  case pos => rw [if_pos ha, ha, Memory.toNat_add_ofNat_sub h, if_pos n.lt_succ_self]
  case neg =>
    have hn : (a - bss).toNat ≠ n := by
      intro hn
      rw [← hn, BitVec.ofNat_toNat, BitVec.setWidth_eq, add_sub_cancel] at ha
      exact ha rfl
    rw [if_neg ha]
    simp only [show (a - bss).toNat < n + 1 ↔ (a - bss).toNat < n by omega]

-- The variables after `n` rounds.
def clears (filesz bss : Word) (mem : Memory 32) (n : Nat) : Clear where
  i   := filesz + ofNat 32 n
  bss := bss + ofNat 32 n
  mem := cleared bss mem n

theorem cleared_zero : cleared bss mem 0 = mem :=
  funext fun _ => if_neg <| Nat.not_lt_zero _

theorem clears_zero : clears filesz bss mem 0 = { i := filesz, bss, mem } := by
  rw [clears, cleared_zero]
  simp

theorem clears_succ (h : n < 2 ^ 32) :
    { i   := (clears filesz bss mem n).i + 1
      bss := (clears filesz bss mem n).bss + 1
      mem := Function.update (clears filesz bss mem n).mem (clears filesz bss mem n).bss 0 } =
    clears filesz bss mem (n + 1) := by
  simp only [clears, cleared_succ h]
  rw [BitVec.add_assoc, BitVec.add_assoc, BitVec.ofNat_add n 1]
  rfl

theorem loop_clear_yields :
    Yields (Fuel.loop (fun s : Clear => s.i ≠ memsz)
      (fun s => return { i := s.i + 1, bss := s.bss + 1, mem := Function.update s.mem s.bss 0 })
      { i := filesz, bss, mem })
    (clears filesz bss mem (memsz - filesz).toNat) := by
  have hm := (memsz - filesz).isLt
  have hi : ∀ k ≤ (memsz - filesz).toNat, (clears filesz bss mem k).i = memsz ↔ k = (memsz - filesz).toNat := by
    intro k hk
    rw [clears, eq_comm, ← sub_eq_iff_eq_add', BitVec.toNat_eq, BitVec.toNat_ofNat, Nat.mod_eq_of_lt (by omega),
      eq_comm]
  rw [← clears_zero]
  refine Yields.loop (fun k hk => ?_) ?_ fun k hk => ?_
  case refine_1 =>
    rw [decide_eq_true_iff, ne_eq, hi k (Nat.le_of_lt hk)]
    exact Nat.ne_of_lt hk
  case refine_2 =>
    rw [decide_eq_false_iff_not, not_not, hi _ le_rfl]
  case refine_3 =>
    rw [← clears_succ (by omega)]
    exact .pure

theorem load_program_yields {paddr offset : Word} (h : (paddr + filesz).toNat ≤ 0xfffffe00) :
    Yields (load_program disk filesz memsz paddr offset mem)
      (cleared (paddr + filesz)
        (copied disk (paddr &&& ~~~ofNat 32 (SECTSIZE - 1))
          (offset.sdiv (ofNat 32 SECTSIZE) + ofNat 32 (ARGSIZE / SECTSIZE) + 1) mem
          (((paddr + filesz).toNat + 511) / 512 - paddr.toNat / 512))
        (memsz - filesz).toNat) :=
  .bind (copy_from_disk_yields h) <| .bind loop_clear_yields .pure

end Clear

section Patch

open Overlay (overlay)

theorem sector_eq (hc : Contains disk file) (hs : sect.toNat = n + 3) (hn : n + 3 < 2 ^ 28) (hi : i < 512) :
    disk.sector sect i = file (512 * n + i) := by
  have hd : sect.getLsbD 28 = false := by
    rw [BitVec.getLsbD, hs, Nat.testBit_lt_two_pow hn]
  have he : sect.extractLsb' 0 28 = ofNat 28 (n + 3) := by
    apply BitVec.eq_of_toNat_eq
    simp [hs]
  rw [Disk.sector, hd, he, hc n i hn hi]

theorem ofNat_stop : ofNat 32 s.paddr + ofNat 32 s.filesz = ofNat 32 (stop s) := by
  rw [← BitVec.ofNat_add, BitVec.toNat_eq, BitVec.toNat_ofNat, BitVec.toNat_ofNat, stop, Nat.mod_mod]

theorem toNat_stop : (ofNat 32 (stop s)).toNat = stop s := by
  rw [BitVec.toNat_ofNat, stop, Nat.mod_mod]

theorem copied_eq (he : Ends s) (hcur : cur.toNat = 512 * (s.paddr % 2 ^ 32 / 512)) :
    copied disk cur sect mem ((stop s + 511) / 512 - s.paddr % 2 ^ 32 / 512) =
    fun a => if Sectors s a.toNat then
      disk.sector (sect + ofNat 32 (a.toNat / 512 - s.paddr % 2 ^ 32 / 512)) (a.toNat % 512) else mem a := by
  funext a
  rw [Ends] at he
  have hb := a.isLt
  have hp := Nat.mod_lt s.paddr (Nat.two_pow_pos 32)
  have hd : (a - cur).toNat =
      if 512 * (s.paddr % 2 ^ 32 / 512) ≤ a.toNat then a.toNat - 512 * (s.paddr % 2 ^ 32 / 512)
      else a.toNat + 2 ^ 32 - 512 * (s.paddr % 2 ^ 32 / 512) := by
    rw [BitVec.toNat_sub, hcur]
    split <;> omega
  simp only [copied, hd]
  by_cases hi : Sectors s a.toNat
  case pos =>
    have ⟨hl, hu⟩ := hi
    have hq : (a.toNat - 512 * (s.paddr % 2 ^ 32 / 512)) / 512 = a.toNat / 512 - s.paddr % 2 ^ 32 / 512 := by omega
    have hr : (a.toNat - 512 * (s.paddr % 2 ^ 32 / 512)) % 512 = a.toNat % 512 := by omega
    rw [if_pos hi, if_pos hl, if_pos (by omega), hq, hr]
  case neg =>
    rw [if_neg hi, if_neg]
    rw [Sectors] at hi
    split <;> omega

theorem cleared_eq {m : Memory 32} : cleared (ofNat 32 (stop s)) m (ofNat 32 s.memsz - ofNat 32 s.filesz).toNat =
    fun a => if Zeros s a then 0 else m a := (rfl)

theorem load_segment_yields (he : Ends s) :
    Yields (load_program disk (ofNat 32 s.filesz) (ofNat 32 s.memsz) (ofNat 32 s.paddr) (ofNat 32 s.offset) mem)
      (overlay mem (patch disk s)) := by
  have hs : (ofNat 32 s.paddr + ofNat 32 s.filesz).toNat ≤ 0xfffffe00 := by
    rw [ofNat_stop, toNat_stop]
    exact he
  have hy : Yields (load_program disk _ (ofNat 32 s.memsz) _ (ofNat 32 s.offset) mem) _ := load_program_yields hs
  have hcur : (ofNat 32 s.paddr &&& ~~~ofNat 32 (SECTSIZE - 1)).toNat = 512 * (s.paddr % 2 ^ 32 / 512) := by
    rw [toNat_aligned, BitVec.toNat_ofNat]
  rw [ofNat_stop, toNat_stop, BitVec.toNat_ofNat s.paddr, copied_eq he hcur, cleared_eq] at hy
  convert hy using 1
  funext a
  rw [overlay, patch]
  split
  case isTrue => rfl
  case isFalse => split <;> rfl

theorem load_segment_eq_none (h : ¬Ends s) : load_program disk (ofNat 32 s.filesz) (ofNat 32 s.memsz)
    (ofNat 32 s.paddr) (ofNat 32 s.offset) mem n = none :=
  Fuel.bind_eq_none <| copy_from_disk_eq_none <| by rw [ofNat_stop, toNat_stop]; exact Nat.lt_of_not_le h

section Covers

-- The last byte of the address space.
abbrev TOP : Word := 0xffffffff

theorem zeros_iff {a : Word} : Zeros s a ↔
    (a.toNat + (2 ^ 32 - stop s)) % 2 ^ 32 < (s.memsz + (2 ^ 32 - s.filesz % 2 ^ 32)) % 2 ^ 32 := by
  rw [Zeros, BitVec.toNat_sub, BitVec.toNat_sub, toNat_stop, BitVec.toNat_ofNat, BitVec.toNat_ofNat, Nat.add_comm,
    Nat.add_comm _ (s.memsz % 2 ^ 32), Nat.mod_add_mod]

theorem patch_eq_none : patch disk s a = none ↔ ¬Zeros s a ∧ ¬Sectors s a.toNat := by
  rw [patch]
  split
  case isTrue h => simp [h]
  case isFalse h => simp [h]

theorem in_memory (h : ∀ b, s.Covers b → b < 2 ^ 32) : s.memsz = 0 ∨ s.paddr + s.memsz ≤ 2 ^ 32 := by
  refine or_iff_not_imp_left.mpr fun hm => ?_
  have := h (s.paddr + s.memsz - 1) ⟨by omega, by omega⟩
  omega

-- A segment whose end is not a word is not loaded at all. Then it reaches the last byte of the address space.
theorem patch_covers (ha : Aligned s) (he : Ends s) (hm : ∀ b, s.Covers b → b < 2 ^ 32) {b : Nat} (hc : s.Covers b) :
    patch disk s (ofNat 32 b) ≠ none ∨ s.Covers TOP.toNat ∧ patch disk s TOP = none := by
  have hb : (ofNat 32 b).toNat = b := by rw [BitVec.toNat_ofNat, Nat.mod_eq_of_lt (hm b hc)]
  have h₁ := ha.sizes
  have h₂ := in_memory hm
  have ⟨h₃, h₄⟩ := hc
  have ht : TOP.toNat = 0xffffffff := rfl
  rw [Ends, stop] at he
  simp only [ne_eq, patch_eq_none, zeros_iff, Sectors, Segment.Covers, hb, ht, stop]
  omega

-- Only a segment that reaches the last byte writes there.
theorem covers_top (ha : Aligned s) (he : Ends s) (hm : ∀ b, s.Covers b → b < 2 ^ 32) (h : patch disk s TOP ≠ none) :
    s.Covers TOP.toNat := by
  have h₁ := ha.sizes
  have h₂ := in_memory hm
  have ht : TOP.toNat = 0xffffffff := rfl
  rw [Ends, stop] at he
  simp only [ne_eq, patch_eq_none, zeros_iff, Sectors, Segment.Covers, ht, stop] at h ⊢
  omega

section Low

variable (hc : Contains disk file) (ha : Aligned s) (ho : s.offset < 2 ^ 31) (he : s.paddr + s.filesz ≤ 0xfffffe00)
variable (hm : s.paddr + s.memsz < 2 ^ 32)
include hc ha ho he hm

-- What is put there for a segment whose offset is not negative.
theorem patch_eq : patch disk s a =
      if s.paddr + s.filesz ≤ a.toNat ∧ a.toNat < s.paddr + s.memsz then some 0
      else if Sectors s a.toNat then some (file (s.offset + a.toNat - s.paddr)) else none := by
  have ⟨h₁, h₂⟩ := ha
  have hb := a.isLt
  have hz : Zeros s a ↔ s.paddr + s.filesz ≤ a.toNat ∧ a.toNat < s.paddr + s.memsz := by
    rw [zeros_iff, stop]
    omega
  have hs (hi : Sectors s a.toNat) : disk.sector (sectorOf s a.toNat) (a.toNat % 512) =
      file (s.offset + a.toNat - s.paddr) := by
    have ⟨h₃, h₄⟩ := hi
    rw [stop] at h₄
    have hn : (ofNat 32 s.offset).toNat = s.offset := by
      rw [BitVec.toNat_ofNat]
      omega
    have ht : (sectorOf s a.toNat).toNat = s.offset / 512 + (a.toNat / 512 - s.paddr / 512) + 3 := by
      rw [sectorOf, BitVec.toNat_add, toNat_sect (hn.symm ▸ ho), hn, BitVec.toNat_ofNat]
      omega
    rw [sector_eq hc ht (by omega) (Nat.mod_lt _ (by decide))]
    congr 1
    omega
  rw [patch]
  simp only [hz]
  split
  case isTrue => rfl
  case isFalse =>
    split
    case isTrue hi => rw [hs hi]
    case isFalse => rfl

theorem patch_byte {b : Nat} (h : s.Covers b) : b < 2 ^ 32 ∧ patch disk s (ofNat 32 b) = some (s.byte file b) := by
  have h₁ := ha.sizes
  have ⟨h₂, h₃⟩ := h
  have hb : (ofNat 32 b).toNat = b := by
    rw [BitVec.toNat_ofNat]
    omega
  rw [patch_eq hc ha ho he hm, hb, Segment.byte]
  refine ⟨by omega, ?_⟩
  by_cases hf : b < s.paddr + s.filesz
  case neg => rw [if_pos ⟨by omega, h₃⟩, if_neg hf]
  case pos =>
    rw [if_neg (by omega), if_pos (by rw [Sectors, stop]; omega), if_pos hf]
    congr 2
    omega

end Low
end Covers

end Patch

end Am.Boot
