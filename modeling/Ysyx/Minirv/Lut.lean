import Ysyx.Bytes.Blocks
import Ysyx.Minirv.Replace

-- The contents of the tables: the file lut.bin as gen-lut.c writes it and the tables which
-- inst-replace.h defines itself.

open Rv32

namespace InstReplace

-- The bytes written by `gen_table`. The host is little-endian, so `fwrite` of the first `entrySize`
-- bytes of `res` writes its low bytes.
def genTable (row col entrySize : Nat) (expr : Nat → Nat → Word) : List Byte :=
  (List.range row).flatMap fun j =>
    (List.range col).flatMap fun i =>
      (List.range entrySize).map (expr j i).byte

def and8 (j i : Nat) : Word := BitVec.ofNat 32 (j &&& i)
def or8  (j i : Nat) : Word := BitVec.ofNat 32 (j ||| i)
def xor8 (j i : Nat) : Word := BitVec.ofNat 32 (j ^^^ i)
def sll8 (j i : Nat) : Word := BitVec.ofNat 32 i <<< j
def srl8 (j i : Nat) : Word := (BitVec.ofNat 32 i <<< 24) >>> j
def sra8 (j i : Nat) : Word := (BitVec.ofNat 32 i <<< 24).sshiftRight j

def lutBin : List Byte :=
  genTable 256 256 1 and8 ++ genTable 256 256 1 or8 ++ genTable 256 256 1 xor8 ++
  genTable 32 256 4 sll8 ++ genTable 32 256 4 srl8 ++ genTable 32 256 4 sra8

namespace Rodata

def sameResultTable : List Byte := [1, 0, 0, 0, 0, 0, 0, 0]
def check8bit0Table : List Byte := 0 :: List.replicate 255 1
def slt1Table       : List Byte := [0, 1, 0, 0, 1, 1, 0, 1]
def sltu1Table      : List Byte := [0, 1, 1, 1, 0, 0, 0, 1]
def or1Table        : List Byte := [0, 1, 1, 1]

end Rodata

-- The read-only objects of the header and their contents.
def Symbols.rodata (sym : Symbols) : List (Word × List Byte) :=
  [(sym.sameResultTable, Rodata.sameResultTable), (sym.check8bit0Table, Rodata.check8bit0Table),
   (sym.slt1Table, Rodata.slt1Table), (sym.sltu1Table, Rodata.sltu1Table),
   (sym.or1Table, Rodata.or1Table), (sym.logicShiftTable, lutBin)]

theorem genTable_length {row col entrySize : Nat} {expr} :
    (genTable row col entrySize expr).length = row * (col * entrySize) := by
  apply List.length_flatMap_range
  intro j
  apply List.length_flatMap_range
  simp

-- Entry `i` of row `j` starts at byte `(j * col + i) * entry_size` of the table.
theorem genTable_getElem? {row col entrySize : Nat} {expr : Nat → Nat → Word} {i j k : Nat}
    (hj : j < row) (hi : i < col) (hk : k < entrySize) :
    (genTable row col entrySize expr)[(j * col + i) * entrySize + k]? = some ((expr j i).byte k) := by
  have hl : ∀ j, ((List.range col).flatMap fun i => (List.range entrySize).map (expr j i).byte).length =
      col * entrySize := fun j => List.length_flatMap_range (by simp)
  have hk' : i * entrySize + k < col * entrySize := calc
    i * entrySize + k < i * entrySize + entrySize := Nat.add_lt_add_left hk _
    _                 = (i + 1) * entrySize := (Nat.succ_mul i entrySize).symm
    _                 ≤ col * entrySize := Nat.mul_le_mul_right _ hi
  rw [Nat.add_mul, Nat.mul_assoc, Nat.add_assoc, genTable, List.getElem?_flatMap_range hl hj hk',
    List.getElem?_flatMap_range (by simp) hi hk]
  simp [hk]

-- The tables of lut.bin are found at the offsets that the header computes.
structure Symbols.Tables (sym : Symbols) (m : Memory 32) : Prop where
  and8 : m.Holds sym.and8Table (genTable 256 256 1 and8)
  or8  : m.Holds sym.or8Table (genTable 256 256 1 or8)
  xor8 : m.Holds sym.xor8Table (genTable 256 256 1 xor8)
  sll8 : m.Holds sym.sll8Table (genTable 32 256 4 sll8)
  srl8 : m.Holds sym.srl8Table (genTable 32 256 4 srl8)
  sra8 : m.Holds sym.sra8Table (genTable 32 256 4 sra8)

theorem Symbols.tables_of_lutBin {sym : Symbols} {m : Memory 32}
    (h : m.Holds sym.logicShiftTable lutBin) : sym.Tables m := by
  unfold lutBin at h
  have hs := h.left
  have hl := hs.left
  have hx := hl.left
  have ho := hx.left
  refine ⟨ho.left, ho.right ?_, hx.right ?_, hl.right ?_, hs.right ?_, h.right ?_⟩
  all_goals simp [genTable_length, and8Table, or8Table, xor8Table, sll8Table, srl8Table, sra8Table,
    BitVec.add_assoc]

-- Entry `i` of row `j` of a table with entries of one byte.
theorem byteEntry {m : Memory 32} {a : Word} {row : Nat} {expr : Nat → Nat → Word} {i j : Nat}
    (h : m.Holds a (genTable row 256 1 expr)) (hj : j < row) (hi : i < 256) :
    m (a + BitVec.ofNat 32 (j <<< 8) + BitVec.ofNat 32 i) = (expr j i).byte 0 := by
  have := h _ _ (genTable_getElem? hj hi Nat.one_pos)
  rwa [Nat.mul_one, Nat.add_zero, BitVec.ofNat_add, ← BitVec.add_assoc,
    show j * 256 = j <<< 8 from (Nat.shiftLeft_eq j 8).symm] at this

-- Entry `i` of row `j` of a table with entries of one word.
theorem wordEntry {m : Memory 32} {a : Word} {row : Nat} {expr : Nat → Nat → Word} {i j : Nat}
    (h : m.Holds a (genTable row 256 4 expr)) (hj : j < row) (hi : i < 256) :
    m.load32 (a + BitVec.ofNat 32 (j <<< 10) + BitVec.ofNat 32 (i <<< 2)) = expr j i := by
  refine (BitVec.eq_ofBytes fun k hk => ?_).symm
  have := h _ _ (genTable_getElem? hj hi hk)
  rw [← this, BitVec.add_assoc, BitVec.add_assoc, ← BitVec.ofNat_add, ← BitVec.ofNat_add]
  congr 3
  simp only [Nat.shiftLeft_eq]
  omega

end InstReplace
