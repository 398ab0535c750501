import Ysyx.Bytes.LittleEndian

-- The headers of ELF files, and the memory image that they describe.

namespace Elf

-- The little-endian number in `n` bytes.
def number (f : Nat → Byte) : Nat → Nat
  | 0     => 0
  | n + 1 => number f n + 256 ^ n * (f n).toNat

-- Where a field lies in its structure.
structure Field where
  offset : Nat
  size   : Nat

def Field.get (x : Field) (f : Nat → Byte) : Nat :=
  number (fun i => f (x.offset + i)) x.size

-- The fields of the two classes of files, and the size of a program header.
structure Format where
  e_phoff   : Field
  e_phnum   : Field
  phentsize : Nat
  p_offset  : Field
  p_paddr   : Field
  p_filesz  : Field
  p_memsz   : Field

def elf32 : Format where
  e_phoff   := ⟨28, 4⟩
  e_phnum   := ⟨44, 2⟩
  phentsize := 32
  p_offset  := ⟨4, 4⟩
  p_paddr   := ⟨12, 4⟩
  p_filesz  := ⟨16, 4⟩
  p_memsz   := ⟨20, 4⟩

def elf64 : Format where
  e_phoff   := ⟨32, 8⟩
  e_phnum   := ⟨56, 2⟩
  phentsize := 56
  p_offset  := ⟨8, 8⟩
  p_paddr   := ⟨24, 8⟩
  p_filesz  := ⟨32, 8⟩
  p_memsz   := ⟨40, 8⟩

def e_machine : Field :=
  ⟨18, 2⟩

abbrev EM_X86_64 : Nat := 62

structure Segment where
  offset : Nat
  paddr  : Nat
  filesz : Nat
  memsz  : Nat

namespace Format

variable (F : Format) (file : Nat → Byte)

-- The fields of a program header that say what to load.
def fields : List Field :=
  [F.p_offset, F.p_paddr, F.p_filesz, F.p_memsz]

def header (ph : Nat → Byte) : Segment where
  offset := F.p_offset.get ph
  paddr  := F.p_paddr.get ph
  filesz := F.p_filesz.get ph
  memsz  := F.p_memsz.get ph

-- Where a program header lies in the file.
def phdr (i : Nat) : Nat :=
  F.e_phoff.get file + i * F.phentsize

def segment (i : Nat) : Segment :=
  F.header fun k => file (F.phdr file i + k)

def segments : List Segment :=
  (List.range <| F.e_phnum.get file).map <| F.segment file

end Format

namespace Segment

variable (s : Segment) (file : Nat → Byte)

def Covers (a : Nat) : Prop :=
  s.paddr ≤ a ∧ a < s.paddr + s.memsz

-- What belongs at an address of the segment.
def byte (a : Nat) : Byte :=
  if a < s.paddr + s.filesz then file (s.offset + (a - s.paddr)) else 0

end Segment

-- The segments of the file are in the memory.
def Image (file : Nat → Byte) (ss : List Segment) (mem : Memory 32) : Prop :=
  ∀ s ∈ ss, ∀ a, s.Covers a → a < 2 ^ 32 ∧ mem (BitVec.ofNat 32 a) = s.byte file a

variable {f g : Nat → Byte} {n : Nat} {x : Field} {F : Format}

theorem number_lt : number f n < 256 ^ n := by
  induction n
  case zero => exact Nat.one_pos
  case succ n hi =>
    have hb := Nat.mul_le_mul_left (256 ^ n) <| Nat.le_of_lt_succ (f n).isLt
    rw [number, Nat.pow_succ]
    omega

-- A number determines its bytes.
theorem number_inj : number f n = number g n ↔ ∀ i < n, f i = g i := by
  induction n
  case zero => exact iff_of_true rfl nofun
  case succ n hi =>
    rw [number, number, Nat.forall_lt_succ_right, ← hi]
    constructor
    case mp =>
      intro h
      have hm := congrArg (· % 256 ^ n) h
      simp only [Nat.add_mul_mod_self_left, Nat.mod_eq_of_lt number_lt] at hm
      rw [hm, Nat.add_left_cancel_iff] at h
      exact ⟨hm, BitVec.eq_of_toNat_eq <| Nat.eq_of_mul_eq_mul_left (Nat.pow_pos (by decide)) h⟩
    case mpr => exact fun ⟨h, hb⟩ => by rw [h, hb]

theorem Field.get_inj : x.get f = x.get g ↔ ∀ i < x.size, f (x.offset + i) = g (x.offset + i) :=
  number_inj

theorem Format.header_inj : F.header f = F.header g ↔ ∀ x ∈ F.fields, x.get f = x.get g := by
  simp [header, fields]

end Elf
