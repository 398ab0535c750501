import Mathlib.Data.List.Pairwise
import Ysyx.Am.X86.Theorems.Sectors

-- The boot loader builds the memory image of an ELF file.

namespace Am.Boot

open BitVec (ofNat)
open Elf (Format Segment Image elf32 elf64 e_machine EM_X86_64)
open Fuel (Yields Passes)
open Overlay (Last overlays)

variable {own : Set Word} {disk : Disk} {file : Nat → Byte} {mem : Memory 32} {n i k fuel : Nat} {a : Word} {b : Byte}
variable {s : Segment} {ss : List Segment} {F : Format} {t : Load}

-- The two classes of files go with the two machines.
def IsFormat (file : Nat → Byte) (F : Format) : Prop :=
  F = elf64 ∧ e_machine.get file = EM_X86_64 ∨ F = elf32 ∧ e_machine.get file ≠ EM_X86_64

-- A file that the loader is made for.
structure Loadable (file : Nat → Byte) (F : Format) : Prop where
  format   : IsFormat file F
  headers  : F.e_phoff.get file + F.e_phnum.get file * F.phentsize ≤ 4096
  aligned  : ∀ s ∈ F.segments file, Aligned s
  disjoint : (F.segments file).Pairwise fun s t => ∀ a, s.Covers a → ¬t.Covers a

-- The memory that the compiled loader itself works in: a part of the boot sector, and of the stack below `0xa000`.
def OwnMemory (own : Set Word) : Prop :=
  ∀ a ∈ own, 0x7c00 ≤ a.toNat ∧ a.toNat < 0x7e00 ∨ 0x9000 ≤ a.toNat ∧ a.toNat < 0xa000

-- The variables of the loop over the program headers, whenever its condition is tested.
def Tested (F : Format) (disk : Disk) (mem : Memory 32) (t : Load) : Prop :=
  ∃ m₁ m₂, Yields (copy_from_disk disk MAINARG_ADDR 1024 (-1024) mem) m₁ ∧ Yields (copy_from_disk disk u 4096 0 m₁) m₂ ∧
    Passes (more F u) (load_next F disk) (entry F u m₂) t

-- The headers in the memory are those of the file, as far as they are about to be read.
structure Reads (F : Format) (file : Nat → Byte) (t : Load) : Prop where
  phnum : F.e_phnum.get (bytesAt t.mem u) = F.e_phnum.get file
  ph    : t.i < F.e_phnum.get file → F.header (bytesAt t.mem t.ph) = F.segment file t.i

-- The loop goes over the program headers of the file, without a change to the loader, and the image is built.
structure Builds (own : Set Word) (disk : Disk) (file : Nat → Byte) (F : Format) (mem : Memory 32) : Prop where
  loader  : ∀ t, Tested F disk mem t → ∀ a ∈ own, t.mem a = mem a
  headers : ∀ t, Tested F disk mem t → Reads F file t
  image   : ∃ fuel mem', load_kernel disk mem fuel = some mem' ∧ Image file (F.segments file) mem'

-- The bytes of the headers that are about to be read after `n` rounds.
def Needed (F : Format) (file : Nat → Byte) (n k : Nat) : Prop :=
  (∃ i < F.e_phnum.size, k = F.e_phnum.offset + i) ∨
  n < F.e_phnum.get file ∧ ∃ x ∈ F.fields, ∃ i < x.size, k = F.phdr file n + (x.offset + i)

-- What the first `n` segments put there are the bytes of the file.
def Legible (F : Format) (disk : Disk) (file : Nat → Byte) (n : Nat) : Prop :=
  ∀ k, Needed F file n k → ∀ b, Last (((F.segments file).take n).map (patch disk)) (u + ofNat 32 k) b → b = file k

-- Each segment can be loaded, and leaves the loader and the headers alone. At the place of each byte of a segment, the
-- last of the segment and the later ones that puts something there puts that byte there.
structure Buildable (own : Set Word) (disk : Disk) (file : Nat → Byte) (F : Format) : Prop where
  ends     : ∀ s ∈ F.segments file, Ends s
  clear    : ∀ s ∈ F.segments file, ∀ a ∈ own, patch disk s a = none
  legible  : ∀ n ≤ F.e_phnum.get file, Legible F disk file n
  unspoilt : ∀ xs s ys a, F.segments file = xs ++ s :: ys → s.Covers a →
    a < 2 ^ 32 ∧ Last ((s :: ys).map (patch disk)) (ofNat 32 a) (s.byte file a)

theorem IsFormat.fits (h : IsFormat file F) : F = elf32 ∨ F = elf64 := by
  cases h
  case inl h => exact .inr h.left
  case inr h => exact .inl h.left

section Headers

-- The beginning of the file is at its place.
def Header (file : Nat → Byte) (mem : Memory 32) : Prop :=
  ∀ k < 4096, mem (u + ofNat 32 k) = file k

-- The fields of a format lie in its structures.
theorem fields_fit (h : F = elf32 ∨ F = elf64) :
    F.e_phoff.offset + F.e_phoff.size ≤ 4096 ∧ F.e_phnum.offset + F.e_phnum.size ≤ 4096 ∧
    ∀ x ∈ F.fields, x.offset + x.size ≤ F.phentsize := by
  cases h
  case inl h => rw [h]; decide
  case inr h => rw [h]; decide

theorem Header.get (h : Header file mem) {x : Elf.Field} (hx : x.offset + x.size ≤ 4096) :
    x.get (bytesAt mem u) = x.get file :=
  Elf.Field.get_inj.mpr fun k hk => h _ <| by omega

-- The variables after `n` program headers.
def loads (F : Format) (disk : Disk) (file : Nat → Byte) (mem : Memory 32) (n : Nat) : Load where
  i   := n
  ph  := u + ofNat 32 (F.phdr file n)
  mem := overlays mem (((F.segments file).take n).map (patch disk))

theorem length_segments : (F.segments file).length = F.e_phnum.get file := by
  rw [Format.segments, List.length_map, List.length_range]

theorem getElem?_segments (h : n < F.e_phnum.get file) : (F.segments file)[n]? = some (F.segment file n) := by
  rw [Format.segments, List.getElem?_map, List.getElem?_range h, Option.map_some]

theorem segment_mem (h : n < F.e_phnum.get file) : F.segment file n ∈ F.segments file :=
  List.mem_of_getElem? <| getElem?_segments h

theorem take_succ_segments (h : n < F.e_phnum.get file) :
    (F.segments file).take (n + 1) = (F.segments file).take n ++ [F.segment file n] := by
  rw [List.take_add_one, getElem?_segments h, Option.toList_some]

theorem entry_eq (hF : F = elf32 ∨ F = elf64) (h : Header file mem) : entry F u mem = loads F disk file mem 0 := by
  rw [entry, loads, h.get (fields_fit hF).left, Format.phdr, Nat.zero_mul]
  rfl

theorem loads_mem_succ (h : n < F.e_phnum.get file) : (loads F disk file mem (n + 1)).mem =
    Overlay.overlay (loads F disk file mem n).mem (patch disk (F.segment file n)) := by
  simp only [loads]
  rw [take_succ_segments h, List.map_append, Overlay.overlays_append]
  rfl

theorem loads_ph_succ : (loads F disk file mem n).ph + ofNat 32 F.phentsize = (loads F disk file mem (n + 1)).ph := by
  simp only [loads, Format.phdr]
  rw [BitVec.add_assoc, ← BitVec.ofNat_add, Nat.succ_mul, Nat.add_assoc]

-- The bytes that are read.
theorem reads_iff : Reads F file (loads F disk file mem n) ↔
    ∀ k, Needed F file n k → (loads F disk file mem n).mem (u + ofNat 32 k) = file k := by
  have hb (k l : Nat) : bytesAt (loads F disk file mem n).mem (u + ofNat 32 k) l =
      (loads F disk file mem n).mem (u + ofNat 32 (k + l)) := by
    rw [bytesAt, BitVec.add_assoc, ← BitVec.ofNat_add]
  constructor
  case mp =>
    intro ⟨hn, hp⟩ k hk
    cases hk
    case inl hk =>
      obtain ⟨i, hi, rfl⟩ := hk
      exact Elf.Field.get_inj.mp hn i hi
    case inr hk =>
      obtain ⟨hl, x, hx, i, hi, rfl⟩ := hk
      rw [← hb]
      exact Elf.Field.get_inj.mp (Format.header_inj.mp (hp hl) x hx) i hi
  case mpr =>
    intro h
    refine ⟨Elf.Field.get_inj.mpr fun i hi => h _ <| .inl ⟨i, hi, rfl⟩, fun hl => ?_⟩
    refine Format.header_inj.mpr fun x hx => Elf.Field.get_inj.mpr fun i hi => ?_
    exact (hb _ _).trans <| h _ <| .inr ⟨hl, x, hx, i, hi, rfl⟩

theorem needed_lt (hl : Loadable file F) (hk : Needed F file n k) : k < 4096 := by
  have ⟨_, h₁, h₂⟩ := fields_fit hl.format.fits
  have hh := hl.headers
  cases hk
  case inl hk =>
    obtain ⟨i, hi, rfl⟩ := hk
    omega
  case inr hk =>
    obtain ⟨hn, x, hx, i, hi, rfl⟩ := hk
    have := h₂ x hx
    have := Nat.mul_le_mul_right F.phentsize hn
    rw [Nat.succ_mul] at this
    rw [Format.phdr]
    omega

theorem reads_iff_legible (hl : Loadable file F) (h : Header file mem) :
    Reads F file (loads F disk file mem n) ↔ Legible F disk file n :=
  reads_iff.trans <| forall₂_congr fun k hk => Overlay.overlays_eq_iff <| h k (needed_lt hl hk)

-- One round of the loop over the program headers.
theorem more_loads (h : Reads F file (loads F disk file mem n)) :
    more F u (loads F disk file mem n) = decide (n < F.e_phnum.get file) := by
  rw [more, h.phnum]
  rfl

theorem load_next_yields (h : Reads F file (loads F disk file mem n)) (hn : n < F.e_phnum.get file)
    (he : Ends (F.segment file n)) :
    Yields (load_next F disk (loads F disk file mem n)) (loads F disk file mem (n + 1)) := by
  have hp : F.header (bytesAt (loads F disk file mem n).mem (loads F disk file mem n).ph) = F.segment file n := h.ph hn
  have hs : loads F disk file mem (n + 1) =
      { i   := (loads F disk file mem n).i + 1
        ph  := (loads F disk file mem n).ph + ofNat 32 F.phentsize
        mem := (loads F disk file mem (n + 1)).mem } := by rw [loads_ph_succ]; rfl
  rw [load_next, hp, hs, loads_mem_succ hn]
  exact .bind (load_segment_yields he) .pure

theorem load_next_eq_none (h : Reads F file (loads F disk file mem n)) (hn : n < F.e_phnum.get file)
    (he : ¬Ends (F.segment file n)) : load_next F disk (loads F disk file mem n) k = none := by
  have hp : F.header (bytesAt (loads F disk file mem n).mem (loads F disk file mem n).ph) = F.segment file n := h.ph hn
  rw [load_next, hp]
  exact Fuel.bind_eq_none <| load_segment_eq_none he

end Headers

section Loop

-- The loop does not end unless each segment can be loaded.
theorem ends_of_loop (hr : ∀ t, Passes (more F u) (load_next F disk) (loads F disk file mem 0) t → Reads F file t)
    (hx : Fuel.loop (more F u) (load_next F disk) (loads F disk file mem 0) fuel = some t)
    (hn : n ≤ F.e_phnum.get file) : (∀ i < n, Ends (F.segment file i)) ∧
      Passes (more F u) (load_next F disk) (loads F disk file mem 0) (loads F disk file mem n) := by
  induction n
  case zero => exact ⟨nofun, .refl⟩
  case succ n hi =>
    have ⟨he, hp⟩ := hi (Nat.le_of_lt hn)
    have hm : more F u (loads F disk file mem n) = true := (more_loads (hr _ hp)).trans <| decide_eq_true hn
    have hs : Ends (F.segment file n) := by
      by_contra hs
      have ⟨k, hk⟩ := hp.loop_eq_some hx
      cases k
      case zero => cases hk
      case succ k =>
        rw [Fuel.loop, hm, if_pos rfl, load_next_eq_none (hr _ hp) hn hs] at hk
        cases hk
    exact ⟨Nat.forall_lt_succ_right.mpr ⟨he, hs⟩, hp.round hm <| load_next_yields (hr _ hp) hn hs⟩

variable (hr : ∀ n ≤ F.e_phnum.get file, Reads F file (loads F disk file mem n))
variable (he : ∀ n < F.e_phnum.get file, Ends (F.segment file n))
include hr he

theorem loop_yields : Yields (Fuel.loop (more F u) (load_next F disk) (loads F disk file mem 0))
    (loads F disk file mem (F.e_phnum.get file)) := by
  refine Yields.loop (fun i hi => ?_) ?_ fun i hi => load_next_yields (hr i <| Nat.le_of_lt hi) hi (he i hi)
  case refine_1 => rw [more_loads (hr i <| Nat.le_of_lt hi), decide_eq_true hi]
  case refine_2 => rw [more_loads (hr _ le_rfl), decide_eq_false (Nat.lt_irrefl _)]

theorem eq_of_passes (h : Passes (more F u) (load_next F disk) (loads F disk file mem 0) t) :
    ∃ n ≤ F.e_phnum.get file, t = loads F disk file mem n := by
  refine h.eq ?_ fun i hi => load_next_yields (hr i <| Nat.le_of_lt hi) hi (he i hi)
  rw [more_loads (hr _ le_rfl), decide_eq_false (Nat.lt_irrefl _)]

end Loop

section Kernel

-- The memory when the headers have been read.
def started (disk : Disk) (mem : Memory 32) : Memory 32 :=
  copied disk u (ofNat 32 3) (copied disk MAINARG_ADDR (ofNat 32 1) mem 2) 8

theorem header_started (hc : Contains disk file) : Header file (started disk mem) := by
  intro k hk
  have hs : (ofNat 32 3 + ofNat 32 (k / 512)).toNat = k / 512 + 3 := by
    rw [BitVec.toNat_add, BitVec.toNat_ofNat, BitVec.toNat_ofNat]
    omega
  rw [started, copied, Memory.toNat_add_ofNat_sub (by omega), if_pos (by omega),
    sector_eq hc hs (by omega) (Nat.mod_lt _ (by decide)), Nat.div_add_mod]

-- The rest of the memory is not changed before the loop.
theorem started_eq (h : a.toNat < 0x8000 ∨ 0x9000 ≤ a.toNat ∧ a.toNat < 0x10000 ∨ 0x10400 ≤ a.toNat) :
    started disk mem a = mem a := by
  have hu : ¬(a - u).toNat < 512 * 8 := by bv_omega
  have hm : ¬(a - MAINARG_ADDR).toNat < 512 * 2 := by bv_omega
  rw [started, copied, if_neg hu, copied, if_neg hm]

theorem load_arguments_yields : Yields (copy_from_disk disk MAINARG_ADDR 1024 (-1024) mem)
    (copied disk MAINARG_ADDR (ofNat 32 1) mem 2) := by
  have h : Yields (copy_from_disk disk MAINARG_ADDR 1024 (-1024) mem) _ := copy_from_disk_yields (by decide)
  have ha : MAINARG_ADDR &&& ~~~ofNat 32 (SECTSIZE - 1) = MAINARG_ADDR := by decide
  have hs : (-1024 : Word).sdiv (ofNat 32 SECTSIZE) + ofNat 32 (ARGSIZE / SECTSIZE) + 1 = ofNat 32 1 := by decide
  rwa [ha, hs] at h

theorem load_header_yields : Yields (copy_from_disk disk u 4096 0 mem) (copied disk u (ofNat 32 3) mem 8) := by
  have h : Yields (copy_from_disk disk u 4096 0 mem) _ := copy_from_disk_yields (by decide)
  have ha : u &&& ~~~ofNat 32 (SECTSIZE - 1) = u := by decide
  have hs : (0 : Word).sdiv (ofNat 32 SECTSIZE) + ofNat 32 (ARGSIZE / SECTSIZE) + 1 = ofNat 32 3 := by decide
  rwa [ha, hs] at h

variable (hc : Contains disk file) (hl : Loadable file F)
include hc hl

theorem tested_iff : Tested F disk mem t ↔
    Passes (more F u) (load_next F disk) (loads F disk file (started disk mem) 0) t := by
  have he : entry F u (started disk mem) = loads F disk file (started disk mem) 0 :=
    entry_eq hl.format.fits (header_started hc)
  constructor
  case mp =>
    intro ⟨m₁, m₂, h₁, h₂, hp⟩
    obtain rfl := load_arguments_yields.unique h₁
    obtain rfl := load_header_yields.unique h₂
    rwa [← he]
  case mpr => exact fun hp => ⟨_, _, load_arguments_yields, load_header_yields, by rwa [← he] at hp⟩

theorem load_class_eq : (if e_machine.get (bytesAt (started disk mem) u) = EM_X86_64 then
    load_elf64 disk u (started disk mem) else load_elf32 disk u (started disk mem)) =
    (do return (← Fuel.loop (more F u) (load_next F disk) (loads F disk file (started disk mem) 0)).mem) := by
  have hs : Header file (started disk mem) := header_started hc
  rw [← entry_eq hl.format.fits hs, hs.get (by decide)]
  cases hl.format
  case inl h =>
    obtain ⟨rfl, he⟩ := h
    rw [if_pos he]
    rfl
  case inr h =>
    obtain ⟨rfl, he⟩ := h
    rw [if_neg he]
    rfl

variable (hi : is_ap mem = 0)
include hi

theorem load_kernel_yields (h : Yields (Fuel.loop (more F u) (load_next F disk)
    (loads F disk file (started disk mem) 0)) t) : Yields (load_kernel disk mem) t.mem := by
  rw [load_kernel, if_pos hi]
  refine load_arguments_yields.bind <| load_header_yields.bind ?_
  rw [← started, load_class_eq hc hl]
  exact h.bind .pure

theorem loop_of_load_kernel {mem' : Memory 32} (h : load_kernel disk mem fuel = some mem') :
    ∃ t, Fuel.loop (more F u) (load_next F disk) (loads F disk file (started disk mem) 0) fuel = some t := by
  rw [load_kernel, if_pos hi] at h
  have h := load_header_yields.of_bind <| load_arguments_yields.of_bind h
  rw [← started, load_class_eq hc hl] at h
  cases hx : Fuel.loop (more F u) (load_next F disk) (loads F disk file (started disk mem) 0) fuel
  case none => rw [Fuel.bind_eq_none hx] at h; cases h
  case some t => exact ⟨t, rfl⟩

-- The loop comes to the end of each segment.
theorem Builds.reached (h : Builds own disk file F mem) (hn : n ≤ F.e_phnum.get file) :
    (∀ i < n, Ends (F.segment file i)) ∧ Tested F disk mem (loads F disk file (started disk mem) n) := by
  have ⟨_, _, hx, _⟩ := h.image
  have ⟨t, ht⟩ := loop_of_load_kernel hc hl hi hx
  rw [tested_iff hc hl]
  exact ends_of_loop (fun t hp => h.headers t <| (tested_iff hc hl).mpr hp) ht hn

theorem Builds.image_loads (h : Builds own disk file F mem) :
    Image file (F.segments file) (loads F disk file (started disk mem) (F.e_phnum.get file)).mem := by
  have hr (n) (hn : n ≤ F.e_phnum.get file) := h.headers _ (h.reached hc hl hi hn).right
  have hy := loop_yields hr (h.reached hc hl hi le_rfl).left
  exact (load_kernel_yields hc hl hi hy).exists_iff.mp h.image

end Kernel

section Image

theorem is_ap_eq_zero (h : ∀ a : Word, a.toNat < 0x7008 → mem a = 0) : is_ap mem = 0 := by
  have hz : is_ap mem = Elf.number (fun _ => 0) 4 := Elf.number_inj.mpr fun i hi => h _ <| by
    have := Nat.lt_trans hi (by decide : 4 < 2 ^ 32)
    rw [BitVec.toNat_add, BitVec.toNat_ofNat, Nat.mod_eq_of_lt this, show (BOOTREC_ADDR + 4).toNat = 0x7004 by decide]
    omega
  exact hz

-- A memory that does not have the byte `b` at `a`.
def other (a : Word) (b : Byte) : Memory 32 :=
  fun x => if x = a then b + 1 else 0

theorem is_ap_other (h : 0x7008 ≤ a.toNat) : is_ap (other a b) = 0 := by
  refine is_ap_eq_zero fun x hx => if_neg fun he => ?_
  rw [he] at hx
  omega

theorem other_ne : other a b a ≠ b := by
  rw [other, if_pos rfl]
  exact fun h => absurd (add_eq_left.mp h) (by decide)

theorem loads_mem : (loads F disk file mem (F.e_phnum.get file)).mem =
    overlays mem ((F.segments file).map (patch disk)) := by
  rw [loads, ← length_segments, List.take_length]

-- Nothing is put at the last byte if a segment that covers it is not loaded.
theorem patch_top (ha : ∀ s ∈ ss, Aligned s) (he : ∀ s ∈ ss, Ends s) (hm : ∀ s ∈ ss, ∀ b, s.Covers b → b < 2 ^ 32)
    (hd : ss.Pairwise fun s t => ∀ a, s.Covers a → ¬t.Covers a) (hs : s ∈ ss) (hc : s.Covers TOP.toNat)
    (hn : patch disk s TOP = none) : ∀ t ∈ ss, patch disk t TOP = none := by
  intro t ht
  by_contra hp
  have hct := covers_top (ha t ht) (he t ht) (hm t ht) hp
  have : Std.Symm fun s t : Segment => ∀ a, s.Covers a → ¬t.Covers a := ⟨fun _ _ h a hs ht => h a ht hs⟩
  by_cases hst : s = t
  case pos => exact hp <| hst ▸ hn
  case neg => exact hd.forall hs ht hst _ hc hct

-- If the image is there whatever the memory was, then the bytes of each segment have been put there.
theorem last_of_image (hl : Loadable file F) (he : ∀ s ∈ F.segments file, Ends s)
    (hm : ∀ mem, is_ap mem = 0 →
      Image file (F.segments file) (overlays (started disk mem) ((F.segments file).map (patch disk))))
    {xs ys : List Segment} {a : Nat} (hx : F.segments file = xs ++ s :: ys) (ha : s.Covers a) :
    a < 2 ^ 32 ∧ Last ((s :: ys).map (patch disk)) (ofNat 32 a) (s.byte file a) := by
  have hs : s ∈ F.segments file := hx ▸ List.mem_append_right _ List.mem_cons_self
  have hi : Image file (F.segments file) _ := hm (fun _ => 0) <| is_ap_eq_zero fun _ _ => rfl
  have hlt := fun s hs a ha => (hi s hs a ha).left
  refine ⟨hlt s hs a ha, ?_⟩
  cases Overlay.last_or_none ((s :: ys).map (patch disk)) (ofNat 32 a)
  case inl hb =>
    obtain ⟨b, hb⟩ := hb
    have hv := (hi s hs a ha).right
    rw [hx, List.map_append, Overlay.overlays_of_last hb.prepend] at hv
    exact hv ▸ hb
  case inr hn =>
    have hp : patch disk s (ofNat 32 a) = none := hn _ List.mem_cons_self
    obtain ⟨hct, ht⟩ := (patch_covers (hl.aligned s hs) (he s hs) (hlt s hs) ha).resolve_left (· hp)
    have hall := patch_top hl.aligned he hlt hl.disjoint hs hct ht
    have hv := (hm (other TOP (s.byte file TOP.toNat)) (is_ap_other (by decide)) s hs TOP.toNat hct).right
    rw [BitVec.ofNat_toNat, BitVec.setWidth_eq, Overlay.overlays_of_none (by simpa using hall),
      started_eq (by decide)] at hv
    exact absurd hv other_ne

variable (hw : OwnMemory own) (hc : Contains disk file) (hl : Loadable file F)
include hw hc hl

theorem Buildable.builds (h : Buildable own disk file F) (hi : is_ap mem = 0) : Builds own disk file F mem := by
  have hr (n) (hn : n ≤ F.e_phnum.get file) : Reads F file (loads F disk file (started disk mem) n) :=
    (reads_iff_legible hl <| header_started hc).mpr <| h.legible n hn
  have he (n) (hn : n < F.e_phnum.get file) := h.ends _ <| segment_mem hn
  have ht {t : Load} (ht : Tested F disk mem t) := eq_of_passes hr he <| (tested_iff hc hl).mp ht
  refine ⟨fun t hp a ha => ?loader, fun t hp => ?headers, ?image⟩
  case loader =>
    obtain ⟨n, _, rfl⟩ := ht hp
    have hs : started disk mem a = mem a := started_eq <| by have := hw a ha; omega
    refine (Overlay.overlays_of_none fun p hp => ?_).trans hs
    obtain ⟨s, hs, rfl⟩ := List.mem_map.mp hp
    exact h.clear s (List.mem_of_mem_take hs) a ha
  case headers =>
    obtain ⟨n, hn, rfl⟩ := ht hp
    exact hr n hn
  case image =>
    refine (load_kernel_yields hc hl hi <| loop_yields hr he).exists_iff.mpr fun s hs a ha => ?_
    obtain ⟨xs, ys, hx⟩ := List.append_of_mem hs
    have ⟨hlt, hlast⟩ := h.unspoilt xs s ys a hx ha
    rw [loads_mem, hx, List.map_append]
    exact ⟨hlt, Overlay.overlays_of_last hlast.prepend⟩

theorem buildable_of_builds (h : ∀ mem, is_ap mem = 0 → Builds own disk file F mem) : Buildable own disk file F := by
  have h₀ : is_ap (fun _ => 0) = 0 := is_ap_eq_zero fun _ _ => rfl
  have he : ∀ s ∈ F.segments file, Ends s := fun s hs => by
    obtain ⟨i, hi, rfl⟩ := List.mem_map.mp hs
    exact ((h _ h₀).reached hc hl h₀ le_rfl).left i <| List.mem_range.mp hi
  refine ⟨he, fun s hs a ha => ?clear, fun n hn => ?legible, fun xs s ys a hx ha => ?unspoilt⟩
  case clear =>
    cases hp : patch disk s a
    case none => rfl
    case some b =>
      obtain ⟨i, hi, rfl⟩ := List.mem_map.mp hs
      have hi := List.mem_range.mp hi
      have ho : is_ap (other a b) = 0 := is_ap_other <| by have := hw a ha; omega
      have hb := (h _ ho).loader _ ((h _ ho).reached hc hl ho hi).right a ha
      rw [loads_mem_succ hi, Overlay.overlay, hp, Option.getD_some] at hb
      exact absurd hb.symm other_ne
  case legible =>
    exact (reads_iff_legible hl <| header_started hc).mp <|
      (h _ h₀).headers _ ((h _ h₀).reached hc hl h₀ hn).right
  case unspoilt => exact last_of_image hl he (fun mem hi => loads_mem ▸ (h mem hi).image_loads hc hl hi) hx ha

end Image

-- From any memory the boot processor builds the image of a file, going over its program headers and without a change
-- to itself, if and only if each segment can be loaded, leaves the loader and the headers alone, and is not spoilt by
-- a later one.
theorem image_built_iff (own : Set Word) (disk : Disk) (file : Nat → Byte) (F : Format) (hw : OwnMemory own)
    (hc : Contains disk file) (hl : Loadable file F) :
    (∀ mem, is_ap mem = 0 → Builds own disk file F mem) ↔ Buildable own disk file F :=
  ⟨buildable_of_builds hw hc hl, fun h _ => h.builds hw hc hl⟩

section Samples

-- Segments that are apart from the headers and, with their sectors, from each other.
structure Apart (disk : Disk) (file : Nat → Byte) (F : Format) : Prop where
  ends    : ∀ s ∈ F.segments file, Ends s
  headers : ∀ s ∈ F.segments file, ∀ k < 4096, patch disk s (u + ofNat 32 k) = none

theorem Apart.legible (h : Apart disk file F) (hl : Loadable file F) : Legible F disk file n := by
  intro k hk b ⟨qs, p, rs, hs, hp, _⟩
  have hm : p ∈ ((F.segments file).take n).map (patch disk) := hs ▸ by simp
  obtain ⟨s, ht, rfl⟩ := List.mem_map.mp hm
  rw [h.headers s (List.mem_of_mem_take ht) k (needed_lt hl hk)] at hp
  cases hp

theorem Apart.load_kernel_yields (h : Apart disk file F) (hc : Contains disk file) (hl : Loadable file F)
    (hi : is_ap mem = 0) : Yields (load_kernel disk mem)
      (overlays (started disk mem) ((F.segments file).map (patch disk))) := by
  rw [← loads_mem]
  refine Boot.load_kernel_yields hc hl hi <| loop_yields (fun n _ => ?_) fun n hn => h.ends _ <| segment_mem hn
  exact (reads_iff_legible hl <| header_started hc).mpr <| h.legible hl

-- A file with two segments. The second one starts in the given block of 256 bytes.
def sample (block page : Byte) : Nat → Byte
  | 18 => 3
  | 28 => 52
  | 44 => 2
  | 57 => 0x10
  | 66 => 0x10
  | 68 => 0x10
  | 72 => 0x20
  | 89 => 0x11
  | 97 => block
  | 98 => page
  | 100 => 0x10
  | 104 => 0x10
  | k => if k < 0x1000 then 0 else 0xff

def diskOf (file : Nat → Byte) : Disk :=
  fun _ lba i => file (512 * (lba.toNat - 3) + i)

theorem contains_diskOf : Contains (diskOf file) file := by
  intro n i hn _
  rw [diskOf, BitVec.toNat_ofNat, Nat.mod_eq_of_lt hn, Nat.add_sub_cancel]

def first : Segment :=
  ⟨0x1000, 0x100000, 0x10, 0x20⟩

theorem aligned_first : Aligned first :=
  ⟨by decide, rfl⟩

theorem loadable_sample {block page : Byte} (hs : elf32.segments (sample block page) = [first, s]) (ha : Aligned s)
    (hd : s.paddr + s.memsz ≤ 0x100000 ∨ 0x100020 ≤ s.paddr) : Loadable (sample block page) elf32 := by
  refine ⟨.inr ⟨rfl, ?_⟩, ?_, ?_, ?_⟩
  case refine_1 =>
    have he : e_machine.get (sample block page) = 3 := rfl
    rw [he]
    decide
  case refine_2 =>
    have hp : elf32.e_phoff.get (sample block page) = 52 := rfl
    have hn : elf32.e_phnum.get (sample block page) = 2 := rfl
    rw [hp, hn]
    decide
  case refine_3 =>
    rw [hs]
    exact List.forall_mem_cons.mpr ⟨aligned_first, List.forall_mem_singleton.mpr ha⟩
  case refine_4 =>
    rw [hs]
    refine List.pairwise_pair.mpr fun a h₁ h₂ => ?_
    have h₁ : 0x100000 ≤ a ∧ a < 0x100000 + 0x20 := h₁
    have ⟨_, _⟩ := h₂
    omega

-- The second segment lies between the code of the loader and the headers.
def between : Nat → Byte :=
  sample 0x7f 0x00

-- The second segment begins in the sector in which the first one ends.
def crowded : Nat → Byte :=
  sample 0x01 0x10

theorem segments_between : elf32.segments between = [first, ⟨0x1100, 0x7f00, 0x10, 0x10⟩] := by rfl

theorem segments_crowded : elf32.segments crowded = [first, ⟨0x1100, 0x100100, 0x10, 0x10⟩] := by rfl

theorem patch_first (hc : Contains disk file) : patch disk first a =
    if 0x100010 ≤ a.toNat ∧ a.toNat < 0x100020 then some 0
    else if 0x100000 ≤ a.toNat ∧ a.toNat < 0x100200 then some (file (0x1000 + a.toNat - 0x100000)) else none :=
  patch_eq hc aligned_first (by decide) (by decide) (by decide)

theorem patch_between (hc : Contains disk file) : patch disk ⟨0x1100, 0x7f00, 0x10, 0x10⟩ a =
    if 0x7f10 ≤ a.toNat ∧ a.toNat < 0x7f10 then some 0
    else if 0x7e00 ≤ a.toNat ∧ a.toNat < 0x8000 then some (file (0x1100 + a.toNat - 0x7f00)) else none :=
  patch_eq hc ⟨by decide, by rfl⟩ (by decide) (by decide) (by decide)

theorem patch_crowded (hc : Contains disk file) : patch disk ⟨0x1100, 0x100100, 0x10, 0x10⟩ a =
    if 0x100110 ≤ a.toNat ∧ a.toNat < 0x100110 then some 0
    else if 0x100000 ≤ a.toNat ∧ a.toNat < 0x100200 then some (file (0x1100 + a.toNat - 0x100100)) else none :=
  patch_eq hc ⟨by decide, by rfl⟩ (by decide) (by decide) (by decide)

theorem toNat_header (h : k < 4096) : (u + ofNat 32 k).toNat = 0x8000 + k := by
  rw [BitVec.toNat_add, BitVec.toNat_ofNat, show u.toNat = 0x8000 by decide]
  omega

theorem apart_sample {block page : Byte} (hs : elf32.segments (sample block page) = [first, s]) (he : Ends s)
    (hn : ∀ k < 4096, patch (diskOf (sample block page)) s (u + ofNat 32 k) = none) :
    Apart (diskOf (sample block page)) (sample block page) elf32 := by
  refine ⟨?_, ?_⟩
  all_goals rw [hs, List.forall_mem_cons, List.forall_mem_singleton]
  case refine_1 => exact ⟨by decide, he⟩
  case refine_2 =>
    refine ⟨fun k hk => ?_, hn⟩
    rw [patch_first contains_diskOf, toNat_header hk, if_neg (by omega), if_neg (by omega)]

-- The loader that uses the whole boot sector and 256 bytes of stack.
def loader : Set Word :=
  { a | 0x7c00 ≤ a.toNat ∧ a.toNat < 0x7e00 ∨ 0x9f00 ≤ a.toNat ∧ a.toNat < 0xa000 }

theorem unspoilt_pair {t : Segment}
    (hs : ∀ a, s.Covers a → a < 2 ^ 32 ∧ patch disk s (ofNat 32 a) = some (s.byte file a) ∧
      patch disk t (ofNat 32 a) = none)
    (ht : ∀ a, t.Covers a → a < 2 ^ 32 ∧ patch disk t (ofNat 32 a) = some (t.byte file a)) :
    ∀ xs r ys a, [s, t] = xs ++ r :: ys → r.Covers a →
      a < 2 ^ 32 ∧ Last ((r :: ys).map (patch disk)) (ofNat 32 a) (r.byte file a) := by
  intro xs r ys a hx ha
  cases xs
  case nil =>
    cases hx
    have ⟨hl, hp, hn⟩ := hs a ha
    exact ⟨hl, [], patch disk s, [patch disk t], rfl, hp, List.forall_mem_singleton.mpr hn⟩
  case cons x xs =>
    cases xs
    case nil =>
      cases hx
      have ⟨hl, hp⟩ := ht a ha
      exact ⟨hl, [], patch disk t, [], rfl, hp, nofun⟩
    case cons => simp at hx

-- A memory that is not clear behind the boot record.
def dirty : Memory 32 :=
  fun a => if a.toNat < 0x7008 then 0 else 0xff

-- A program with a segment between the code of the loader and the headers.
theorem image_built_between : Builds loader (diskOf between) between elf32 dirty := by
  have hw : OwnMemory loader := fun a ha => ha.imp_right fun h => ⟨by omega, h.right⟩
  have hl : Loadable between elf32 := loadable_sample segments_between ⟨by decide, by rfl⟩ (by decide)
  have hc : Contains (diskOf between) between := contains_diskOf
  have ha : Apart (diskOf between) between elf32 := apart_sample segments_between (by decide) fun k hk => by
    rw [patch_between contains_diskOf, toNat_header hk, if_neg (by omega), if_neg (by omega)]
  have hi : is_ap dirty = 0 := is_ap_eq_zero fun a ha => if_pos ha
  refine (image_built_iff loader _ between elf32 hw hc hl).mpr
    ⟨ha.ends, ?clear, fun n _ => ha.legible hl, ?unspoilt⟩ dirty hi
  case clear =>
    rw [segments_between, List.forall_mem_cons, List.forall_mem_singleton]
    refine ⟨fun a ha => ?_, fun a ha => ?_⟩
    all_goals have ha : 0x7c00 ≤ a.toNat ∧ a.toNat < 0x7e00 ∨ 0x9f00 ≤ a.toNat ∧ a.toNat < 0xa000 := ha
    case refine_1 => rw [patch_first hc, if_neg (by omega), if_neg (by omega)]
    case refine_2 => rw [patch_between hc, if_neg (by omega), if_neg (by omega)]
  case unspoilt =>
    rw [segments_between]
    refine unspoilt_pair (fun a ha => ?_) fun a ha =>
      patch_byte hc ⟨by decide, by rfl⟩ (by decide) (by decide) (by decide) ha
    have ⟨hlt, hp⟩ := patch_byte hc aligned_first (by decide) (by decide) (by decide) ha
    have ha : 0x100000 ≤ a ∧ a < 0x100000 + 0x20 := ha
    refine ⟨hlt, hp, ?_⟩
    rw [patch_between hc, BitVec.toNat_ofNat, if_neg (by omega), if_neg (by omega)]

-- If the second segment begins in the sector in which the first one ends, then the bytes of the file before it end up
-- in the zeros of the first one.
theorem image_not_built : Contains (diskOf crowded) crowded ∧ is_ap (fun _ => 0) = 0 ∧ Loadable crowded elf32 ∧
    ¬∃ fuel mem', load_kernel (diskOf crowded) (fun _ => 0) fuel = some mem' ∧
      Image crowded (elf32.segments crowded) mem' := by
  have hl : Loadable crowded elf32 := loadable_sample segments_crowded ⟨by decide, by rfl⟩ (by decide)
  have hc : Contains (diskOf crowded) crowded := contains_diskOf
  have ha : Apart (diskOf crowded) crowded elf32 := apart_sample segments_crowded (by decide) fun k hk => by
    rw [patch_crowded contains_diskOf, toNat_header hk, if_neg (by omega), if_neg (by omega)]
  refine ⟨hc, rfl, hl, fun h => ?_⟩
  have hm := (ha.load_kernel_yields hc hl rfl).exists_iff.mp h
  rw [segments_crowded] at hm
  have hb := (hm first List.mem_cons_self 0x100010 ⟨by decide, by decide⟩).right
  rw [overlays, List.map_cons, List.foldl_cons, List.map_singleton, List.foldl_cons, List.foldl_nil, Overlay.overlay,
    patch_crowded hc] at hb
  exact absurd hb (by decide)

end Samples

end Am.Boot
