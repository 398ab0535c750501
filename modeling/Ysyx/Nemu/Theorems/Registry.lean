import Ysyx.Lists.FirstMatch
import Ysyx.Nemu.Registry
import Ysyx.Nemu.Theorems.Paddr

-- When the registered regions are a partition of the address spaces.

namespace Nemu

variable {D : Type} {env : Env D} {r r' : Registry D} {c : Call D} {calls calls' : List (Call D)}
variable {map map' : IOMap D} {b : Bool}

namespace Call

-- The region that a call registers.
def region : Call D → IOMap D
  | mmio name addr space len callback => { name, low := addr, high := addr + len - 1, space, callback }
  | pio name addr space len callback  =>
    { name, low := addr.setWidth 32, high := addr.setWidth 32 + len - 1, space, callback }

theorem region_low : c.region.low = c.addr := by
  cases c <;> rfl

theorem region_high : c.region.high = c.addr + c.len - 1 := by
  cases c <;> rfl

theorem low_le_high_iff (h : c.len ≠ 0) : c.region.low ≤ c.region.high ↔ c.addr.toNat + c.len.toNat ≤ 2 ^ 32 := by
  rw [region_low, region_high, BitVec.le_def]
  have : c.len.toNat ≠ 0 := fun he => h (BitVec.eq_of_toNat_eq he)
  bv_omega

theorem region_high_toNat (h : c.len ≠ 0) (hw : c.addr.toNat + c.len.toNat ≤ 2 ^ 32) :
    c.region.high.toNat = c.addr.toNat + c.len.toNat - 1 := by
  rw [region_high]
  have : c.len.toNat ≠ 0 := fun he => h (BitVec.eq_of_toNat_eq he)
  bv_omega

end Call

-- The condition that the loop of `add_mmio_map` tests.
def Overlap (map map' : IOMap D) : Prop :=
  map'.low ≤ map.high ∧ map.low ≤ map'.high

theorem Overlap.symm (h : Overlap map map') : Overlap map' map :=
  ⟨h.right, h.left⟩

-- The tests of a call that do not depend on the other calls.
def Call.Fits (env : Env D) (c : Call D) : Prop :=
  if c.isPort then c.addr + c.len ≤ PORT_IO_SPACE_MAX
  else env.in_pmem c.region.low = false ∧ env.in_pmem c.region.high = false

-- The regions that some calls register on one of the two buses.
def regions (port : Bool) (calls : List (Call D)) : List (IOMap D) :=
  (calls.filter (·.isPort == port)).map Call.region

namespace Registry

def add (calls : List (Call D)) (r : Registry D) : Registry D :=
  { r with maps := r.maps ++ regions false calls, pio_maps := r.pio_maps ++ regions true calls }

theorem add_add : (r.add calls).add calls' = r.add (calls ++ calls') := by
  simp [add, regions]

theorem perform_pio_iff (h : c.isPort = true) : c.perform r = .ok r' ↔
    c.Fits r.toEnv ∧ r' = r.add [c] ∧ r.pio_maps.length < NR_MAP := by
  cases c
  case mmio => cases h
  case pio name addr space len callback =>
    simp only [Call.perform, add_pio_map, Call.Fits, Call.isPort, if_true, Call.addr, Call.len]
    split
    case isFalse hn => simp [hn]
    case isTrue hn =>
      split
      case isFalse hf => simp [hf]
      case isTrue hf =>
        simp only [Except.ok.injEq, hf, hn, true_and, and_true]
        rw [eq_comm]
        simp [add, regions, Call.isPort, Call.region]

theorem perform_mmio_iff (h : c.isPort = false) : c.perform r = .ok r' ↔
    c.Fits r.toEnv ∧ r' = r.add [c] ∧ r.maps.length < NR_MAP ∧ ∀ map ∈ r.maps, ¬Overlap map c.region := by
  cases c
  case pio => cases h
  case mmio name addr space len callback =>
    simp only [Call.perform, add_mmio_map, Call.Fits, Call.isPort, Bool.false_eq_true, if_false]
    split
    case isFalse hn => simp [hn]
    case isTrue hn =>
      split
      case isTrue hp =>
        refine ⟨fun h => (by cases h), fun h => absurd hp ?_⟩
        obtain ⟨h₁, h₂⟩ := h.left
        simp only [Call.region] at h₁ h₂
        rw [h₁, h₂]
        exact Bool.false_ne_true
      case isFalse hp =>
        have hp : r.in_pmem addr = false ∧ r.in_pmem (addr + len - 1) = false := by simpa using hp
        split
        case h_1 map hf =>
          refine ⟨fun h => (by cases h), fun h => absurd ?_ (h.right.right.right map (List.mem_of_find?_eq_some hf))⟩
          simpa [Overlap, Call.region] using List.find?_some hf
        case h_2 hf =>
          have hn : ∀ map ∈ r.maps, ¬Overlap map (Call.mmio name addr space len callback).region := fun map hm ho =>
            List.find?_eq_none.mp hf map hm (by simpa [Overlap, Call.region] using ho)
          rw [Except.ok.injEq, eq_comm]
          refine ⟨fun h => ⟨hp, ?_, by assumption, hn⟩, fun h => h.right.left.trans ?_⟩
          case refine_1 => rw [h]; simp [add, regions, Call.isPort, Call.region]
          case refine_2 => simp [add, regions, Call.isPort, Call.region]

theorem register_cons_iff : r.register (c :: calls) = .ok r' ↔
    ∃ r₁, c.perform r = .ok r₁ ∧ r₁.register calls = .ok r' := by
  rw [register, List.foldlM_cons]
  cases c.perform r
  case error => exact ⟨nofun, nofun⟩
  case ok r₁ => exact ⟨fun h => ⟨r₁, rfl, h⟩, fun ⟨_, h, h'⟩ => Except.ok.inj h ▸ h'⟩

-- The registered regions fit into the tables, and those on the memory bus pass the test for overlaps.
structure Admissible (r : Registry D) : Prop where
  maps     : r.maps.length ≤ NR_MAP
  pio_maps : r.pio_maps.length ≤ NR_MAP
  apart    : r.maps.Pairwise fun map map' => ¬Overlap map map'

theorem admissible_of_add (h : (r.add calls).Admissible) : r.Admissible := by
  have ⟨hm, hp, ha⟩ := h
  simp only [add, List.length_append] at hm hp
  exact ⟨by omega, by omega, (List.pairwise_append.mp ha).left⟩

theorem admissible_add_port (h : r.Admissible) (hc : c.isPort = true) :
    (r.add [c]).Admissible ↔ r.pio_maps.length < NR_MAP := by
  have hr : regions false [c] = [] ∧ regions true [c] = [c.region] := by simp [regions, hc]
  constructor
  case mp =>
    intro ⟨_, hp, _⟩
    simp only [add, hr, List.length_append, List.length_singleton] at hp
    omega
  case mpr =>
    intro hp
    have ⟨hm, _, ha⟩ := h
    exact ⟨by simpa [add, hr] using hm, by simpa [add, hr, Nat.succ_le_iff] using hp, by simpa [add, hr] using ha⟩

theorem admissible_add_mmio (h : r.Admissible) (hc : c.isPort = false) :
    (r.add [c]).Admissible ↔ r.maps.length < NR_MAP ∧ ∀ map ∈ r.maps, ¬Overlap map c.region := by
  have hr : regions false [c] = [c.region] ∧ regions true [c] = [] := by simp [regions, hc]
  constructor
  case mp =>
    intro ⟨hm, _, ha⟩
    simp only [add, hr, List.length_append, List.length_singleton] at hm ha
    exact ⟨by omega, fun map hm => (List.pairwise_append.mp ha).right.right map hm _ (by simp)⟩
  case mpr =>
    intro ⟨hm, ho⟩
    have ⟨_, hp, ha⟩ := h
    refine ⟨by simpa [add, hr, Nat.succ_le_iff] using hm, by simpa [add, hr] using hp, ?_⟩
    simp only [add, hr]
    exact List.pairwise_append.mpr ⟨ha, List.pairwise_singleton _ _, fun map hm _ hc =>
      List.mem_singleton.mp hc ▸ ho map hm⟩

theorem perform_ok_iff (h : r.Admissible) : c.perform r = .ok r' ↔
    c.Fits r.toEnv ∧ r' = r.add [c] ∧ (r.add [c]).Admissible := by
  cases hc : c.isPort
  case true => rw [perform_pio_iff hc, admissible_add_port h hc]
  case false => rw [perform_mmio_iff hc, admissible_add_mmio h hc]

-- The calls that succeed do not depend on each other but for the final regions.
theorem register_ok_iff (h : r.Admissible) : r.register calls = .ok r' ↔
    (∀ c ∈ calls, c.Fits r.toEnv) ∧ r' = r.add calls ∧ (r.add calls).Admissible := by
  induction calls generalizing r
  case nil =>
    have hn : r.add [] = r := by simp [add, regions]
    rw [hn]
    exact ⟨fun hr => ⟨nofun, (Except.ok.inj hr).symm, h⟩, fun ⟨_, he, _⟩ => he ▸ rfl⟩
  case cons c calls hi =>
    rw [register_cons_iff]
    constructor
    case mp =>
      intro ⟨r₁, hp, hr⟩
      have ⟨hf, he, ha⟩ := (perform_ok_iff h).mp hp
      subst he
      have ⟨hf', he, ha⟩ := (hi ha).mp hr
      rw [add_add] at he ha
      exact ⟨List.forall_mem_cons.mpr ⟨hf, hf'⟩, he, ha⟩
    case mpr =>
      intro ⟨hf, he, ha⟩
      have ⟨hf, hf'⟩ := List.forall_mem_cons.mp hf
      have hs : (r.add [c]).add calls = r.add (c :: calls) := add_add
      rw [← hs] at he ha
      have ha' := admissible_of_add ha
      exact ⟨_, (perform_ok_iff h).mpr ⟨hf, rfl, ha'⟩, (hi ha').mpr ⟨hf', he, ha⟩⟩

theorem boot_admissible : env.boot.Admissible :=
  ⟨Nat.zero_le _, Nat.zero_le _, List.Pairwise.nil⟩

theorem boot_ok_iff : env.boot.register calls = .ok r ↔
    (∀ c ∈ calls, c.Fits env) ∧ r = env.boot.add calls ∧ (env.boot.add calls).Admissible :=
  register_ok_iff boot_admissible

theorem regions_perm (h : calls'.Perm calls) : (regions b calls').Perm (regions b calls) :=
  (h.filter _).map _

-- Registration in another order succeeds with the same regions.
theorem boot_ok_of_perm (hp : calls'.Perm calls) (h : env.boot.register calls = .ok r) :
    env.boot.register calls' = .ok (env.boot.add calls') := by
  have ⟨hf, _, hm, hpio, ha⟩ := boot_ok_iff.mp h
  refine boot_ok_iff.mpr ⟨fun c hc => hf c (hp.mem_iff.mp hc), rfl, ?_, ?_, ?_⟩
  case refine_1 => exact (regions_perm hp).length_eq ▸ hm
  case refine_2 => exact (regions_perm hp).length_eq ▸ hpio
  case refine_3 => exact ((regions_perm hp).pairwise_iff fun hn ho => hn ho.symm).mpr ha

section Partition

theorem mem_regions : map ∈ regions b calls ↔ ∃ c ∈ calls, c.isPort = b ∧ c.region = map := by
  simp [regions, and_assoc]

theorem disjoint_iff (h : map.low ≤ map.high) (h' : map'.low ≤ map'.high) :
    Disjoint map map' ↔ ¬Overlap map map' := by
  rw [BitVec.le_def] at h h'
  constructor
  case mp =>
    intro hd ⟨h₁, h₂⟩
    rw [BitVec.le_def] at h₁ h₂
    -- The larger one of the lower ends lies in both regions.
    by_cases hm : map.low.toNat ≤ map'.low.toNat
    case pos => exact hd map'.low ⟨map_inside_iff.mpr (by omega), map_inside_iff.mpr (by omega)⟩
    case neg => exact hd map.low ⟨map_inside_iff.mpr (by omega), map_inside_iff.mpr (by omega)⟩
  case mpr =>
    intro ho addr ⟨h₁, h₂⟩
    have h₁ := map_inside_iff.mp h₁
    have h₂ := map_inside_iff.mp h₂
    exact ho ⟨BitVec.le_def.mpr (by omega), BitVec.le_def.mpr (by omega)⟩

-- The test of the two ends of a region misses nothing but a region around the physical memory.
theorem apart_pmem_iff (hl : env.in_pmem map.low = false) (hh : env.in_pmem map.high = false) :
    (∀ addr, map_inside map addr = true → env.in_pmem addr = false) ↔
    ¬(map.low.toNat < env.MBASE ∧ env.MBASE + env.MSIZE ≤ map.high.toNat) := by
  have hl := mt in_pmem_iff.mpr (Bool.eq_false_iff.mp hl)
  have hh := mt in_pmem_iff.mpr (Bool.eq_false_iff.mp hh)
  have hp := env.pos
  have hf := env.fits
  constructor
  case mp =>
    intro ha hb
    have hm : (BitVec.ofNat 32 env.MBASE).toNat = env.MBASE := by
      rw [BitVec.toNat_ofNat]
      omega
    have hi : env.in_pmem (BitVec.ofNat 32 env.MBASE) = true := in_pmem_iff.mpr (by omega)
    rw [ha _ (map_inside_iff.mpr (by omega))] at hi
    exact Bool.false_ne_true hi
  case mpr =>
    intro hb addr hi
    have hi := map_inside_iff.mp hi
    refine Bool.eq_false_iff.mpr fun hi' => ?_
    have hi' := in_pmem_iff.mp hi'
    omega

theorem ordered_iff (hl : ∀ c ∈ calls, c.len ≠ 0) :
    (∀ map ∈ regions false calls ++ regions true calls, map.low ≤ map.high) ↔
    ∀ c ∈ calls, c.addr.toNat + c.len.toNat ≤ 2 ^ 32 := by
  constructor
  case mp =>
    intro h c hc
    refine (Call.low_le_high_iff (hl c hc)).mp (h c.region (List.mem_append.mpr ?_))
    cases hp : c.isPort
    case false => exact .inl (mem_regions.mpr ⟨c, hc, hp, rfl⟩)
    case true => exact .inr (mem_regions.mpr ⟨c, hc, hp, rfl⟩)
  case mpr =>
    intro h map hm
    have ⟨c, hc, he⟩ : ∃ c ∈ calls, c.region = map := by
      cases List.mem_append.mp hm
      case inl hm => have ⟨c, hc, _, he⟩ := mem_regions.mp hm; exact ⟨c, hc, he⟩
      case inr hm => have ⟨c, hc, _, he⟩ := mem_regions.mp hm; exact ⟨c, hc, he⟩
    exact he ▸ (Call.low_le_high_iff (hl c hc)).mpr (h c hc)

theorem pmem_iff (hl : ∀ c ∈ calls, c.len ≠ 0) (hf : ∀ c ∈ calls, c.Fits env)
    (hw : ∀ c ∈ calls, c.addr.toNat + c.len.toNat ≤ 2 ^ 32) :
    (∀ map ∈ regions false calls, ∀ addr, map_inside map addr = true → env.in_pmem addr = false) ↔
    ∀ c ∈ calls, c.isPort = false →
      ¬(c.addr.toNat < env.MBASE ∧ env.MBASE + env.MSIZE < c.addr.toNat + c.len.toNat) := by
  have he : ∀ c ∈ calls, c.isPort = false →
      ((∀ addr, map_inside c.region addr = true → env.in_pmem addr = false) ↔
      ¬(c.addr.toNat < env.MBASE ∧ env.MBASE + env.MSIZE < c.addr.toNat + c.len.toNat)) := by
    intro c hc hp
    have ⟨h₁, h₂⟩ : env.in_pmem c.region.low = false ∧ env.in_pmem c.region.high = false := by
      have := hf c hc
      simpa only [Call.Fits, hp, Bool.false_eq_true, if_false] using this
    rw [apart_pmem_iff h₁ h₂, Call.region_high_toNat (hl c hc) (hw c hc), Call.region_low]
    omega
  constructor
  case mp => exact fun h c hc hp => (he c hc hp).mp (h c.region (mem_regions.mpr ⟨c, hc, hp, rfl⟩))
  case mpr =>
    intro h map hm
    have ⟨c, hc, hp, hr⟩ := mem_regions.mp hm
    exact hr ▸ (he c hc hp).mpr (h c hc hp)

theorem pio_iff (hl : ∀ c ∈ calls, c.len ≠ 0) (hw : ∀ c ∈ calls, c.addr.toNat + c.len.toNat ≤ 2 ^ 32) :
    (regions true calls).Pairwise Disjoint ↔ calls.Pairwise fun c c' => c.isPort = true → c'.isPort = true →
      c.addr.toNat + c.len.toNat ≤ c'.addr.toNat ∨ c'.addr.toNat + c'.len.toNat ≤ c.addr.toNat := by
  rw [regions, List.pairwise_map, List.pairwise_filter]
  refine List.Pairwise.iff_of_mem fun {c c'} hc hc' => ?_
  have ho := (Call.low_le_high_iff (hl c hc)).mpr (hw c hc)
  have ho' := (Call.low_le_high_iff (hl c' hc')).mpr (hw c' hc')
  have hd : Disjoint c.region c'.region ↔
      c.addr.toNat + c.len.toNat ≤ c'.addr.toNat ∨ c'.addr.toNat + c'.len.toNat ≤ c.addr.toNat := by
    have hz : c.len.toNat ≠ 0 := fun he => hl c hc (BitVec.eq_of_toNat_eq he)
    have hz' : c'.len.toNat ≠ 0 := fun he => hl c' hc' (BitVec.eq_of_toNat_eq he)
    rw [disjoint_iff ho ho', Overlap, BitVec.le_def, BitVec.le_def, Call.region_high_toNat (hl c hc) (hw c hc),
      Call.region_high_toNat (hl c' hc') (hw c' hc'), Call.region_low, Call.region_low]
    omega
  simp [hd]

theorem served_le_one {maps : List (IOMap D)} (h : maps.Pairwise Disjoint) (addr : Word) :
    (maps.filter (map_inside · addr)).length ≤ 1 :=
  FirstMatch.length_filter_le_one (h.imp fun hd => hd addr)

theorem served_of_apart {maps : List (IOMap D)} (h : maps.Pairwise Disjoint)
    (hp : ∀ map ∈ maps, ∀ addr, map_inside map addr = true → env.in_pmem addr = false) (addr : Word) :
    (maps.filter (map_inside · addr)).length + (env.in_pmem addr).toNat ≤ 1 := by
  cases hi : env.in_pmem addr
  case false => exact served_le_one h addr
  case true =>
    have hn : maps.filter (map_inside · addr) = [] := List.filter_eq_nil_iff.mpr fun map hm hi' => by
      rw [hp map hm addr hi'] at hi
      exact Bool.false_ne_true hi
    rw [hn]
    exact Nat.le_refl 1

-- The registered regions are a partition if and only if the calls are sound.
theorem partition_iff_sound (env : Env D) (calls : List (Call D)) (r : Registry D) (hl : ∀ c ∈ calls, c.len ≠ 0)
    (h : env.boot.register calls = .ok r) : Partition env calls r ↔ Sound env calls := by
  have ⟨hf, hr, _, _, ha⟩ := boot_ok_iff.mp h
  subst hr
  constructor
  case mp =>
    intro hp
    have hw := (ordered_iff hl).mp hp.ordered
    exact ⟨hw, (pmem_iff hl hf hw).mp hp.pmem, (pio_iff hl hw).mp hp.pio⟩
  case mpr =>
    intro hs
    have ho := (ordered_iff hl).mpr hs.noWrap
    have hp := (pmem_iff hl hf hs.noWrap).mpr hs.pmem
    have hd := (pio_iff hl hs.noWrap).mpr hs.ports
    have hm : (regions false calls).Pairwise Disjoint := ha.imp_of_mem fun hm hm' hn =>
      (disjoint_iff (ho _ (List.mem_append_left _ hm)) (ho _ (List.mem_append_left _ hm'))).mpr hn
    refine ⟨ho, hm, hp, hd, fun addr => ⟨served_of_apart hm hp addr, served_le_one hd addr⟩, fun calls' hc => ?_⟩
    refine ⟨_, boot_ok_of_perm hc h, fun addr => ⟨?_, ?_⟩⟩
    case refine_1 => exact FirstMatch.find?_perm (hm.imp fun hd => hd addr) (regions_perm hc)
    case refine_2 => exact FirstMatch.find?_perm (hd.imp fun hd => hd addr) (regions_perm hc)

end Partition

-- The serial port and the clock of the default configuration.
def serialRtc : List (Call Unit) :=
  [.mmio "serial" 0xa00003f8 0 8 none, .mmio "rtc" 0xa0000048 8 8 none]

theorem partition_iff_sound_serial : Partition riscv32 serialRtc (riscv32.boot.add serialRtc) ↔
    Sound riscv32 serialRtc :=
  partition_iff_sound _ _ _ (by decide) rfl

-- Nothing keeps two devices from registering the same ports.
theorem not_partition : ¬∀ (env : Env Unit) (calls : List (Call Unit)) (r : Registry Unit), (∀ c ∈ calls, c.len ≠ 0) →
    env.boot.register calls = .ok r → Partition env calls r := by
  intro h
  let calls : List (Call Unit) := [.pio "keyboard" 0x60 0 4 none, .pio "mouse" 0x60 4 4 none]
  have hp := (h riscv32 calls (riscv32.boot.add calls) (by decide) rfl).pio
  exact (List.pairwise_cons.mp hp).left _ (List.mem_singleton.mpr rfl) 0x60 (by decide)

end Registry
end Nemu
