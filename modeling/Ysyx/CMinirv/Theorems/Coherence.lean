import Ysyx.CMinirv.Screen
import Ysyx.Rv32.Encode

-- What the loads of C_minirv_screen return and what its screen holds, after every history of accesses.

namespace CMinirv

open Memory

variable {rom : Memory 32} {inst d : Word} {s s₀ s' : State Ram} {acc : Access} {h : List Access}
variable {k : Fin screenSize} {a x : Word} {m : Memory 32} {b : Byte}

theorem store_setWidth : m.store a 1 (b.setWidth 32) = m.store a 1 b := by
  funext x
  rw [store_apply, store_apply]
  split
  case isTrue h =>
    rw [Nat.lt_one_iff.mp h]
    ext i hi
    simp [hi, show i < 32 by omega]
  case isFalse => rfl

-- What one access does to the two arrays.
structure Access.Performed (acc : Access) (m m' : Ram) : Prop where
  memory : m'.memory = m.memory.latest acc.memoryStore?.toList
  screen : ∀ k, m'.screen k = (acc.pixelStore? k).getD (m.screen k)

theorem screenBus_sw_of_inScreen {v : Word} {m : Ram} (h : InScreen a) : screenBus.sw m a v =
    .ok { m with screen := Function.update m.screen (pixel a h) v } :=
  dif_pos h

theorem screenBus_sw_of_not_inScreen {v : Word} {m : Ram} (h : ¬InScreen a) : screenBus.sw m a v =
    element ramSize a 4 { m with memory := m.memory.store a 4 v } :=
  dif_neg h

theorem Access.perform_memory (h : acc.perform screenBus d s = .ok s') : acc.Performed s.memory s'.memory := by
  cases acc with
  | lw a | lbu a =>
    have ⟨_, _, hs⟩ := bind_eq_ok_iff.mp h
    cases hs
    exact ⟨rfl, fun _ => rfl⟩
  | sb a b =>
    have ⟨_, hb, hs⟩ := bind_eq_ok_iff.mp h
    have ⟨_, hm⟩ := element_eq_ok_iff.mp hb
    cases hm
    cases hs
    exact ⟨by simp [memoryStore?, store?, store_setWidth], fun _ => rfl⟩
  | sw a v =>
    have ⟨_, hb, hs⟩ := bind_eq_ok_iff.mp h
    by_cases ha : InScreen a
    case pos =>
      rw [screenBus_sw_of_inScreen ha] at hb
      cases hb
      cases hs
      refine ⟨by simp [memoryStore?, ha], fun k => ?_⟩
      by_cases hk : pixel a ha = k
      case pos => simp [pixelStore?, ha, hk]
      case neg => simp [pixelStore?, ha, hk, Function.update_of_ne (Ne.symm hk)]
    case neg =>
      rw [screenBus_sw_of_not_inScreen ha] at hb
      have ⟨_, hm⟩ := element_eq_ok_iff.mp hb
      cases hm
      cases hs
      exact ⟨by simp [memoryStore?, store?, ha], fun k => by simp [pixelStore?, ha]⟩

theorem Internal.memory_screen {r : Except Stop (State Ram)} (hi : Internal screenBus s r) (h : r = .ok s') :
    s'.memory.memory = s.memory.memory ∧ s'.memory.screen = s.memory.screen := by
  cases hi
  all_goals
    cases h
    try exact ⟨rfl, rfl⟩

-- The invariant of runs.
structure Coherent (s₀ : State Ram) (h : List Access) (m : Ram) : Prop where
  memory : m.memory = s₀.memory.memory.latest (memoryStores h)
  screen : ∀ k, m.screen k = lastPixel (s₀.memory.screen k) h k

theorem Coherent.step {m m' : Ram} (hc : Coherent s₀ h m) (hp : acc.Performed m m') :
    Coherent s₀ (acc :: h) m' where
  memory := by
    rw [hp.memory, hc.memory, memoryStores, memoryStores]
    cases hs : acc.memoryStore? <;> simp [hs]
  screen k := by
    rw [hp.screen, hc.screen, lastPixel, lastPixel]
    cases hs : acc.pixelStore? k <;> simp [hs]

theorem instCycle_performed (hs : instCycle screenBus rom s = .ok s') (ha : s.dataAccess rom = some acc) :
    acc.Performed s.memory s'.memory := by
  have he := (instCycle_eq_ok_iff.mp hs).right
  rw [execute_access ha] at he
  exact Access.perform_memory (s := s.advance) he

theorem instCycle_unaccessed (hs : instCycle screenBus rom s = .ok s') (ha : s.dataAccess rom = none) :
    s'.memory.memory = s.memory.memory ∧ s'.memory.screen = s.memory.screen :=
  (execute_internal ha).memory_screen (instCycle_eq_ok_iff.mp hs).right

theorem run_coherent (r : Run rom s₀ h s) : Coherent s₀ h s.memory := by
  induction r
  case start => exact ⟨rfl, fun _ => rfl⟩
  case step s _ _ hs ih =>
    cases ha : s.dataAccess rom
    case none =>
      have ⟨hm, hp⟩ := instCycle_unaccessed hs ha
      exact ⟨hm.trans ih.memory, fun k => (congrFun hp k).trans (ih.screen k)⟩
    case some => exact ih.step <| instCycle_performed hs ha

-- An access inside of the array takes place.
theorem Access.exists_perform (h : acc.Inside ramSize) : ∃ s', acc.perform screenBus d s = .ok s' := by
  cases acc
  case lw | lbu => exact ⟨_, bind_eq_ok_iff.mpr ⟨_, element_eq_ok_iff.mpr ⟨h, rfl⟩, rfl⟩⟩
  case sb => exact ⟨_, bind_eq_ok_iff.mpr ⟨_, element_eq_ok_iff.mpr ⟨h, rfl⟩, rfl⟩⟩
  case sw a v =>
    by_cases ha : InScreen a
    case pos => exact ⟨_, bind_eq_ok_iff.mpr ⟨_, screenBus_sw_of_inScreen ha, rfl⟩⟩
    case neg =>
      exact ⟨_, bind_eq_ok_iff.mpr ⟨_, (screenBus_sw_of_not_inScreen ha).trans <| element_eq_ok_iff.mpr ⟨h, rfl⟩, rfl⟩⟩

theorem instCycle_of_inside (hp : s.pc.toNat + 4 ≤ memSize) (ha : s.dataAccess rom = some acc)
    (h : acc.Inside ramSize) : ∃ s', instCycle screenBus rom s = .ok s' := by
  have ⟨s', he⟩ := Access.exists_perform (d := rd (rom.load32 s.pc)) (s := s.advance) h
  exact ⟨s', instCycle_eq_ok_iff.mpr ⟨hp, (execute_access ha).trans he⟩⟩

theorem Access.perform_loaded {v : Word} (hv : acc.loaded s.memory.memory = some v) :
    acc.perform screenBus d s = .ok s' ↔ acc.Inside ramSize ∧ s' = s.setReg d v := by
  cases acc
  case lw | lbu =>
    cases hv
    constructor
    case mp =>
      intro h
      have ⟨_, hb, hs⟩ := bind_eq_ok_iff.mp h
      have ⟨hi, hw⟩ := element_eq_ok_iff.mp hb
      cases hs
      exact ⟨hi, by rw [← hw]⟩
    case mpr =>
      intro ⟨hi, hs⟩
      exact bind_eq_ok_iff.mpr ⟨_, element_eq_ok_iff.mpr ⟨hi, rfl⟩, congrArg Except.ok hs.symm⟩
  case sw | sb => cases hv

-- A load returns if and only if its bytes are in the array, and then it has the word that is there.
theorem instCycle_loaded_iff {v : Word} (ha : s.dataAccess rom = some acc)
    (hv : acc.loaded s.memory.memory = some v) : instCycle screenBus rom s = .ok s' ↔
      s.pc.toNat + 4 ≤ memSize ∧ acc.Inside ramSize ∧ s' = s.advance.setReg (rd (rom.load32 s.pc)) v := by
  rw [instCycle_eq_ok_iff, execute_access ha, Access.perform_loaded (s := s.advance) hv]

theorem view_of_inScreen {m : Ram} (h : InScreen x) : m.view x = (m.screen (pixel x h)).byte (x.toNat % 4) :=
  dif_pos h

theorem view_of_not_inScreen {m : Ram} (h : ¬InScreen x) : m.view x = m.memory x :=
  dif_neg h

theorem toNat_pixelAddr_add {i : Nat} (hi : i < 4) :
    (pixelAddr k + BitVec.ofNat 32 i).toNat = 0x20000000 + 4 * k + i := by
  have : k.val < 65536 := k.isLt
  simp only [pixelAddr, BitVec.toNat_add, BitVec.toNat_ofNat]
  omega

theorem load32_view {m : Ram} : m.view.load32 (pixelAddr k) = m.screen k := by
  refine BitVec.eq_of_byte fun i hi => ?_
  have hk : k.val < 65536 := k.isLt
  have ha := toNat_pixelAddr_add (k := k) hi
  have hs : InScreen (pixelAddr k + BitVec.ofNat 32 i) := inScreen_iff.mpr (by omega)
  have hp : pixel _ hs = k := Fin.ext <| by
    rw [pixel_val]
    omega
  rw [byte_load32 hi, view_of_inScreen hs, hp, ha]
  congr 1
  omega

theorem mem_region_toNat {n : Nat} (hn : a.toNat + n ≤ 2 ^ 32) :
    x ∈ region a n ↔ a.toNat ≤ x.toNat ∧ x.toNat < a.toNat + n := by
  rw [mem_region, BitVec.toNat_sub]
  omega

-- An aligned word of the screen is one pixel.
theorem mem_region_iff_pixel (ha : InScreen a) (hl : a.toNat % 4 = 0) (hx : InScreen x) :
    x ∈ region a 4 ↔ pixel a ha = pixel x hx := by
  obtain ⟨_, _⟩ := inScreen_iff.mp ha
  obtain ⟨_, _⟩ := inScreen_iff.mp hx
  rw [mem_region_toNat (by omega), Fin.ext_iff, pixel_val, pixel_val]
  omega

theorem inScreen_of_mem_region (ha : InScreen a) (hl : a.toNat % 4 = 0) (hx : x ∈ region a 4) : InScreen x := by
  obtain ⟨_, _⟩ := inScreen_iff.mp ha
  obtain ⟨_, _⟩ := (mem_region_toNat (by omega)).mp hx
  exact inScreen_iff.mpr (by omega)

theorem mem_region_one : x ∈ region a 1 ↔ x = a := by
  rw [mem_region, Nat.lt_one_iff, toNat_sub_eq_zero_iff]

theorem view_congr {m m' : Ram} (hm : m'.memory = m.memory) (hp : ∀ k, m'.screen k = m.screen k) :
    m'.view = m.view := by
  funext x
  by_cases hx : InScreen x
  case pos => rw [view_of_inScreen hx, view_of_inScreen hx, hp]
  case neg => rw [view_of_not_inScreen hx, view_of_not_inScreen hx, hm]

theorem view_store_memory {m m' : Ram} {st : Store 32} (hs : ∀ y ∈ st.region, ¬InScreen y)
    (hm : m'.memory = m.memory.latest [st]) (hp : ∀ k, m'.screen k = m.screen k) :
    m'.view = m.view.latest [st] := by
  funext x
  by_cases hx : InScreen x
  case pos =>
    rw [latest_cons_of_not_mem fun h => hs x h hx, latest_nil, view_of_inScreen hx, view_of_inScreen hx, hp]
  case neg =>
    rw [view_of_not_inScreen hx, hm, latest_cons, latest_cons, store_apply, store_apply, latest_nil,
      latest_nil, view_of_not_inScreen hx]

theorem view_store_pixel {m m' : Ram} {v : Word} (ha : InScreen a) (hl : a.toNat % 4 = 0)
    (hm : m'.memory = m.memory) (hp : ∀ k, m'.screen k = if pixel a ha = k then v else m.screen k) :
    m'.view = m.view.latest [⟨a, 4, v⟩] := by
  funext x
  rw [latest_cons, latest_nil]
  by_cases hx : InScreen x
  case pos =>
    rw [view_of_inScreen hx, hp]
    by_cases hr : x ∈ region a 4
    case pos =>
      obtain ⟨_, _⟩ := inScreen_iff.mp ha
      have hb := (mem_region_toNat (by omega)).mp hr
      have hd : (x - a).toNat = x.toNat - a.toNat := BitVec.toNat_sub_of_le hb.left
      rw [if_pos ((mem_region_iff_pixel ha hl hx).mp hr), store_of_mem hr, BitVec.byte, hd]
      congr 2
      omega
    case neg =>
      rw [if_neg (mt (mem_region_iff_pixel ha hl hx).mpr hr), store_of_not_mem hr, view_of_inScreen hx]
  case neg =>
    rw [store_of_not_mem (mt (inScreen_of_mem_region ha hl) hx), view_of_not_inScreen hx,
      view_of_not_inScreen hx, hm]

theorem Access.Separate.view_eq {m m' : Ram} (hs : acc.Separate) (hp : acc.Performed m m') :
    m'.view = m.view.latest acc.store?.toList := by
  cases acc with
  | lw a | lbu a => exact view_congr hp.memory hp.screen
  | sb a b => exact view_store_memory (fun y hy => mem_region_one.mp hy ▸ hs) hp.memory hp.screen
  | sw a v =>
    cases hs with
    | inl hs =>
      refine view_store_pixel hs.left hs.right ?memory ?screen
      case memory => simpa [memoryStore?, hs.left] using hp.memory
      case screen =>
        intro k
        rw [hp.screen, pixelStore?, dif_pos hs.left]
        split <;> rfl
    | inr hs =>
      have ha : ¬InScreen a := hs a <| by simp [mem_region]
      refine view_store_memory hs ?memory ?screen
      case memory => simpa [memoryStore?, store?, ha] using hp.memory
      case screen => simpa [pixelStore?, ha] using hp.screen

theorem run_view (r : Run rom s₀ h s) (hs : ∀ acc ∈ h, acc.Separate) :
    s.memory.view = s₀.memory.view.latest (stores h) := by
  induction r
  case start => rfl
  case step s _ _ hc ih =>
    cases ha : s.dataAccess rom
    case none =>
      have ⟨hm, hp⟩ := instCycle_unaccessed hc ha
      rw [view_congr hm (congrFun hp), ih fun acc h => hs acc <| by simp [ha, h]]
      rfl
    case some acc =>
      rw [(hs acc <| by simp [ha]).view_eq (instCycle_performed hc ha), ih fun acc h => hs acc <| by simp [h],
        stores, stores]
      cases hst : acc.store? <;> simp [hst]

theorem Access.Separate.loaded_view {m : Ram} (hs : acc.Separate) : acc.loaded m.view = acc.loaded m.memory := by
  cases acc with
  | lw a =>
    refine congrArg some <| load32_congr fun i hi => ?_
    rw [view_of_not_inScreen (hs _ <| (mem_region_iff (by decide)).mpr ⟨i, hi, rfl⟩)]
  | lbu a => exact congrArg (fun b => some (b.setWidth 32)) (view_of_not_inScreen hs)
  | sw | sb => rfl

theorem accesses_coherent (r : Run rom s₀ h s) :
    (∀ k, s.memory.screen k = lastPixel (s₀.memory.screen k) h k) ∧
    (∀ acc, s.pc.toNat + 4 ≤ memSize → s.dataAccess rom = some acc → acc.Inside ramSize →
      ∃ s', instCycle screenBus rom s = .ok s') ∧
    (∀ s' acc v, s.dataAccess rom = some acc → acc.loaded (s₀.memory.memory.latest (memoryStores h)) = some v →
      (instCycle screenBus rom s = .ok s' ↔ s.pc.toNat + 4 ≤ memSize ∧ acc.Inside ramSize ∧
        s' = s.advance.setReg (rd (rom.load32 s.pc)) v)) ∧
    ((∀ acc ∈ h, acc.Separate) →
      (∀ k, s.memory.screen k = (s₀.memory.view.latest (stores h)).load32 (pixelAddr k)) ∧
      ∀ s' acc v, s.dataAccess rom = some acc → acc.Separate →
        acc.loaded (s₀.memory.view.latest (stores h)) = some v →
        (instCycle screenBus rom s = .ok s' ↔ s.pc.toNat + 4 ≤ memSize ∧ acc.Inside ramSize ∧
          s' = s.advance.setReg (rd (rom.load32 s.pc)) v)) := by
  have hc := run_coherent r
  refine ⟨hc.screen, fun acc hp ha hi => instCycle_of_inside hp ha hi, ?loads, fun hs => ⟨?screen, ?separate⟩⟩
  case loads =>
    intro s' acc v ha hv
    exact instCycle_loaded_iff ha <| hc.memory ▸ hv
  case screen =>
    intro k
    rw [← run_view r hs, load32_view]
  case separate =>
    intro s' acc v ha hacc hv
    rw [← run_view r hs, hacc.loaded_view] at hv
    exact instCycle_loaded_iff ha hv

def screenStart : State Ram where
  register := fun r => if r = 1 then 1 else 0x20000000
  pc       := 0
  memory   := ⟨fun _ => 0, fun _ => 0, true⟩

-- A word that is read back from the screen comes from the RAM behind it.
theorem accesses_not_coherent : ¬∀ (rom : Memory 32) (s₀ s : State Ram) (h : List Access), Run rom s₀ h s →
    (∀ s' acc v, instCycle screenBus rom s = .ok s' → s.dataAccess rom = some acc →
      acc.loaded (s₀.memory.memory.latest (stores h)) = some v →
      s' = s.advance.setReg (rd (rom.load32 s.pc)) v) ∧
    (∀ k, (∀ i < 4, ∃ st ∈ stores h, pixelAddr k + BitVec.ofNat 32 i ∈ st.region) →
      s.memory.screen k = (s₀.memory.memory.latest (stores h)).load32 (pixelAddr k)) := by
  intro h
  have hr : Run (Rv32.assemble [.sw 1 0 2, .lw 3 0 2]) screenStart _ _ := .step .start rfl
  have hl := (h _ _ _ _ hr).left _ (.lw 0x20000000) 1 rfl rfl rfl
  exact absurd (congrArg (·.register 3) hl) (by decide)

-- sw x1, 0(x2); sb x1, 7(x1); sb x1, 8(x1); lw x3, 7(x1)
def screenProgram : Memory 32 :=
  Rv32.assemble [.sw 1 0 2, .sb 1 7 1, .sb 1 8 1, .lw 3 7 1]

-- A word of the screen, and two bytes that are read back as a part of one.
theorem accesses_coherent_start : ∃ h s s', Run screenProgram screenStart h s ∧ s.memory.screen 0 = 1 ∧
    s.dataAccess screenProgram = some (.lw 8) ∧ instCycle screenBus screenProgram s = .ok s' ∧ s'.reg 3 = 0x101 := by
  have hw : Run screenProgram screenStart [.sw 0x20000000 1] _ := .step .start rfl
  have hb : Run screenProgram screenStart [.sb 8 1, .sw 0x20000000 1] _ := .step hw rfl
  have hr : Run screenProgram screenStart [.sb 9 1, .sb 8 1, .sw 0x20000000 1] _ := .step hb rfl
  have hc := accesses_coherent hr
  have hl s' := hc.right.right.left s' (.lw 8) 0x101 rfl (by decide)
  exact ⟨_, _, _, hr, (hc.left 0).trans rfl, rfl, (hl _).mpr ⟨by decide, by decide, rfl⟩, rfl⟩

end CMinirv
