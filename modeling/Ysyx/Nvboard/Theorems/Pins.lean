import Ysyx.Nvboard.Pins
import Ysyx.Lists.Assign
import Ysyx.Bytes.Layout
import Mathlib.Data.List.Pairwise

namespace Nvboard

variable {pinArray : PinArray} {m m' : Memory 64} {p q : Pin} {v : BitVec 64}

section Nodes

variable {a : BitVec 64} {j k : Nat}

-- A bit of the memory: the address of its byte and its number in there.
def location (a : BitVec 64) (j : Nat) : BitVec 64 × Nat :=
  (a + BitVec.ofNat 64 (j / 8), j % 8)

def bitAt (m : Memory 64) (l : BitVec 64 × Nat) : Bool :=
  (m l.fst).getLsbD l.snd

theorem getLsbD_load64 (h : j < 64) : (load64 m a).getLsbD j = bitAt m (location a j) := by
  have hp := Bits.getLsbD_pack (x := fun i : Fin 8 => m (a + BitVec.ofNat 64 i)) (i := ⟨j / 8, by omega⟩)
    (Nat.mod_lt j (by decide : 0 < 8))
  rwa [Nat.div_add_mod] at hp

def PinNode.location (p : PinNode) : BitVec 64 × Nat :=
  Nvboard.location p.ptr p.bitOffset

-- What the binding of a signal makes sure of.
structure PinNode.Bound (p : PinNode) : Prop where
  offset : p.bitOffset < p.vectorLen
  length : p.vectorLen < 64

def byteOf (b : Bool) : Byte :=
  (BitVec.ofBool b).setWidth 8

theorem pinPeek_eq (h : (pinArray p).Bound) : pinPeek pinArray m p = byteOf (bitAt m (pinArray p).location) := by
  have ho := h.offset
  have hl := h.length
  rw [pinPeek, PinNode.location, byteOf]
  by_cases h1 : (pinArray p).vectorLen = 1
  case pos =>
    rw [if_pos h1, show (pinArray p).bitOffset = 0 by omega, location, BitVec.add_zero]
    exact BitVec.and_one_eq_setWidth_ofBool_getLsbD
  case neg =>
    have hv : load64 m (pinArray p).ptr >>> (pinArray p).bitOffset &&& 1#64 = _ :=
      BitVec.and_one_eq_setWidth_ofBool_getLsbD
    refine (if_neg h1).trans <| (congrArg (BitVec.setWidth 8) hv).trans ?_
    rw [BitVec.setWidth_setWidth_of_le _ (by decide), BitVec.getLsbD_ushiftRight, Nat.add_zero,
      getLsbD_load64 (by omega)]

section Stores

variable {x : BitVec 64} {l : BitVec 64 × Nat}

theorem location_injective (hj : j < 64) (hk : k < 64) (h : location a j = location a k) : j = k := by
  have ⟨ha, hr⟩ := Prod.ext_iff.mp h
  have := congrArg BitVec.toNat <| add_left_cancel ha
  rw [BitVec.toNat_ofNat, BitVec.toNat_ofNat, Nat.mod_eq_of_lt (by omega), Nat.mod_eq_of_lt (by omega)] at this
  exact (Nat.div_add_mod j 8).symm.trans <| by rw [this, show j % 8 = k % 8 from hr, Nat.div_add_mod]

theorem bitAt_store_of_eq (hj : j < 64) : bitAt (m.store a 8 x) (location a j) = x.getLsbD j := by
  have hi : (a + BitVec.ofNat 64 (j / 8) - a).toNat = j / 8 := Memory.toNat_add_ofNat_sub (by omega)
  rw [bitAt, location, Memory.store_of_mem (by rw [Memory.mem_region, hi]; omega), hi, BitVec.getLsbD_extractLsb',
    Nat.div_add_mod, decide_eq_true (Nat.mod_lt j (by decide)), Bool.true_and]

theorem bitAt_store_of_ne (hl : l.snd < 8) (h : ∀ j < 64, l ≠ location a j) :
    bitAt (m.store a 8 x) l = bitAt m l := by
  rw [bitAt, Memory.store_of_not_mem fun hm => ?_, bitAt]
  have ⟨i, hi, he⟩ := (Memory.mem_region_iff (by decide)).mp hm
  refine h (8 * i + l.snd) (by omega) <| Prod.ext ?_ ?_
  case _ => rw [location, show (8 * i + l.snd) / 8 = i by omega, he]
  case _ => exact (by omega : l.snd = (8 * i + l.snd) % 8)

end Stores

section Poke

variable {l : BitVec 64 × Nat}

-- The mask for offset 31 has ones above that offset as well.
theorem getLsbD_mask : ∀ i < 32, ∀ j < 64,
    ((1#32 <<< i).signExtend 64).getLsbD j = decide (j = i ∨ i = 31 ∧ 31 < j) := by
  decide +kernel

-- The word that is written back.
def merge (x v : BitVec 64) (i : Nat) : BitVec 64 :=
  (x &&& ~~~(1#32 <<< i).signExtend 64) ||| ((v &&& 1) <<< i)

theorem getLsbD_low {i : Nat} : (v &&& 1).getLsbD i = (decide (i = 0) && v.getLsbD 0) := by
  change (v &&& 1#64).getLsbD i = _
  rw [BitVec.getLsbD_and, BitVec.getLsbD_one]
  by_cases h : i = 0
  case pos => simp [h]
  case neg => simp [h]

theorem getLsbD_merge {x : BitVec 64} {i : Nat} (hi : i < 32) (hj : j < 64) : (merge x v i).getLsbD j =
    if j = i then v.getLsbD 0 else if i = 31 ∧ 31 < j then false else x.getLsbD j := by
  rw [merge, BitVec.getLsbD_or, BitVec.getLsbD_and, BitVec.getLsbD_not, getLsbD_mask i hi j hj,
    BitVec.getLsbD_shiftLeft, getLsbD_low, decide_eq_true hj, Bool.true_and, Bool.true_and]
  by_cases h : j = i
  case pos => simp [h]
  case neg =>
    have hs : (!decide (j < i) && (decide (j - i = 0) && v.getLsbD 0)) = false := by grind
    rw [hs, Bool.or_false, if_neg h]
    by_cases hm : i = 31 ∧ 31 < j
    case pos => simp [hm]
    case neg => simp [h, hm]

theorem pinPoke_eq (hi : (pinArray p).bitOffset < 32) : pinPoke pinArray m p v = some (
    if (pinArray p).vectorLen = 1 then m.store (pinArray p).ptr 1 (v &&& 1)
    else m.store (pinArray p).ptr 8 (merge (load64 m (pinArray p).ptr) v (pinArray p).bitOffset)) := by
  rw [pinPoke, mask, if_pos hi]
  exact (apply_ite some _ _ _).symm

theorem pinPoke_eq_none (hb : (pinArray p).Bound) (hi : ¬(pinArray p).bitOffset < 32) :
    pinPoke pinArray m p v = none := by
  have := hb.offset
  rw [pinPoke, mask, if_neg hi, if_neg (by omega)]
  rfl

theorem offset_lt_of_some (hb : (pinArray p).Bound) (h : pinPoke pinArray m p v = some m') :
    (pinArray p).bitOffset < 32 := by
  by_contra hi
  rw [pinPoke_eq_none hb hi] at h
  cases h

theorem bitAt_pinPoke_self (hb : (pinArray p).Bound) (h : pinPoke pinArray m p v = some m') :
    bitAt m' (pinArray p).location = v.getLsbD 0 := by
  have hi := offset_lt_of_some hb h
  have ho := hb.offset
  rw [pinPoke_eq hi, Option.some_inj] at h
  subst h
  by_cases h1 : (pinArray p).vectorLen = 1
  case neg => rw [if_neg h1, PinNode.location, bitAt_store_of_eq (by omega), getLsbD_merge hi (by omega), if_pos rfl]
  case pos =>
    rw [if_pos h1, PinNode.location, show (pinArray p).bitOffset = 0 by omega, bitAt, location, BitVec.add_zero,
      Memory.store_of_mem (by simp [Memory.mem_region])]
    simp

-- The bits from 32 on of the word at the address of a signal.
def PinNode.Beyond (p : PinNode) (l : BitVec 64 × Nat) : Prop :=
  ∃ j, 31 < j ∧ j < 64 ∧ l = Nvboard.location p.ptr j

theorem beyond_location (hj : j < 64) {p : PinNode} : p.Beyond (Nvboard.location p.ptr j) ↔ 31 < j := by
  constructor
  case mp =>
    intro ⟨k, hk, hk', he⟩
    rwa [location_injective hj hk' he]
  case mpr => exact fun h => ⟨j, h, hj, rfl⟩

theorem bitAt_pinPoke_other (hb : (pinArray p).Bound) (h : pinPoke pinArray m p v = some m') (hl : l.snd < 8)
    (hn : l ≠ (pinArray p).location) (ha : (pinArray p).vectorLen = 1 → l.fst ≠ (pinArray p).ptr) :
    bitAt m' l = true ↔ bitAt m l = true ∧ ¬((pinArray p).bitOffset = 31 ∧ (pinArray p).Beyond l) := by
  have hi := offset_lt_of_some hb h
  have ho := hb.offset
  rw [pinPoke_eq hi, Option.some_inj] at h
  subst h
  by_cases h1 : (pinArray p).vectorLen = 1
  case pos =>
    have hm : l.fst ∉ Memory.region (pinArray p).ptr 1 := fun hm => by
      have ⟨i, hi, he⟩ := (Memory.mem_region_iff (by decide)).mp hm
      rw [Nat.lt_one_iff.mp hi, BitVec.add_zero] at he
      exact ha h1 he
    rw [if_pos h1, bitAt, Memory.store_of_not_mem hm, bitAt]
    exact (and_iff_left fun hc => by omega).symm
  case neg =>
    rw [if_neg h1]
    by_cases hj : ∃ j < 64, l = location (pinArray p).ptr j
    case pos =>
      obtain ⟨j, hj, rfl⟩ := hj
      have hji : j ≠ (pinArray p).bitOffset := fun he => hn <| by rw [he]; rfl
      rw [bitAt_store_of_eq hj, getLsbD_merge hi hj, if_neg hji, getLsbD_load64 hj, beyond_location hj]
      split
      case isTrue hc => simp [hc]
      case isFalse hc => simp [hc]
    case neg =>
      have hs j (hj' : j < 64) : l ≠ location (pinArray p).ptr j := fun he => hj ⟨j, hj', he⟩
      rw [bitAt_store_of_ne hl hs]
      exact (and_iff_left fun ⟨_, j, _, hj', he⟩ => hs j hj' he).symm

end Poke

end Nodes

section Binding

open Assign (assign)

-- `nvboard_bind_pin(signal, pins.length, pins…)`
structure Call where
  signal : BitVec 64
  pins   : List Pin

def bindAll (pinArray : PinArray) (calls : List Call) : Option PinArray :=
  calls.foldlM (fun pinArray c => nvboardBindPin pinArray c.signal c.pins) pinArray

-- The bytes that hold the bits of the signal.
def Call.storage (c : Call) : Set (BitVec 64) :=
  Memory.region c.signal ((c.pins.length + 7) / 8)

-- The node of the pin that is listed at `i`. The last one is bit 0.
def Call.node (c : Call) (i : Nat) : PinNode where
  ptr       := c.signal
  vectorLen := c.pins.length
  bitOffset := c.pins.length - 1 - i

def Call.nodes (c : Call) : List (Pin × PinNode) :=
  c.pins.zipIdx.map fun x => (x.fst, c.node x.snd)

-- Distinct pins are bound to distinct signals of 1 to 63 bits.
structure Wiring where
  calls   : List Call
  length  : ∀ c ∈ calls, 1 ≤ c.pins.length ∧ c.pins.length ≤ 63
  pins    : (calls.flatMap (·.pins)).Nodup
  signals : calls.Pairwise fun c d => Disjoint c.storage d.storage

variable {c : Call} {calls : List Call}

theorem nvboardBindPin_eq (h : c.pins.length < 64) :
    nvboardBindPin pinArray c.signal c.pins = some (assign pinArray c.nodes) := by
  rw [nvboardBindPin, Call.nodes, assign, List.foldl_map]
  exact if_pos h

theorem bindAll_eq (h : ∀ c ∈ calls, c.pins.length < 64) :
    bindAll pinArray calls = some (assign pinArray (calls.flatMap (·.nodes))) := by
  induction calls generalizing pinArray
  case nil => rfl
  case cons c calls hi =>
    have ⟨hc, hs⟩ := List.forall_mem_cons.mp h
    rw [bindAll, List.foldlM_cons, nvboardBindPin_eq hc, List.flatMap_cons, Assign.assign_append]
    exact hi hs

theorem map_fst_nodes : c.nodes.map (·.fst) = c.pins := by
  rw [Call.nodes, List.map_map]
  exact List.zipIdx_map_fst 0 c.pins

theorem map_fst_flatMap_nodes : (calls.flatMap (·.nodes)).map (·.fst) = calls.flatMap (·.pins) := by
  rw [List.map_flatMap]
  exact List.flatMap_congr fun c _ => map_fst_nodes

def Wiring.bound (w : Wiring) : List Pin :=
  w.calls.flatMap (·.pins)

variable {w : Wiring} {i : Nat}

-- What holds of the nodes after the calls, for any pins that were bound before.
structure Wired (w : Wiring) (pinArray : PinArray) : Prop where
  node : ∀ c ∈ w.calls, ∀ i p, c.pins[i]? = some p → pinArray p = c.node i

theorem Wiring.wired (w : Wiring) : Wired w (assign pinArray (w.calls.flatMap (·.nodes))) where
  node c hc i p hp := by
    refine Assign.assign_of_mem (by rw [map_fst_flatMap_nodes]; exact w.pins) ?_
    refine List.mem_flatMap.mpr ⟨c, hc, List.mem_map.mpr ⟨(p, i), ?_, rfl⟩⟩
    exact List.mk_mem_zipIdx_iff_getElem?.mpr hp

theorem Wiring.exists_call (h : p ∈ w.bound) : ∃ c ∈ w.calls, ∃ i : Nat, c.pins[i]? = some p := by
  have ⟨c, hc, hp⟩ := List.mem_flatMap.mp h
  exact ⟨c, hc, List.mem_iff_getElem?.mp hp⟩

theorem Call.lt_of_getElem? (h : c.pins[i]? = some p) : i < c.pins.length :=
  (List.getElem?_eq_some_iff.mp h).fst

theorem Wired.bound (hw : Wired w pinArray) (h : p ∈ w.bound) : (pinArray p).Bound := by
  have ⟨c, hc, i, hi⟩ := Wiring.exists_call h
  have hl := w.length c hc
  have := c.lt_of_getElem? hi
  rw [hw.node c hc i p hi]
  exact ⟨(by omega : c.pins.length - 1 - i < c.pins.length), (by omega : c.pins.length < 64)⟩

-- The bits of a signal are in its storage.
theorem Call.location_mem (hc : c.pins.length < 64) (hi : i < c.pins.length) : (c.node i).location.fst ∈ c.storage := by
  refine (Memory.mem_region_iff (by omega)).mpr ⟨(c.pins.length - 1 - i) / 8, by omega, rfl⟩

theorem Call.signal_mem (h : 1 ≤ c.pins.length) : c.signal ∈ c.storage := by
  rw [storage, Memory.mem_region]
  simp
  omega

theorem Wired.separate (hw : Wired w pinArray) (hp : p ∈ w.bound) (hq : q ∈ w.bound) (hn : q ≠ p) :
    (pinArray q).location ≠ (pinArray p).location ∧
    ((pinArray p).vectorLen = 1 → (pinArray q).location.fst ≠ (pinArray p).ptr) := by
  have ⟨c, hc, i, hi⟩ := Wiring.exists_call hp
  have ⟨d, hd, j, hj⟩ := Wiring.exists_call hq
  have hcl := w.length c hc
  have hdl := w.length d hd
  have hil := c.lt_of_getElem? hi
  have hjl := d.lt_of_getElem? hj
  rw [hw.node c hc i p hi, hw.node d hd j q hj]
  by_cases he : d = c
  case pos =>
    subst he
    have hij : j ≠ i := fun he => hn <| Option.some_inj.mp <| by rw [← hi, ← hj, he]
    refine ⟨fun hl => ?_, fun h1 => ?_⟩
    case refine_1 =>
      have : d.pins.length - 1 - j = d.pins.length - 1 - i := location_injective (by omega) (by omega) hl
      omega
    case refine_2 =>
      have h1 : d.pins.length = 1 := h1
      omega
  case neg =>
    have : Std.Symm fun c d : Call => Disjoint c.storage d.storage := ⟨fun _ _ h => h.symm⟩
    have hs : Disjoint d.storage c.storage := w.signals.forall hd hc he
    have hm := d.location_mem (by omega) hjl
    refine ⟨fun hl => ?_, fun _ ha => ?_⟩
    case refine_1 => exact Set.disjoint_left.mp hs hm <| by rw [hl]; exact c.location_mem (by omega) hil
    case refine_2 => exact Set.disjoint_left.mp hs hm <| by rw [ha]; exact c.signal_mem hcl.left

end Binding

section Runs

open Assign (assign)

variable {w : Wiring} {ps : List (Pin × BitVec 64)}

def pokes (pinArray : PinArray) (m : Memory 64) (ps : List (Pin × BitVec 64)) : Option (Memory 64) :=
  ps.foldlM (fun m p => pinPoke pinArray m p.fst p.snd) m

-- The values of independent bits after assignments of the low bits.
def lows (ps : List (Pin × BitVec 64)) : List (Pin × Byte) :=
  ps.map fun p => (p.fst, byteOf (p.snd.getLsbD 0))

-- At any time the pins have the values of independent bits that the low bits of the values have been assigned to.
def Independent (w : Wiring) (pinArray : PinArray) (m : Memory 64) (ps : List (Pin × BitVec 64)) : Prop :=
  ∀ qs, qs <+: ps → ∃ m', pokes pinArray m qs = some m' ∧
    ∀ q ∈ w.bound, pinPeek pinArray m' q = assign (pinPeek pinArray m) (lows qs) q

-- The offset is below 31, or it is 31 and no bit that the mask clears besides is set.
def Harmless (w : Wiring) (pinArray : PinArray) (m : Memory 64) (p : Pin) : Prop :=
  (pinArray p).bitOffset < 31 ∨ (pinArray p).bitOffset = 31 ∧
    ∀ q ∈ w.bound, (pinArray p).Beyond (pinArray q).location → bitAt m (pinArray q).location = false

theorem byteOf_injective : Function.Injective byteOf := by
  decide

-- Another pin keeps its value unless the mask clears it.
theorem pinPeek_pinPoke_other (hw : Wired w pinArray) (hp : p ∈ w.bound) (hq : q ∈ w.bound) (hn : q ≠ p)
    (hm : pinPoke pinArray m p v = some m') : pinPeek pinArray m' q = pinPeek pinArray m q ↔
      ¬((pinArray p).bitOffset = 31 ∧ (pinArray p).Beyond (pinArray q).location ∧
        bitAt m (pinArray q).location = true) := by
  have ⟨hl, ha⟩ := hw.separate hp hq hn
  have ho := bitAt_pinPoke_other (hw.bound hp) hm (Nat.mod_lt _ (by decide)) hl ha
  rw [pinPeek_eq (hw.bound hq), pinPeek_eq (hw.bound hq), byteOf_injective.eq_iff, Bool.eq_iff_iff, ho]
  tauto

-- The pins after one poke are those of independent bits if and only if the poke is harmless.
theorem pinPoke_harmless_iff (hw : Wired w pinArray) (hp : p ∈ w.bound) :
    (∃ m', pinPoke pinArray m p v = some m' ∧ ∀ q ∈ w.bound,
      pinPeek pinArray m' q = Function.update (pinPeek pinArray m) p (byteOf (v.getLsbD 0)) q) ↔
    Harmless w pinArray m p := by
  have hb := hw.bound hp
  by_cases hi : (pinArray p).bitOffset < 32
  case neg =>
    rw [pinPoke_eq_none hb hi]
    refine iff_of_false (fun ⟨_, h, _⟩ => nomatch h) fun h => ?_
    cases h
    case inl h => omega
    case inr h => omega
  case pos =>
    obtain ⟨m', hm⟩ : ∃ m', pinPoke pinArray m p v = some m' := ⟨_, pinPoke_eq hi⟩
    have hs : pinPeek pinArray m' p = byteOf (v.getLsbD 0) := by
      rw [pinPeek_eq hb, bitAt_pinPoke_self hb hm]
    constructor
    case mp =>
      intro ⟨_, hm', hall⟩
      obtain rfl : m' = _ := Option.some_inj.mp <| hm.symm.trans hm'
      refine or_iff_not_imp_left.mpr fun h31 => ?_
      have he : (pinArray p).bitOffset = 31 := by omega
      refine ⟨he, fun q hq hB => ?_⟩
      have hn : q ≠ p := by
        rintro rfl
        have := (beyond_location (he ▸ by decide)).mp hB
        omega
      have hq' := hall q hq
      rw [Function.update_of_ne hn] at hq'
      have hc := (pinPeek_pinPoke_other hw hp hq hn hm).mp hq'
      rw [← Bool.not_eq_true]
      exact fun h => hc ⟨he, hB, h⟩
    case mpr =>
      intro hh
      refine ⟨m', hm, fun q hq => ?_⟩
      by_cases hn : q = p
      case pos => rw [hn, Function.update_self, hs]
      case neg =>
        rw [Function.update_of_ne hn]
        refine (pinPeek_pinPoke_other hw hp hq hn hm).mpr fun ⟨he, hB, hb⟩ => ?_
        rw [(hh.resolve_left (by omega)).right q hq hB] at hb
        cases hb

theorem pokes_snoc {x : Pin × BitVec 64} :
    pokes pinArray m (ps ++ [x]) = (pokes pinArray m ps).bind fun m => pinPoke pinArray m x.fst x.snd := by
  rw [pokes, List.foldlM_append]
  exact congrArg _ <| funext fun m => by simp

theorem lows_snoc {x : Pin × BitVec 64} : lows (ps ++ [x]) = lows ps ++ [(x.fst, byteOf (x.snd.getLsbD 0))] :=
  List.map_append

theorem independent_snoc {x : Pin × BitVec 64} : Independent w pinArray m (ps ++ [x]) ↔
    Independent w pinArray m ps ∧ ∃ m', pokes pinArray m (ps ++ [x]) = some m' ∧
      ∀ q ∈ w.bound, pinPeek pinArray m' q = assign (pinPeek pinArray m) (lows (ps ++ [x])) q := by
  constructor
  case mp => exact fun h => ⟨fun qs hq => h qs <| hq.trans <| List.prefix_append .., h _ <| List.prefix_refl _⟩
  case mpr =>
    intro ⟨h, hx⟩ qs hq
    cases List.prefix_concat_iff.mp hq
    case inl he => rw [he]; exact hx
    case inr hq => exact h qs hq

theorem update_congr {f g : Pin → Byte} {b : Byte} (h : f q = g q) :
    Function.update f p b q = Function.update g p b q := by
  rw [Function.update_apply, Function.update_apply, h]

-- In every run, the pins are independent bits throughout if and only if each poke is harmless when it is made.
theorem independent_iff (hw : Wired w pinArray) (hp : ∀ p ∈ ps, p.fst ∈ w.bound) :
    Independent w pinArray m ps ↔
      ∀ qs x, qs ++ [x] <+: ps → ∀ m', pokes pinArray m qs = some m' → Harmless w pinArray m' x.fst := by
  induction ps using List.reverseRecOn
  case nil =>
    refine iff_of_true (fun qs hq => ?_) fun qs x hq => ?_
    case _ =>
      rw [List.prefix_nil.mp hq]
      exact ⟨m, rfl, fun q _ => rfl⟩
    case _ => simp at hq
  case append_singleton ps x hi =>
    have hi := hi fun p hp' => hp p <| List.mem_append_left _ hp'
    have hx : x.fst ∈ w.bound := hp x <| List.mem_append_right _ <| List.mem_singleton_self x
    rw [independent_snoc]
    constructor
    case mp =>
      intro ⟨h, m', hm', hv'⟩ qs y hq m₁ hm₁
      cases List.prefix_concat_iff.mp hq
      case inr hq => exact hi.mp h qs y hq m₁ hm₁
      case inl he =>
        have ⟨hqs, hy⟩ := List.append_inj' he rfl
        obtain rfl := List.singleton_inj.mp hy
        subst hqs
        have ⟨_, hm₁', hv₁⟩ := h qs (List.prefix_refl _)
        obtain rfl := Option.some_inj.mp <| hm₁.symm.trans hm₁'
        rw [pokes_snoc, hm₁, Option.bind_some] at hm'
        refine (pinPoke_harmless_iff hw hx).mp ⟨m', hm', fun q hq => ?_⟩
        rw [hv' q hq, lows_snoc, Assign.assign_snoc, update_congr (hv₁ q hq)]
    case mpr =>
      intro h
      have hps : Independent w pinArray m ps := hi.mpr fun qs y hq => h qs y <| hq.trans <| List.prefix_append ..
      have ⟨m₁, hm₁, hv₁⟩ := hps ps (List.prefix_refl _)
      have ⟨m', hm', hv'⟩ := (pinPoke_harmless_iff (v := x.snd) hw hx).mpr <| h ps x (List.prefix_refl _) m₁ hm₁
      refine ⟨hps, m', by rw [pokes_snoc, hm₁, Option.bind_some, hm'], fun q hq => ?_⟩
      rw [hv' q hq, lows_snoc, Assign.assign_snoc, update_congr (hv₁ q hq)]

-- The pins of a signal read its bits, the last one bit 0, and they are independent bits in exactly those runs in
-- which each poke finds a harmless state.
theorem pins_independent_iff (w : Wiring) (before : PinArray) : ∃ pinArray, bindAll before w.calls = some pinArray ∧
    (∀ c ∈ w.calls, ∀ (i : Nat) p, c.pins[i]? = some p → ∀ m,
      pinPeek pinArray m p = byteOf (bitAt m (location c.signal (c.pins.length - 1 - i)))) ∧
    ∀ m ps, (∀ p ∈ ps, p.fst ∈ w.bound) →
      (Independent w pinArray m ps ↔
        ∀ qs x, qs ++ [x] <+: ps → ∀ m', pokes pinArray m qs = some m' → Harmless w pinArray m' x.fst) := by
  refine ⟨_, bindAll_eq fun c hc => Nat.lt_succ_of_le (w.length c hc).right, fun c hc i p hp m => ?_,
    fun m ps hp => independent_iff w.wired hp⟩
  have hb : p ∈ w.bound := List.mem_flatMap.mpr ⟨c, hc, List.mem_of_getElem? hp⟩
  rw [pinPeek_eq (w.wired.bound hb), w.wired.node c hc i p hp]
  rfl

-- A signal of 33 bits, and one of a single bit.
def twoSignals : Wiring where
  calls   := [⟨0, (List.finRange NR_PINS).take 33⟩, ⟨8, [33]⟩]
  length  := by decide
  pins    := by decide
  signals := List.pairwise_pair.mpr <| Memory.disjoint_region (by decide) (by decide)

def unbound : PinArray :=
  fun _ => { ptr := 0, vectorLen := 0, bitOffset := 0 }

def twoNodes : PinArray :=
  assign unbound (twoSignals.calls.flatMap (·.nodes))

-- Only bit 32 is cleared besides bit 31.
theorem twoNodes_beyond : ∀ q ∈ twoSignals.bound, ∀ j < 64, 31 < j → (twoNodes q).location = location 0 j → q = 0 := by
  decide +kernel

theorem twoNodes_harmless (h : bitAt m (location 0 32) = false) : Harmless twoSignals twoNodes m 1 := by
  refine .inr ⟨by decide, fun q hq ⟨j, hj, hj', hl⟩ => ?_⟩
  rw [twoNodes_beyond q hq j hj' hj hl]
  exact h

-- Pin 32 is bit 0 of the long signal and pin 1 is bit 31 of it, pin 33 is the short one.
def fourPokes : List (Pin × BitVec 64) :=
  [(32, 1), (1, 3), (33, 1), (1, 0)]

-- Bit 32 is not set at any time.
theorem fourPokes_bit : ∀ k < 4,
    (pokes twoNodes (fun _ => 0) (fourPokes.take k)).map (bitAt · (location 0 32)) = some false := by
  decide +kernel

theorem fourPokes_bound : ∀ x ∈ fourPokes, x.fst ∈ twoSignals.bound :=
  List.forall_mem_map.mp <| by decide +kernel

theorem fourPokes_offset : ∀ x ∈ fourPokes, (twoNodes x.fst).bitOffset < 31 ∨ x.fst = 1 :=
  List.forall_mem_map (P := fun p => (twoNodes p).bitOffset < 31 ∨ p = 1).mp <| by decide +kernel

theorem fourPokes_harmless {qs : List (Pin × BitVec 64)} {x : Pin × BitVec 64} (h : qs ++ [x] <+: fourPokes)
    (hm : pokes twoNodes (fun _ => 0) qs = some m) : Harmless twoSignals twoNodes m x.fst := by
  have ⟨rs, hr⟩ := h
  have hk : qs.length < 4 := by
    have := h.length_le
    simp [fourPokes] at this
    omega
  have ht : fourPokes.take qs.length = qs := by rw [← hr, List.append_assoc, List.take_left]
  have hx : x ∈ fourPokes := h.subset <| List.mem_append_right _ <| List.mem_singleton_self x
  have hb := fourPokes_bit qs.length hk
  rw [ht, hm, Option.map_some, Option.some_inj] at hb
  cases fourPokes_offset x hx
  case inl h => exact .inl h
  case inr h => exact h ▸ twoNodes_harmless hb

theorem pins_independent_iff_pokes : ∃ pinArray, bindAll unbound twoSignals.calls = some pinArray ∧
    Independent twoSignals pinArray (fun _ => 0) fourPokes := by
  have ⟨pinArray, hb, _, hi⟩ := pins_independent_iff twoSignals unbound
  have he := (bindAll_eq fun c hc => Nat.lt_succ_of_le (twoSignals.length c hc).right).symm.trans hb
  refine ⟨pinArray, hb, (hi _ _ fourPokes_bound).mpr fun qs x hq m hm => ?_⟩
  rw [← Option.some_inj.mp he] at hm ⊢
  exact fourPokes_harmless hq hm

-- A signal of 33 bits, all of them set. Setting bit 31 clears bit 32, and there is no mask for bit 32.
theorem poke_clears_bit :
    let call : Call := { signal := 0, pins := (List.finRange NR_PINS).take 33 }
    let before : PinArray := fun _ => { ptr := 0, vectorLen := 0, bitOffset := 0 }
    let ones : Memory 64 := fun _ => 0xff
    (do
      let pinArray ← bindAll before [call]
      let m ← pinPoke pinArray ones 1 1
      return (pinPeek pinArray ones 0, pinPeek pinArray m 0)) = some (1, 0) ∧
    (do
      let pinArray ← bindAll before [call]
      pinPoke pinArray ones 0 1).isNone := by
  decide +kernel

end Runs

end Nvboard
