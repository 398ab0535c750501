import Ysyx.ExamModule.MuxKeyInternal
import Mathlib.Logic.Equiv.Defs

namespace ExamModule

open Bits (pack orAll)

variable {nrKey keyLen dataLen : Nat}

-- The vector `{key[n-1], data[n-1], …, key[0], data[0]}`.
def lutOf (pairs : Fin nrKey → BitVec keyLen × BitVec dataLen) : BitVec (nrKey * (keyLen + dataLen)) :=
  pack fun i => (pairs i).fst ++ (pairs i).snd

-- All data that a table has under a key.
def stored (pairs : Fin nrKey → BitVec keyLen × BitVec dataLen) (key : BitVec keyLen) : List (BitVec dataLen) :=
  ((List.ofFn pairs).filter (·.fst = key)).map (·.snd)

variable {pairs : Fin nrKey → BitVec keyLen × BitVec dataLen} {key : BitVec keyLen} {i : Fin nrKey}

theorem mem_stored {d : BitVec dataLen} : d ∈ stored pairs key ↔ ∃ i, pairs i = (key, d) := by
  simp only [stored, List.mem_map, List.mem_filter, List.mem_ofFn, decide_eq_true_eq]
  constructor
  case mp =>
    intro ⟨_, ⟨⟨i, hi⟩, hk⟩, hd⟩
    exact ⟨i, hi.trans <| Prod.ext hk hd⟩
  case mpr => exact fun h => ⟨(key, d), ⟨h, rfl⟩, rfl⟩

section Unpacking

theorem pairList_lutOf : pairList (lutOf pairs) i = (pairs i).fst ++ (pairs i).snd :=
  Bits.digit_pack

@[simp] theorem keyList_lutOf : keyList (lutOf pairs) i = (pairs i).fst := by
  rw [keyList, pairList_lutOf, BitVec.extractLsb'_append_eq_left]

@[simp] theorem dataList_lutOf : dataList (lutOf pairs) i = (pairs i).snd := by
  rw [dataList, pairList_lutOf, BitVec.extractLsb'_append_eq_right]

theorem keyList_append_dataList {lut : BitVec (nrKey * (keyLen + dataLen))} {n : Nat} :
    keyList lut n ++ dataList lut n = pairList lut n :=
  BitVec.extractLsb'_append_extractLsb'

-- A pair is determined by its halves, so every vector is the vector of exactly one table.
theorem lutOf_bijective :
    Function.Bijective (lutOf : (Fin nrKey → BitVec keyLen × BitVec dataLen) → _) := by
  refine ⟨fun p q h => funext fun i => ?injective, fun lut => ⟨fun i => (keyList lut i, dataList lut i), ?surjective⟩⟩
  case injective =>
    have hk : keyList (lutOf p) i = keyList (lutOf q) i := by rw [h]
    have hd : dataList (lutOf p) i = dataList (lutOf q) i := by rw [h]
    rw [keyList_lutOf, keyList_lutOf] at hk
    rw [dataList_lutOf, dataList_lutOf] at hd
    exact Prod.ext hk hd
  case surjective =>
    simp only [lutOf, keyList_append_dataList]
    exact Bits.pack_digit

end Unpacking

section Rounds

variable {lut : BitVec (nrKey * (keyLen + dataLen))} {n k : Nat}

theorem hit_rounds : (rounds key lut n).snd = true ↔ ∃ i < n, keyList lut i = key := by
  induction n
  case zero => simp [rounds]
  case succ n hi =>
    rw [rounds, Bool.or_eq_true, hi, beq_iff_eq, Nat.exists_lt_succ_right, @eq_comm _ key]

-- An entry contributes its data if its key is asked for, and nothing otherwise.
theorem getLsbD_gated {b : Bool} {d : BitVec dataLen} :
    (BitVec.fill dataLen b &&& d).getLsbD k = true ↔ b = true ∧ d.getLsbD k = true := by
  rw [BitVec.getLsbD_and, Bool.and_eq_true, BitVec.getLsbD_fill, Bool.and_eq_true, decide_eq_true_eq]
  have := d.lt_of_getLsbD (i := k)
  tauto

theorem lutOut_rounds : (rounds key lut n).fst.getLsbD k = true ↔
    ∃ i < n, keyList lut i = key ∧ (dataList lut i).getLsbD k = true := by
  induction n
  case zero => simp [rounds]
  case succ n hi =>
    rw [rounds, BitVec.getLsbD_or, Bool.or_eq_true, hi, getLsbD_gated, beq_iff_eq, Nat.exists_lt_succ_right,
      @eq_comm _ key]

end Rounds

theorem exists_lt_iff {n : Nat} {P : Nat → Prop} : (∃ i < n, P i) ↔ ∃ i : Fin n, P i :=
  ⟨fun ⟨i, hi, h⟩ => ⟨⟨i, hi⟩, h⟩, fun ⟨i, h⟩ => ⟨i, i.isLt, h⟩⟩

theorem hit_lutOf : (rounds key (lutOf pairs) nrKey).snd = true ↔ ∃ i, (pairs i).fst = key := by
  simp only [hit_rounds, exists_lt_iff, keyList_lutOf]

theorem lutOut_lutOf : (rounds key (lutOf pairs) nrKey).fst = orAll (stored pairs key) := by
  refine BitVec.eq_of_getLsbD_eq fun k _ => Bool.eq_iff_iff.mpr ?_
  simp only [lutOut_rounds, exists_lt_iff, keyList_lutOf, dataList_lutOf, Bits.getLsbD_orAll, mem_stored]
  constructor
  case mp  => exact fun ⟨i, hk, hd⟩ => ⟨_, ⟨i, Prod.ext hk rfl⟩, hd⟩
  case mpr => exact fun ⟨d, ⟨i, hi⟩, hd⟩ => ⟨i, congrArg Prod.fst hi, by rwa [hi]⟩

variable {hasDefault : Int} {defaultOut : BitVec dataLen}

-- The lookup as a function of the table.
theorem muxKeyInternal_lutOf : muxKeyInternal hasDefault key defaultOut (lutOf pairs) =
    if hasDefault ≠ 0 ∧ ∀ i, (pairs i).fst ≠ key then defaultOut else orAll (stored pairs key) := by
  have hh : ((rounds key (lutOf pairs) nrKey).snd = false) = ∀ i, (pairs i).fst ≠ key := by
    rw [← Bool.not_eq_true, hit_lutOf, not_exists]
  change (if hasDefault = 0 then _ else if _ then _ else _) = _
  rw [lutOut_lutOf]
  by_cases hd : hasDefault = 0
  case pos => simp [hd]
  case neg => cases hb : (rounds key (lutOf pairs) nrKey).snd <;> simp [← hh, hb, hd]

theorem stored_of_forall_ne (h : ∀ i, (pairs i).fst ≠ key) : stored pairs key = [] := by
  refine List.eq_nil_iff_forall_not_mem.mpr fun d hd => ?_
  have ⟨i, hi⟩ := mem_stored.mp hd
  exact h i <| congrArg Prod.fst hi

-- With distinct keys there is at most one piece of data under a key.
theorem orAll_stored_of_injective (h : Function.Injective fun i => (pairs i).fst) (hi : (pairs i).fst = key) :
    orAll (stored pairs key) = (pairs i).snd := by
  refine BitVec.eq_of_getLsbD_eq fun k _ => Bool.eq_iff_iff.mpr ?_
  rw [Bits.getLsbD_orAll]
  constructor
  case mp =>
    intro ⟨d, hd, hk⟩
    have ⟨j, hj⟩ := mem_stored.mp hd
    obtain rfl : j = i := h <| by simp [hj, hi]
    rwa [hj]
  case mpr => exact fun hk => ⟨_, mem_stored.mpr ⟨i, Prod.ext hi rfl⟩, hk⟩

theorem muxKeyInternal_of_injective (h : Function.Injective fun i => (pairs i).fst) (hi : (pairs i).fst = key) :
    muxKeyInternal hasDefault key defaultOut (lutOf pairs) = (pairs i).snd := by
  have hn : ¬∀ i, (pairs i).fst ≠ key := fun hn => hn i hi
  rw [muxKeyInternal_lutOf, if_neg fun hc => hn hc.right, orAll_stored_of_injective h hi]

theorem muxKeyInternal_of_exists {d : BitVec dataLen} (h : Function.Injective fun i => (pairs i).fst)
    (hi : ∃ i, pairs i = (key, d)) : muxKeyInternal hasDefault key defaultOut (lutOf pairs) = d := by
  have ⟨i, hi⟩ := hi
  rw [muxKeyInternal_of_injective h (congrArg Prod.fst hi), hi]

-- The order of the pairs does not matter.
theorem mem_stored_comp {σ : Equiv.Perm (Fin nrKey)} {d : BitVec dataLen} :
    d ∈ stored (pairs ∘ σ) key ↔ d ∈ stored pairs key := by
  rw [mem_stored, mem_stored]
  exact (σ.surjective.exists (p := fun i => pairs i = (key, d))).symm

theorem orAll_stored_comp {σ : Equiv.Perm (Fin nrKey)} :
    orAll (stored (pairs ∘ σ) key) = orAll (stored pairs key) := by
  refine BitVec.eq_of_getLsbD_eq fun k _ => Bool.eq_iff_iff.mpr ?_
  simp only [Bits.getLsbD_orAll, mem_stored_comp]

theorem muxKeyInternal_comp {σ : Equiv.Perm (Fin nrKey)} :
    muxKeyInternal hasDefault key defaultOut (lutOf (pairs ∘ σ)) =
    muxKeyInternal hasDefault key defaultOut (lutOf pairs) := by
  have hk : (∀ i, ((pairs ∘ σ) i).fst ≠ key) ↔ ∀ i, (pairs i).fst ≠ key :=
    (σ.surjective.forall (p := fun i => (pairs i).fst ≠ key)).symm
  simp only [muxKeyInternal_lutOf, hk, orAll_stored_comp]

-- Every table of `nrKey` pairs has its own vector, and there are no other vectors. What the module gives
-- for the vector is the data next to the key, where the keys differ, and the or of all data under the key
-- in general; it gives the default where there is none. The order of the pairs is of no importance.
theorem muxKeyInternal_lookup (nrKey keyLen dataLen : Nat) :
    Function.Bijective (lutOf : (Fin nrKey → BitVec keyLen × BitVec dataLen) → _) ∧
    ∀ (hasDefault : Int) (pairs : Fin nrKey → BitVec keyLen × BitVec dataLen) (key : BitVec keyLen)
      (defaultOut : BitVec dataLen), let out := muxKeyInternal hasDefault key defaultOut (lutOf pairs)
      ((Function.Injective fun i => (pairs i).fst) → ∀ i, (pairs i).fst = key → out = (pairs i).snd) ∧
      ((∃ i, (pairs i).fst = key) → out = orAll (stored pairs key)) ∧
      ((∀ i, (pairs i).fst ≠ key) → out = if hasDefault ≠ 0 then defaultOut else 0) ∧
      ∀ σ : Equiv.Perm (Fin nrKey), muxKeyInternal hasDefault key defaultOut (lutOf (pairs ∘ σ)) = out := by
  refine ⟨lutOf_bijective, fun hasDefault pairs key defaultOut => ⟨?data, ?or, ?none, ?order⟩⟩
  case data  => exact fun h _ hi => muxKeyInternal_of_injective h hi
  case order => exact fun _ => muxKeyInternal_comp
  case or =>
    intro ⟨i, hi⟩
    rw [muxKeyInternal_lutOf, if_neg fun h => h.right i hi]
  case none =>
    intro h
    simp only [muxKeyInternal_lutOf, stored_of_forall_ne h, and_iff_left h]
    rfl

end ExamModule
