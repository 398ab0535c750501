import Mathlib.Data.Set.BooleanAlgebra
import Mathlib.Order.CompletePartialOrder
import Ysyx.Bytes.LittleEndian

namespace Memory

variable {os : List (Word × List Byte)} {o : Word × List Byte} {n m : Nat}

-- The memory that holds the objects `os` and is zero elsewhere.
def ofObjects (os : List (Word × List Byte)) : Memory 32 :=
  fun x => (os.findSome? fun o => o.snd[(x - o.fst).toNat]?).getD 0

theorem disjoint_region {w : Nat} {a b : BitVec w} (h : a.toNat + n ≤ b.toNat) (hb : b.toNat + m ≤ 2 ^ w) :
    Disjoint (region a n) (region b m) := by
  refine Set.disjoint_left.mpr fun x hx hy => ?_
  have ⟨i, hi, hx⟩ := (mem_region_iff (by omega)).mp hx
  have ⟨j, hj, hy⟩ := (mem_region_iff (by omega)).mp hy
  have := congrArg BitVec.toNat <| hx.symm.trans hy
  rw [BitVec.toNat_add, BitVec.toNat_add, BitVec.toNat_ofNat, BitVec.toNat_ofNat, Nat.add_mod_mod, Nat.add_mod_mod,
    Nat.mod_eq_of_lt (by omega), Nat.mod_eq_of_lt (by omega)] at this
  omega

theorem holds_ofObjects
    (hd : os.Pairwise fun o o' => Disjoint (region o.fst o.snd.length) (region o'.fst o'.snd.length))
    (hl : ∀ o ∈ os, o.snd.length ≤ 2 ^ 32) (ho : o ∈ os) : (ofObjects os).Holds o.fst o.snd := by
  intro i b hb
  have hi : i < o.snd.length := (List.getElem?_eq_some_iff.mp hb).fst
  have hx : (o.fst + BitVec.ofNat 32 i - o.fst).toNat = i :=
    toNat_add_ofNat_sub (Nat.lt_of_lt_of_le hi (hl o ho))
  suffices h : (os.findSome? fun o' => o'.snd[(o.fst + BitVec.ofNat 32 i - o'.fst).toNat]?) = some b by
    rw [ofObjects, h, Option.getD_some]
  induction os
  case nil => contradiction
  case cons o' os hi' =>
    rw [List.pairwise_cons] at hd
    cases List.mem_cons.mp ho
    case inl h => rw [← h, List.findSome?_cons, hx, hb]
    case inr h =>
      have hn : o'.snd[(o.fst + BitVec.ofNat 32 i - o'.fst).toNat]? = none := by
        refine List.getElem?_eq_none (Nat.not_lt.mp fun hc => ?_)
        refine Set.disjoint_left.mp (hd.left o h) hc ?_
        rwa [mem_region, hx]
      simp only [List.findSome?_cons, hn]
      exact hi' hd.right (fun o ho => hl o (List.mem_cons_of_mem _ ho)) h

end Memory
