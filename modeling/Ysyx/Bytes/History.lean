import Ysyx.Bytes.LittleEndian

-- What a memory holds after a history of stores. Histories list the last store first.

namespace Memory

open BitVec

structure Store (w : Nat) where
  addr  : BitVec w
  len   : Nat
  value : Word
  deriving DecidableEq, Repr

namespace Store

def region (st : Store w) : Set (BitVec w) :=
  Memory.region st.addr st.len

def byteAt (st : Store w) (x : BitVec w) : Byte :=
  st.value.extractLsb' (8 * (x - st.addr).toNat) 8

instance {st : Store w} : DecidablePred (· ∈ st.region) :=
  fun x => inferInstanceAs <| Decidable ((x - st.addr).toNat < st.len)

end Store

variable {w : Nat} {m m₁ m₂ : Memory w} {st : Store w} {h : List (Store w)} {x a : BitVec w}

-- At each address the byte of the most recent store to it.
def latest (m : Memory w) (h : List (Store w)) : Memory w := fun x =>
  match h.find? (x ∈ ·.region) with
  | some st => st.byteAt x
  | none    => m x

@[simp] theorem latest_nil : m.latest [] = m := (rfl)

@[simp] theorem latest_cons : m.latest (st :: h) = (m.latest h).store st.addr st.len st.value := by
  funext x
  by_cases hx : x ∈ st.region
  case pos =>
    rw [store_of_mem hx]
    simp [latest, hx, Store.byteAt]
  case neg =>
    rw [store_of_not_mem hx]
    simp [latest, hx]

theorem latest_cons_of_not_mem (hx : x ∉ st.region) : m.latest (st :: h) x = m.latest h x := by
  rw [latest_cons, store_of_not_mem hx]

end Memory
