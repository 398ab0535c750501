import Ysyx.Bytes.LittleEndian
import Ysyx.Hardware.Ring

-- The queue of keys that keyboard drivers share with their readers: a ring with one slot that stays free.

namespace Keys

def KEY_QUEUE_LEN : Nat := 1024

-- The indices stay in the array.
structure Queue where
  key_queue : Nat → Word
  key_f     : Nat
  key_r     : Nat
  key_f_lt  : key_f < KEY_QUEUE_LEN
  key_r_lt  : key_r < KEY_QUEUE_LEN

namespace Queue

def init : Queue where
  key_queue _ := 0
  key_f       := 0
  key_r       := 0
  key_f_lt    := by decide
  key_r_lt    := by decide

-- Writes the slot behind the last key, whether it is free or not.
def put (q : Queue) (key : Word) : Queue :=
  { q with
    key_queue := Function.update q.key_queue q.key_r key
    key_r     := (q.key_r + 1) % KEY_QUEUE_LEN
    key_r_lt  := Nat.mod_lt _ (by decide) }

-- The first key, or `none` (which is also the code 0 of no key).
def take (q : Queue) (none : Word) : Word × Queue :=
  if q.key_f ≠ q.key_r then
    (q.key_queue q.key_f, { q with key_f := (q.key_f + 1) % KEY_QUEUE_LEN, key_f_lt := Nat.mod_lt _ (by decide) })
  else
    (none, q)

-- The keys that have been put in and not been taken out.
def pending (q : Queue) : List Word :=
  Ring.between (fun i : BitVec 10 => q.key_queue i.toNat) (BitVec.ofNat 10 q.key_f) (BitVec.ofNat 10 q.key_r)

section

variable {q : Queue} {key none : Word} {i j : Nat}

theorem index_inj (hi : i < KEY_QUEUE_LEN) (hj : j < KEY_QUEUE_LEN) :
    BitVec.ofNat 10 i = BitVec.ofNat 10 j ↔ i = j := by
  have hi : i % 2 ^ 10 = i := Nat.mod_eq_of_lt hi
  have hj : j % 2 ^ 10 = j := Nat.mod_eq_of_lt hj
  rw [← BitVec.toNat_inj, BitVec.toNat_ofNat, BitVec.toNat_ofNat, hi, hj]

theorem index_succ : BitVec.ofNat 10 ((i + 1) % KEY_QUEUE_LEN) = BitVec.ofNat 10 i + 1 := by
  apply BitVec.eq_of_toNat_eq
  simp [KEY_QUEUE_LEN]

theorem put_slots : (fun i : BitVec 10 => (q.put key).key_queue i.toNat) =
    Function.update (fun i : BitVec 10 => q.key_queue i.toNat) (BitVec.ofNat 10 q.key_r) key := by
  funext i
  have hi : i.toNat = q.key_r ↔ i = BitVec.ofNat 10 q.key_r := by
    rw [← index_inj i.isLt q.key_r_lt, BitVec.ofNat_toNat, BitVec.setWidth_eq]
  simp only [put, Function.update_apply, hi]

theorem put_key_f : (q.put key).key_f = q.key_f := rfl

theorem put_key_r : BitVec.ofNat 10 (q.put key).key_r = BitVec.ofNat 10 q.key_r + 1 :=
  index_succ

theorem pending_init : init.pending = [] := (rfl)

theorem pending_nil_iff : q.pending = [] ↔ q.key_f = q.key_r := by
  rw [pending, Ring.between_eq_nil_iff, index_inj q.key_r_lt q.key_f_lt, eq_comm]

-- The ring is full if the next key would make it look empty.
theorem pending_put (h : (q.put key).key_r ≠ q.key_f) : (q.put key).pending = q.pending ++ [key] := by
  have h : BitVec.ofNat 10 q.key_r + 1 ≠ BitVec.ofNat 10 q.key_f := by
    have hr : BitVec.ofNat 10 (q.put key).key_r = _ := put_key_r
    rw [← hr]
    exact (index_inj (q.put key).key_r_lt q.key_f_lt).not.mpr h
  rw [pending, put_slots, put_key_f, put_key_r, pending, Ring.between_push h]

-- A key too many makes it look empty.
theorem pending_put_full (h : (q.put key).key_r = q.key_f) : (q.put key).pending = [] :=
  pending_nil_iff.mpr h.symm

theorem full_iff : (q.put key).key_r = q.key_f ↔ q.pending.length = KEY_QUEUE_LEN - 1 := by
  have hs : BitVec.ofNat 10 q.key_r + 1 = BitVec.ofNat 10 q.key_f ↔
      BitVec.ofNat 10 q.key_r - BitVec.ofNat 10 q.key_f = 1023 := by
    have h : (1023 : BitVec 10) = -1 := by decide
    rw [h, sub_eq_iff_eq_add, neg_add_eq_sub, eq_sub_iff_add_eq]
  rw [← index_inj (q.put key).key_r_lt q.key_f_lt, put_key_r, pending, Ring.length_between, hs, ← BitVec.toNat_inj]
  rfl

theorem take_of_nil (h : q.pending = []) : q.take none = (none, q) :=
  if_neg (not_not.mpr (pending_nil_iff.mp h))

theorem take_of_cons {keys : List Word} (h : q.pending = key :: keys) :
    ∃ q', q.take none = (key, q') ∧ q'.pending = keys := by
  have hn : q.key_f ≠ q.key_r := fun he => by simp [pending_nil_iff.mpr he] at h
  have hw : BitVec.ofNat 10 q.key_r ≠ BitVec.ofNat 10 q.key_f := (index_inj q.key_r_lt q.key_f_lt).not.mpr hn.symm
  have hf : (BitVec.ofNat 10 q.key_f).toNat = q.key_f := Nat.mod_eq_of_lt q.key_f_lt
  rw [pending, Ring.between_pop hw, ← index_succ, hf] at h
  have ⟨hk, hs⟩ := List.cons.inj h
  exact ⟨{ q with key_f := (q.key_f + 1) % KEY_QUEUE_LEN, key_f_lt := Nat.mod_lt _ (by decide) },
    by rw [take, if_pos hn, hk], hs⟩

theorem take_eq (q : Queue) (none : Word) :
    ∃ q', q.take none = (q.pending.headD none, q') ∧ q'.pending = q.pending.tail := by
  cases h : q.pending
  case nil => exact ⟨q, take_of_nil h, h⟩
  case cons => exact take_of_cons h

end

end Queue
end Keys
