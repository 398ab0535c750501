import Mathlib.Tactic.Abel
import Ysyx.Nemu.Theorems.Paddr

-- The physical memory as the guest sees it.

namespace Nemu

variable {D : Type} {env : Env D} {st : State D} {addr data : Word}

namespace Env

def guest (env : Env D) (host : Memory 64) : Memory 32 :=
  fun a => host (env.guest_to_host a)

-- Accesses to the physical memory.

theorem paddr_read_byte (h : env.in_pmem addr = true) :
    env.paddr_read addr 1 st = .ok ((env.guest st.host addr).setWidth 32) st := by
  simp only [paddr_read, h, if_true]
  rfl

theorem paddr_read_word (h : env.in_pmem addr = true) :
    env.paddr_read addr 4 st = .ok (st.host.load32 (env.guest_to_host addr)) st := by
  simp only [paddr_read, h, if_true]
  rfl

theorem paddr_write_byte (h : env.in_pmem addr = true) : env.paddr_write addr 1 data st =
    .ok () { st with host := st.host.store (env.guest_to_host addr) 1 data } := by
  simp only [paddr_write, h, if_true]
  rfl

theorem guest_to_host_inj : Function.Injective env.guest_to_host := by
  intro a b h
  have h : a.setWidth 64 = b.setWidth 64 := add_left_cancel (sub_left_injective h)
  simpa using congrArg (BitVec.setWidth 32) h

theorem guest_to_host_add {i : Nat} (h : addr.toNat + i < 2 ^ 32) :
    env.guest_to_host (addr + BitVec.ofNat 32 i) = env.guest_to_host addr + BitVec.ofNat 64 i := by
  have hs : (addr + BitVec.ofNat 32 i).setWidth 64 = addr.setWidth 64 + BitVec.ofNat 64 i := by
    apply BitVec.eq_of_toNat_eq
    simp only [BitVec.toNat_setWidth, BitVec.toNat_add, BitVec.toNat_ofNat]
    omega
  rw [guest_to_host, guest_to_host, hs]
  abel

-- The words that do not reach over the end of the address space.
theorem load32_guest {host : Memory 64} (h : addr.toNat + 4 ≤ 2 ^ 32) :
    (env.guest host).load32 addr = host.load32 (env.guest_to_host addr) := by
  refine BitVec.ofBytes_congr fun i hi => ?_
  exact congrArg host (guest_to_host_add (by omega))

theorem guest_store {host : Memory 64} (data : Word) :
    env.guest (host.store (env.guest_to_host addr) 1 data) = (env.guest host).store addr 1 data := by
  funext a
  rw [guest, Memory.store_one, Memory.store_one, Function.update_apply, Function.update_apply]
  simp only [guest_to_host_inj.eq_iff]
  rfl

theorem InPmem.in_pmem (h : env.InPmem addr.toNat) : env.in_pmem addr = true := by
  have hs := env.pos
  have ⟨h₁, h₂⟩ := h
  exact in_pmem_iff.mpr ⟨h₁, by omega⟩

-- A word that lies in the physical memory.
theorem paddr_read_load32 (h : ∀ i < 4, env.InPmem (addr.toNat + i)) :
    env.paddr_read addr 4 st = .ok ((env.guest st.host).load32 addr) st := by
  have hf := env.fits
  have hs := env.pos
  have ⟨_, h₃⟩ := h 3 (by decide)
  rw [paddr_read_word (h 0 (by decide)).in_pmem, load32_guest (by omega)]

end Env
end Nemu
