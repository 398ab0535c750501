import Ysyx.Am.X86.Basic

-- `unprotect` gives the tables of a space back.

namespace Am.X86

open Function (update)

variable {A : Arch}

-- `freed` has the calls of `pgfree`.
structure Freeing (A : Arch) extends State A where
  freed : List (Word A)

section Free

-- What the callback of `vme_init` does.
variable (pgfree : Word A → State A → State A)

def free (base : Word A) (s : Freeing A) : Freeing A where
  toState := pgfree base s.toState
  freed := s.freed ++ [base]

-- No level is left where `level > mmu.ptlevels`.
def teardown : List (PtInfo A) → Nat → Word A → Freeing A → Freeing A
  | [], _, _, s => s
  | ptinfo :: ptinfos, level, pt, s =>
    let s := (List.range (1 <<< ptinfo.bits)).foldl (fun s index =>
      let entry := s.mem pt index
      if entry &&& PTE_P ≠ 0 ∧ entry &&& PTE_U ≠ 0 then teardown ptinfos (level + 1) (baseof entry) s else s) s
    if level ≥ 1 then free pgfree pt s else s

def unprotect (as : Word A) (s : State A) : Freeing A :=
  teardown pgfree (levels A) 0 as { s with freed := [] }

end Free

-- The pages that `pgalloc` has returned between two states.
def taken (s s' : State A) : List (Word A) :=
  s.pool.filter (· ∉ s'.pool)

-- A call for a space takes pages for it. `protect` starts anew.
def Call.own (own : Word A → List (Word A)) (pages : List (Word A)) : Call A → Word A → List (Word A)
  | protect as => update own as pages
  | map as .. => update own as (own as ++ pages)

-- A run with the pages that have been taken for each space since it was protected.
inductive Owns (s₀ : State A) : List (Call A) → State A → (Word A → List (Word A)) → Prop
  | nil : Boot s₀ → Owns s₀ [] s₀ fun _ => []
  | cons {c : Call A} {cs : List (Call A)} {s s' : State A} {own : Word A → List (Word A)} :
    Owns s₀ cs s own → Step s₀ s c s' → Owns s₀ (c :: cs) s' (c.own own (taken s s'))

end Am.X86
