import Mathlib.Data.List.Pairwise
import Ysyx.Am.Native.Basic

-- The keys of the pages, and the loops over the nodes of a space.

namespace Am.Native

open Function (update)
open Linked (Path)

variable {s s' : State} {h h' p q va va' pa fresh : Ptr} {v v' : VMHead} {pp pp' : PageMap} {l l' : List Ptr}
variable {c : Call} {cs : List Call} {n fuel : Nat} {as : AddrSpace} {prot : BitVec 32}

section Keys

theorem digitChar_inj {m n : Nat} (hm : m < 16) (hn : n < 16) (h : m.digitChar = n.digitChar) : m = n := by
  have : ∀ i j : Fin 16, i.val.digitChar = j.val.digitChar → i = j := by decide
  exact congrArg Fin.val (this ⟨m, hm⟩ ⟨n, hn⟩ h)

theorem toDigits_inj {m n : Nat} (h : Nat.toDigits 16 m = Nat.toDigits 16 n) : m = n := by
  induction m using Nat.strongRecOn generalizing n
  case ind m hi =>
    rw [Nat.toDigits_eq_if (by omega), Nat.toDigits_eq_if (n := n) (by omega)] at h
    split at h <;> split at h
    case isTrue.isTrue hm hn => exact digitChar_inj hm hn (List.singleton_inj.mp h)
    case isTrue.isFalse =>
      have := congrArg List.length h
      have := Nat.length_toDigits_pos (b := 16) (n := n / 16)
      simp at *
    case isFalse.isTrue =>
      have := congrArg List.length h
      have := Nat.length_toDigits_pos (b := 16) (n := m / 16)
      simp at *
    case isFalse.isFalse hm hn =>
      have ⟨hd, hr⟩ := List.append_inj' h rfl
      have := hi (m / 16) (by omega) hd
      have := digitChar_inj (by omega) (by omega) (List.singleton_inj.mp hr)
      omega

-- The lower halves of the pages of `USER_SPACE` are different.
theorem snprintf_inj (hr : IN_RANGE va USER_SPACE) (hr' : IN_RANGE va' USER_SPACE)
    (h : snprintf va = snprintf va') : va = va' := by
  have h := toDigits_inj (String.ofList_injective h)
  simp only [IN_RANGE, USER_SPACE, BitVec.le_def, BitVec.lt_def, BitVec.toNat_ofNat] at hr hr'
  simp only [BitVec.toNat_setWidth] at h
  exact BitVec.eq_of_toNat_eq (by omega)

end Keys

section Loops

variable {b : Bool} {g : Ptr → Option Mapping} {body : Ptr → State → Option State} {R : PageMap → Prop}

theorem mem_nodes : pp ∈ s.nodes l ↔ ∃ p ∈ l, s.pages p = some pp :=
  List.mem_filterMap

theorem page_of_next (h : s.next p = some q) : ∃ pp : PageMap, s.pages p = some pp ∧ pp.next = q :=
  Option.map_eq_some_iff.mp h

def State.vas (s : State) (l : List Ptr) : List Ptr :=
  (s.nodes l).map PageMap.va

theorem mem_vas : va ∈ s.vas l ↔ ∃ p ∈ l, ∃ pp, s.pages p = some pp ∧ pp.va = va := by
  simp only [State.vas, List.mem_map, mem_nodes]
  constructor
  case mp => exact fun ⟨pp, ⟨p, hp, hpp⟩, h⟩ => ⟨p, hp, pp, hpp, h⟩
  case mpr => exact fun ⟨p, hp, pp, hpp, h⟩ => ⟨pp, ⟨p, hp, hpp⟩, h⟩

-- The state behind a loop over the nodes of `l`.
def State.put (b : Bool) (g : Ptr → Option Mapping) (l : List Ptr) (s : State) : State :=
  { s with
    pages := fun q => if q ∈ l then (s.pages q).map fun pp => { pp with is_mapped := b } else s.pages q
    host := fun va => if va ∈ s.vas l then g va else s.host va }

@[simp]
theorem put_nil : s.put b g [] = s := (rfl)

@[simp]
theorem put_heads : (s.put b g l).heads = s.heads := (rfl)

theorem put_host : (s.put b g l).host va = if va ∈ s.vas l then g va else s.host va := (rfl)

theorem put_page (h : s.pages p = some pp) :
    (s.put b g l).pages p = some { pp with is_mapped := if p ∈ l then b else pp.is_mapped } := by
  simp only [State.put, h]
  split <;> rfl

theorem put_page_none (h : s.pages p = none) : (s.put b g l).pages p = none := by
  simp [State.put, h]

@[simp]
theorem put_next : (s.put b g l).next = s.next := by
  funext p
  cases h : s.pages p
  case none => simp [State.next, put_page_none h, h]
  case some => simp [State.next, put_page h, h]

@[simp]
theorem put_vas : (s.put b g l).vas l' = s.vas l' := by
  induction l'
  case nil => rfl
  case cons p l' hi =>
    cases h : s.pages p
    case none => simpa [State.vas, State.nodes, h, put_page_none h] using hi
    case some => simpa [State.vas, State.nodes, h, put_page h] using hi

theorem mem_vas_cons : va ∈ s.vas (p :: l) ↔ va ∈ s.vas [p] ∨ va ∈ s.vas l := by
  simp only [mem_vas, List.mem_cons, List.not_mem_nil, or_false, exists_eq_left, or_and_right, exists_or]

theorem put_cons : (s.put b g [p]).put b g l = s.put b g (p :: l) := by
  refine State.ext ?pages rfl rfl ?host rfl
  case pages =>
    funext q
    cases hq : s.pages q
    case none => simp only [put_page_none, hq]
    case some =>
      rw [put_page (put_page hq), put_page hq]
      by_cases he : q = p <;> simp [he]
  case host =>
    funext va
    simp only [put_host, put_vas, mem_vas_cons (l := l)]
    by_cases h : va ∈ s.vas [p] <;> simp [h]

-- A loop over a list that ends, whose body does what `put` does at each node.
theorem list_foreach_put (hn : s.pages NULL = none) (h : Path s.next p l NULL)
    (hl : ∀ q ∈ l, ∀ pp, s.pages q = some pp → R pp)
    (hb : ∀ (s : State) q pp, s.pages q = some pp → R pp → body q s = some (s.put b g [q])) :
    list_foreach body fuel p s = if l.length < fuel then some (s.put b g l) else none := by
  have hd : l.Nodup := h.nodup (by simp [State.next, hn])
  induction l generalizing s p fuel
  case nil => cases h; cases fuel <;> rfl
  case cons q l hi =>
    cases h
    case cons hp h =>
      have ⟨hm, hd⟩ := List.nodup_cons.mp hd
      have ⟨pp, hpp, _⟩ := page_of_next hp
      cases fuel
      case zero => rfl
      case succ fuel =>
        have hne : q ≠ NULL := fun he => by rw [he, hn] at hpp; cases hpp
        have hs := hb s q pp hpp (hl q List.mem_cons_self pp hpp)
        rw [list_foreach, if_neg hne, hs, Option.bind_eq_bind, Option.bind_some, put_next, hp, Option.bind_eq_bind,
          Option.bind_some, ← put_cons (l := l)]
        simp only [List.length_cons, Nat.add_lt_add_iff_right]
        refine hi (s := s.put b g [q]) (put_page_none hn) (by rwa [put_next]) ?_ hd
        intro r hr pp hp
        have : r ≠ q := fun he => hm (he ▸ hr)
        exact hl r (List.mem_cons_of_mem _ hr) pp (by simpa [State.put, this] using hp)

theorem vas_singleton (h : s.pages p = some pp) : s.vas [p] = [pp.va] := by
  simp [State.vas, State.nodes, h]

theorem put_singleton (h : s.pages p = some pp) :
    s.put b g [p] = { s.setPage p { pp with is_mapped := b } with host := update s.host pp.va (g pp.va) } := by
  refine State.ext ?pages rfl rfl ?host rfl
  case pages =>
    funext q
    by_cases he : q = p
    case pos => rw [he, put_page h]; simp [State.setPage]
    case neg => simp [State.put, State.setPage, he]
  case host =>
    funext va
    rw [put_host, vas_singleton h]
    by_cases he : va = pp.va <;> simp [he]

theorem unmapPage_put (h : s.pages p = some pp) (hm : pp.is_mapped) :
    unmapPage p s = some (s.put false (fun _ => none) [p]) := by
  rw [unmapPage, h, put_singleton h, Option.bind_eq_bind, Option.bind_some, if_pos hm]
  rfl

theorem mapPage_put (h : s.pages p = some pp) (hr : IN_RANGE pp.va USER_SPACE)
    (hg : g pp.va = some (mapping pp.pa pp.prot)) : mapPage p s = some (s.put true g [p]) := by
  rw [mapPage, h, put_singleton h, Option.bind_eq_bind, Option.bind_some, if_pos hr, hg]
  rfl

end Loops

end Am.Native
