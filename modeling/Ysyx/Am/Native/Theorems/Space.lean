import Ysyx.Am.Native.Theorems.Loop

-- The lists of the address spaces, and the pages that are mapped in the host.

namespace Am.Native

open Function (update)
open Linked (Path)

variable {s s' : State} {h h' p q va va' pa fresh : Ptr} {v v' : VMHead} {pp pp' : PageMap} {l l' : List Ptr}
variable {c : Call} {cs : List Call} {n fuel : Nat} {as : AddrSpace} {prot : BitVec 32}

-- The lists `ls` of the spaces `sp`.
structure Inv (sp : Spaces) (ls : Ptr → List Ptr) (s : State) : Prop where
  enabled : s.vme_enable
  null_page : s.pages NULL = none
  null_head : s.heads NULL = none
  current : s.vm_head = NULL ∨ s.heads s.vm_head ≠ none
  path : ∀ {h v}, s.heads h = some v → Path s.next v.head (ls h) NULL
  head : ∀ {h}, s.heads h = none → ls h = []
  node : ∀ {h v p}, s.heads h = some v → p ∈ ls h → ∃ pp, s.pages p = some pp ∧ IN_RANGE pp.va USER_SPACE ∧
    v.hash (snprintf pp.va) = some p ∧ sp h pp.va = some (pp.pa, pp.prot) ∧ pp.is_mapped = decide (h = s.vm_head)
  found : ∀ {h v va p}, s.heads h = some v → IN_RANGE va USER_SPACE → v.hash (snprintf va) = some p →
    p ∈ ls h ∧ ∃ pp, s.pages p = some pp ∧ pp.va = va
  listed : ∀ {h va x}, sp h va = some x →
    IN_RANGE va USER_SPACE ∧ ∃ v, s.heads h = some v ∧ v.hash (snprintf va) ≠ none
  disjoint : ∀ {h h' p}, p ∈ ls h → p ∈ ls h' → h = h'
  host : Shows s (sp s.vm_head)

section Invariant

variable {sp : Spaces} {ls : Ptr → List Ptr}

theorem inv_init : Inv (fun _ _ => none) (fun _ => []) (vme_init State.init) where
  enabled := rfl
  null_page := rfl
  null_head := rfl
  current := .inl rfl
  path h := by cases h
  head _ := rfl
  node h := by cases h
  found h := by cases h
  listed h := by cases h
  disjoint h := by cases h
  host _ := rfl

-- A node that is found by a space and its list.
theorem Inv.node_eq (i : Inv sp ls s) (hv : s.heads h = some v) (hp : p ∈ ls h) (hpp : s.pages p = some pp) :
    IN_RANGE pp.va USER_SPACE ∧ v.hash (snprintf pp.va) = some p ∧ sp h pp.va = some (pp.pa, pp.prot) ∧
    pp.is_mapped = decide (h = s.vm_head) := by
  have ⟨pp', hpp', hi⟩ := i.node hv hp
  cases hpp.symm.trans hpp'
  exact hi

theorem Inv.head_of_mem (i : Inv sp ls s) (hp : p ∈ ls h) : ∃ v, s.heads h = some v := by
  cases hv : s.heads h
  case none => rw [i.head hv] at hp; cases hp
  case some v => exact ⟨v, rfl⟩

theorem Inv.node_of_mapped (i : Inv sp ls s) {x : Ptr × BitVec 32} (hx : sp h va = some x) :
    ∃ p ∈ ls h, ∃ pp, s.pages p = some pp ∧ pp.va = va := by
  have ⟨hr, v, hv, hk⟩ := i.listed hx
  have ⟨p, hk⟩ := Option.ne_none_iff_exists'.mp hk
  have ⟨hp, h⟩ := i.found hv hr hk
  exact ⟨p, hp, h⟩

-- The pages of the list of a space are those that have been mapped.
theorem Inv.mem_vas (i : Inv sp ls s) : va ∈ s.vas (ls h) ↔ sp h va ≠ none := by
  rw [Native.mem_vas]
  constructor
  case mp =>
    intro ⟨p, hp, pp, hpp, hva⟩
    have ⟨v, hv⟩ := i.head_of_mem hp
    have ⟨_, _, hsp, _⟩ := i.node_eq hv hp hpp
    rw [← hva, hsp]
    exact Option.some_ne_none _
  case mpr =>
    intro hsp
    have ⟨x, hx⟩ := Option.ne_none_iff_exists'.mp hsp
    exact i.node_of_mapped hx

theorem Inv.nodup (i : Inv sp ls s) (hv : s.heads h = some v) : (ls h).Nodup :=
  (i.path hv).nodup (by simp [State.next, i.null_page])

theorem Inv.represents (i : Inv sp ls s) (hv : s.heads h = some v) : Represents s v (sp h) := by
  refine ⟨ls h, i.path hv, ?nodup, fun va pa prot => ⟨?mp, ?mpr⟩⟩
  case nodup =>
    rw [State.nodes, List.nodup_iff_pairwise_ne, List.pairwise_map, List.pairwise_filterMap]
    refine (i.nodup hv).imp_of_mem fun {p q} hp hq hne pp hpp qq hqq he => hne ?_
    obtain ⟨_, hkp, _⟩ := i.node_eq hv hp hpp
    obtain ⟨_, hkq, _⟩ := i.node_eq hv hq hqq
    rw [he, hkq] at hkp
    exact (Option.some.inj hkp).symm
  case mp =>
    intro hsp
    obtain ⟨p, hp, pp, hpp, hva⟩ := i.node_of_mapped hsp
    obtain ⟨_, _, hsp', _⟩ := i.node_eq hv hp hpp
    rw [hva, hsp] at hsp'
    cases hsp'
    exact ⟨pp, mem_nodes.mpr ⟨p, hp, hpp⟩, hva, rfl, rfl⟩
  case mpr =>
    rintro ⟨pp, hm, hva, hpa, hprot⟩
    obtain ⟨p, hp, hpp⟩ := mem_nodes.mp hm
    obtain ⟨_, _, hsp, _⟩ := i.node_eq hv hp hpp
    rw [← hva, hsp, hpa, hprot]

theorem protect_heads : (protect n h s).2.heads =
    update s.heads h (some { head := NULL, hash := fun _ => none, nr_page := 0 }) := (rfl)

theorem protect_head (hv : (protect n h s).2.heads h' = some v) :
    h' = h ∧ v.head = NULL ∧ (∀ k, v.hash k = none) ∨ h' ≠ h ∧ s.heads h' = some v := by
  rw [protect_heads] at hv
  by_cases he : h' = h
  case pos => rw [he, Function.update_self] at hv; cases hv; exact .inl ⟨he, rfl, fun _ => rfl⟩
  case neg => rw [Function.update_of_ne he] at hv; exact .inr ⟨he, hv⟩

theorem protect_of_head (hf : s.Fresh h) (hv : s.heads h' = some v) : (protect n h s).2.heads h' = some v := by
  have : h' ≠ h := fun he => by rw [he, hf.head] at hv; cases hv
  rw [protect_heads, Function.update_of_ne this, hv]

-- `protect` begins a space.
theorem Inv.protect (i : Inv sp ls s) (hf : s.Fresh h) : Inv sp ls (protect n h s).2 where
  enabled := i.enabled
  null_page := i.null_page
  null_head := by
    rw [protect_heads, Function.update_of_ne hf.null.symm]
    exact i.null_head
  current := by
    refine i.current.imp_right fun hc => ?_
    have ⟨v, hv⟩ := Option.ne_none_iff_exists'.mp hc
    exact Option.ne_none_iff_exists'.mpr ⟨v, protect_of_head hf hv⟩
  path {h' v} hv := by
    obtain ⟨he, hn, _⟩ | ⟨_, hv⟩ := protect_head hv
    case inl => rw [he, hn, i.head hf.head]; exact .nil
    case inr => exact i.path hv
  head {h'} hv := by
    cases hv' : s.heads h'
    case none => exact i.head hv'
    case some => cases hv.symm.trans (protect_of_head hf hv')
  node {h' v p} hv hp := by
    obtain ⟨he, _⟩ | ⟨_, hv⟩ := protect_head hv
    case inl => rw [he, i.head hf.head] at hp; cases hp
    case inr => exact i.node hv hp
  found {h' v va p} hv hr hk := by
    obtain ⟨_, _, hn⟩ | ⟨_, hv⟩ := protect_head hv
    case inl => rw [hn] at hk; cases hk
    case inr => exact i.found hv hr hk
  listed hx := by
    have ⟨hr, v, hv, hk⟩ := i.listed hx
    exact ⟨hr, v, protect_of_head hf hv, hk⟩
  disjoint := i.disjoint
  host := i.host

-- The state behind `map` with the node `pp` at `p`.
def State.link (s : State) (h p : Ptr) (v : VMHead) (pp : PageMap) : State :=
  { s with
    pages := update s.pages p (some pp)
    heads := update s.heads h (some { v with head := p })
    host := if h = s.vm_head then update s.host pp.va (some (mapping pp.pa pp.prot)) else s.host }

theorem map_cases (hs : map n as va pa prot fresh s = some s') : ∃ v p pp v',
    IN_RANGE va USER_SPACE ∧ as.ptr ≠ NULL ∧ s.heads as.ptr = some v ∧ node va fresh v s = some (p, pp, v') ∧
    s' = s.link as.ptr p v' { pp with
      va := va, pa := pa, prot := prot, is_mapped := decide (as.ptr = s.vm_head), next := v'.head } := by
  rw [map] at hs
  split at hs
  case isFalse => cases hs
  case isTrue hg =>
    have ⟨hr, _, _, hn⟩ := hg
    have ⟨v, hv, hs⟩ := Option.bind_eq_some_iff.mp hs
    have ⟨⟨p, pp, v'⟩, hp, hs⟩ := Option.bind_eq_some_iff.mp hs
    refine ⟨v, p, pp, v', hr, hn, hv, hp, ?_⟩
    dsimp only at hs
    split at hs
    case isTrue he =>
      cases hs
      have he : as.ptr = s.vm_head := he
      refine State.ext ?_ rfl rfl ?_ rfl
      all_goals simp [State.link, State.setPage, State.setHead, State.am_pmem_map, he]
    case isFalse he =>
      cases hs
      have he : ¬as.ptr = s.vm_head := he
      refine State.ext ?_ rfl rfl ?_ rfl
      all_goals simp [State.link, State.setPage, State.setHead, he]

theorem node_cases (hn : node va fresh v s = some (p, pp, v')) : v'.head = v.head ∧
    (v.hash (snprintf va) = none ∧ p = fresh ∧ v'.hash = update v.hash (snprintf va) (some p) ∨
    v.hash (snprintf va) = some p ∧ v'.hash = v.hash) := by
  rw [node] at hn
  split at hn
  case h_1 hk => cases hn; exact ⟨rfl, .inl ⟨hk, rfl, rfl⟩⟩
  case h_2 hk =>
    have ⟨_, hp, he⟩ := Option.map_eq_some_iff.mp hn
    cases he
    exact ⟨rfl, .inr ⟨hk, rfl⟩⟩

theorem Inv.hash_none (i : Inv sp ls s) (hv : s.heads h = some v) (hr : IN_RANGE va USER_SPACE)
    (hsp : sp h va = none) : v.hash (snprintf va) = none := by
  refine Option.eq_none_iff_forall_ne_some.mpr fun p hk => ?_
  have ⟨hp, h⟩ := i.found hv hr hk
  exact i.mem_vas.mp (Native.mem_vas.mpr ⟨p, hp, h⟩) hsp

theorem Inv.page_of_mem (i : Inv sp ls s) (hp : p ∈ ls h) : s.pages p ≠ none := by
  have ⟨v, hv⟩ := i.head_of_mem hp
  have ⟨pp, hpp, _⟩ := i.node hv hp
  rw [hpp]
  exact Option.some_ne_none _

section Update

variable {α K : Type} [DecidableEq K] {f : K → Option α} {x y : α} {j k : K}

theorem update_some (h : update f k (some x) j = some y) : j = k ∧ y = x ∨ j ≠ k ∧ f j = some y := by
  by_cases he : j = k
  case pos => rw [he, Function.update_self] at h; cases h; exact .inl ⟨he, rfl⟩
  case neg => rw [Function.update_of_ne he] at h; exact .inr ⟨he, h⟩

theorem update_none (h : update f k (some x) j = none) : j ≠ k ∧ f j = none := by
  by_cases he : j = k
  case pos => rw [he, Function.update_self] at h; cases h
  case neg => rw [Function.update_of_ne he] at h; exact ⟨he, h⟩

end Update

theorem mem_update_cons (hp : p ∈ update ls h (q :: ls h) h') : p = q ∧ h' = h ∨ p ∈ ls h' := by
  by_cases he : h' = h
  case pos =>
    rw [he, Function.update_self] at hp
    exact (List.mem_cons.mp hp).imp (fun hp => ⟨hp, he⟩) (fun hp => he ▸ hp)
  case neg => rw [Function.update_of_ne he] at hp; exact .inr hp

-- What `map` puts in front of a list.
structure New (sp : Spaces) (s : State) (h p : Ptr) (v v' : VMHead) (pp : PageMap) : Prop where
  null : h ≠ NULL
  head : s.heads h = some v
  fresh : s.Fresh p
  range : IN_RANGE pp.va USER_SPACE
  unmapped : sp h pp.va = none
  next : pp.next = v.head
  is_mapped : pp.is_mapped = decide (h = s.vm_head)
  hash : v'.hash = update v.hash (snprintf pp.va) (some p)

def put (sp : Spaces) (h : Ptr) (pp : PageMap) : Spaces :=
  update sp h (update (sp h) pp.va (some (pp.pa, pp.prot)))

theorem put_self : put sp h pp h = update (sp h) pp.va (some (pp.pa, pp.prot)) :=
  Function.update_self ..

theorem put_of_ne (hn : h' ≠ h) : put sp h pp h' = sp h' :=
  Function.update_of_ne hn ..

section New

variable {w : VMHead} (i : Inv sp ls s) (o : New sp s h p v v' pp)
include i o

theorem New.page_of_mem (hq : q ∈ ls h') : (s.link h p v' pp).pages q = s.pages q :=
  Function.update_of_ne (fun he => i.page_of_mem hq (by rw [he, o.fresh.page])) ..

theorem New.path (hw : (s.link h p v' pp).heads h' = some w) :
    Path (s.link h p v' pp).next w.head (update ls h (p :: ls h) h') NULL := by
  obtain ⟨rfl, rfl⟩ | ⟨hn, hw⟩ := update_some hw
  case inl =>
    rw [Function.update_self]
    refine .cons (congrArg _ (Function.update_self ..)) ?_
    rw [o.next]
    exact (i.path o.head).congr fun q hq => congrArg _ (o.page_of_mem i hq)
  case inr =>
    rw [Function.update_of_ne hn]
    exact (i.path hw).congr fun q hq => congrArg _ (o.page_of_mem i hq)

theorem New.node (hw : (s.link h p v' pp).heads h' = some w) (hm : q ∈ update ls h (p :: ls h) h') :
    ∃ pp', (s.link h p v' pp).pages q = some pp' ∧ IN_RANGE pp'.va USER_SPACE ∧
    w.hash (snprintf pp'.va) = some q ∧ put sp h pp h' pp'.va = some (pp'.pa, pp'.prot) ∧
    pp'.is_mapped = decide (h' = s.vm_head) := by
  obtain ⟨rfl, rfl⟩ | hq := mem_update_cons hm <;> obtain ⟨he, rfl⟩ | ⟨hn, hw⟩ := update_some hw
  case inl.inl =>
    refine ⟨pp, Function.update_self .., o.range, ?_, ?_, o.is_mapped⟩
    case refine_1 => rw [o.hash, Function.update_self]
    case refine_2 => rw [put_self, Function.update_self]
  case inl.inr => cases hn rfl
  case inr.inl =>
    subst he
    have ⟨qq, hqq, hr, hk, hsp, hm⟩ := i.node o.head hq
    have hva : qq.va ≠ pp.va := fun he => by rw [he, o.unmapped] at hsp; cases hsp
    refine ⟨qq, (o.page_of_mem i hq).trans hqq, hr, ?_, ?_, hm⟩
    case refine_1 => rw [o.hash, Function.update_of_ne (fun he => hva (snprintf_inj hr o.range he)), hk]
    case refine_2 => rw [put_self, Function.update_of_ne hva, hsp]
  case inr.inr =>
    have ⟨qq, hqq, hi⟩ := i.node hw hq
    rw [put_of_ne hn]
    exact ⟨qq, (o.page_of_mem i hq).trans hqq, hi⟩

theorem New.found (hw : (s.link h p v' pp).heads h' = some w) (hr : IN_RANGE va USER_SPACE)
    (hk : w.hash (snprintf va) = some q) :
    q ∈ update ls h (p :: ls h) h' ∧ ∃ pp', (s.link h p v' pp).pages q = some pp' ∧ pp'.va = va := by
  obtain ⟨rfl, rfl⟩ | ⟨hn, hw⟩ := update_some hw
  case inl =>
    rw [Function.update_self]
    obtain ⟨he, rfl⟩ | ⟨_, hk⟩ := update_some (o.hash ▸ hk)
    case inl => exact ⟨List.mem_cons_self, pp, Function.update_self .., snprintf_inj o.range hr he.symm⟩
    case inr =>
      have ⟨hq, qq, hqq, hva⟩ := i.found o.head hr hk
      exact ⟨List.mem_cons_of_mem _ hq, qq, (o.page_of_mem i hq).trans hqq, hva⟩
  case inr =>
    have ⟨hq, qq, hqq, hva⟩ := i.found hw hr hk
    rw [Function.update_of_ne hn]
    exact ⟨hq, qq, (o.page_of_mem i hq).trans hqq, hva⟩

theorem New.listed {x : Ptr × BitVec 32} (hx : put sp h pp h' va = some x) :
    IN_RANGE va USER_SPACE ∧ ∃ w, (s.link h p v' pp).heads h' = some w ∧ w.hash (snprintf va) ≠ none := by
  by_cases hn : h' = h
  case pos =>
    subst hn
    rw [put_self] at hx
    obtain ⟨rfl, _⟩ | ⟨_, hx⟩ := update_some hx
    case inl =>
      refine ⟨o.range, _, Function.update_self .., ?_⟩
      rw [o.hash, Function.update_self]
      exact Option.some_ne_none _
    case inr =>
      have ⟨hr, w, hw, hk⟩ := i.listed hx
      cases o.head.symm.trans hw
      refine ⟨hr, _, Function.update_self .., fun hn => ?_⟩
      rw [o.hash] at hn
      exact hk (update_none hn).right
  case neg =>
    rw [put_of_ne hn] at hx
    have ⟨hr, w, hw, hk⟩ := i.listed hx
    exact ⟨hr, w, (Function.update_of_ne hn ..).trans hw, hk⟩

theorem New.disjoint {h₁ h₂ : Ptr} (hm : q ∈ update ls h (p :: ls h) h₁) (hm' : q ∈ update ls h (p :: ls h) h₂) :
    h₁ = h₂ := by
  have hne {h'} (hm : p ∈ ls h') : False := i.page_of_mem hm o.fresh.page
  obtain ⟨rfl, rfl⟩ | hq := mem_update_cons hm <;> obtain ⟨he, rfl⟩ | hq' := mem_update_cons hm'
  case inl.inl => rfl
  case inl.inr => cases hne hq'
  case inr.inl => cases hne (he ▸ hq)
  case inr.inr => exact i.disjoint hq hq'

omit o in
theorem New.host : Shows (s.link h p v' pp) (put sp h pp s.vm_head) := by
  intro va
  by_cases he : h = s.vm_head
  case pos =>
    rw [State.link, if_pos he, ← he, put_self]
    by_cases hva : va = pp.va
    case pos => rw [hva, Function.update_self]; exact Function.update_self ..
    case neg => rw [Function.update_of_ne hva, he]; exact (Function.update_of_ne hva ..).trans (i.host va)
  case neg =>
    rw [State.link, if_neg he, put_of_ne (Ne.symm he)]
    exact i.host va

theorem New.inv : Inv (put sp h pp) (update ls h (p :: ls h)) (s.link h p v' pp) where
  enabled := i.enabled
  null_page := (Function.update_of_ne o.fresh.null.symm ..).trans i.null_page
  null_head := (Function.update_of_ne o.null.symm ..).trans i.null_head
  current := i.current.imp_right fun hc hn => hc (update_none hn).right
  path := o.path i
  head hw := by
    have ⟨hn, hw⟩ := update_none hw
    rw [Function.update_of_ne hn, i.head hw]
  node := o.node i
  found := o.found i
  listed := o.listed i
  disjoint := o.disjoint i
  host := New.host i

end New

-- `map` puts a node for a page that has not been mapped in front of the list.
theorem Inv.map (i : Inv sp ls s) (hf : s.Allocates as.ptr va → s.Fresh fresh) (hsp : sp as.ptr va = none)
    (hs : map n as va pa prot fresh s = some s') :
    Inv ((Call.map as va pa prot fresh).apply sp) (update ls as.ptr (fresh :: ls as.ptr)) s' := by
  have ⟨v, p, pp, v', hr, hn, hv, hp, he⟩ := map_cases hs
  have hk := i.hash_none hv hr hsp
  have ⟨hh, hc⟩ := node_cases hp
  obtain ⟨_, rfl, hk'⟩ | ⟨hk', _⟩ := hc
  case inl =>
    have o : New sp s as.ptr p v v' { pp with
        va := va, pa := pa, prot := prot, is_mapped := decide (as.ptr = s.vm_head), next := v'.head } :=
      ⟨hn, hv, hf ⟨v, hv, hk⟩, hr, hsp, hh, rfl, hk'⟩
    rw [he]
    exact o.inv i
  case inr => cases hk.symm.trans hk'

section Switch

theorem Inv.null_list (i : Inv sp ls s) : ls NULL = [] :=
  i.head i.null_head

-- The state without the pages of the current space.
def State.unmapped (s : State) (ls : Ptr → List Ptr) : State :=
  s.put false (fun _ => none) (ls s.vm_head)

def State.mapped (s : State) (sp : Spaces) (ls : Ptr → List Ptr) (h : Ptr) : State :=
  s.put true (fun va => (sp h va).map fun x => mapping x.1 x.2) (ls h)

theorem Inv.unmapAll (i : Inv sp ls s) : unmapAll fuel s.vm_head s =
    if s.vm_head = NULL ∨ (ls s.vm_head).length < fuel then some (s.unmapped ls) else none := by
  by_cases hn : s.vm_head = NULL
  case pos => simp [Native.unmapAll, State.unmapped, hn, i.null_list]
  case neg =>
    have ⟨v, hv⟩ := Option.ne_none_iff_exists'.mp (i.current.resolve_left hn)
    rw [Native.unmapAll, if_pos hn, hv, Option.bind_eq_bind, Option.bind_some]
    simp only [hn, false_or]
    refine list_foreach_put i.null_page (i.path hv) (R := fun pp => pp.is_mapped) ?_ fun _ _ _ => unmapPage_put
    intro q hq pp hpp
    have ⟨_, _, _, hm⟩ := i.node_eq hv hq hpp
    simpa using hm

theorem Inv.mapAll (i : Inv sp ls s) (hh : h = NULL ∨ s.heads h ≠ none) : mapAll fuel h (s.unmapped ls) =
    if h = NULL ∨ (ls h).length < fuel then some ((s.unmapped ls).mapped sp ls h) else none := by
  by_cases hn : h = NULL
  case pos => simp [Native.mapAll, State.mapped, hn, i.null_list]
  case neg =>
    have ⟨v, hv⟩ := Option.ne_none_iff_exists'.mp (hh.resolve_left hn)
    rw [Native.mapAll, if_pos hn, State.unmapped, put_heads, hv, Option.bind_eq_bind, Option.bind_some]
    simp only [hn, false_or]
    refine list_foreach_put (put_page_none i.null_page) (by rw [put_next]; exact i.path hv)
      (R := fun pp => IN_RANGE pp.va USER_SPACE ∧ sp h pp.va = some (pp.pa, pp.prot)) ?_ ?_
    case refine_1 =>
      intro q hq pp hpp
      have ⟨qq, hqq, hr, _, hsp, _⟩ := i.node hv hq
      rw [put_page hqq] at hpp
      cases hpp
      exact ⟨hr, hsp⟩
    case refine_2 =>
      intro s q pp hpp ⟨hr, hsp⟩
      exact mapPage_put hpp hr (by rw [hsp, Option.map_some])

def State.switched (s : State) (sp : Spaces) (ls : Ptr → List Ptr) (h : Ptr) : State :=
  { (s.unmapped ls).mapped sp ls h with vm_head := h }

theorem Inv.head_of_mapAll (hs : Native.mapAll fuel h (s.unmapped ls) = some s') : h = NULL ∨ s.heads h ≠ none := by
  by_cases hn : h = NULL
  case pos => exact .inl hn
  case neg =>
    rw [Native.mapAll, if_pos hn] at hs
    have ⟨v, hv, _⟩ := Option.bind_eq_some_iff.mp hs
    exact .inr fun hn => by cases hn.symm.trans hv

-- A switch that ends.
theorem Inv.am_switch_cases (i : Inv sp ls s) (hs : am_switch fuel h s = some s') :
    h = s.vm_head ∧ s' = s ∨ h ≠ s.vm_head ∧ (h = NULL ∨ s.heads h ≠ none) ∧ s' = s.switched sp ls h := by
  rw [am_switch, i.enabled, if_neg (by simp)] at hs
  split at hs
  case isTrue he => cases hs; exact .inl ⟨he, State.ext rfl rfl he rfl i.enabled.symm⟩
  case isFalse he =>
    rw [i.unmapAll] at hs
    have ⟨s₁, hu, hs⟩ := Option.bind_eq_some_iff.mp hs
    have ⟨s₂, hm, hs⟩ := Option.bind_eq_some_iff.mp hs
    split at hu
    case isTrue =>
      cases hu
      have hh := head_of_mapAll hm
      rw [i.mapAll hh] at hm
      split at hm
      case isTrue => cases hm; cases hs; exact .inr ⟨he, hh, rfl⟩
      case isFalse => cases hm
    case isFalse => cases hu

-- A switch to a space ends.
theorem Inv.am_switch_some (i : Inv sp ls s) (hh : h = NULL ∨ s.heads h ≠ none) :
    ∃ fuel s', am_switch fuel h s = some s' := by
  refine ⟨(ls s.vm_head).length + (ls h).length + 1, ?_⟩
  rw [am_switch, i.enabled, if_neg (by simp)]
  split
  case isTrue => exact ⟨_, rfl⟩
  case isFalse =>
    rw [i.unmapAll, if_pos (.inr (by omega)), Option.bind_eq_bind, Option.bind_some, i.mapAll hh,
      if_pos (.inr (by omega))]
    exact ⟨_, rfl⟩

theorem switched_pages : (s.switched sp ls h).pages = ((s.unmapped ls).mapped sp ls h).pages := (rfl)

theorem switched_page (hp : s.pages p = some pp) : (s.switched sp ls h).pages p = some { pp with
    is_mapped := if p ∈ ls h then true else if p ∈ ls s.vm_head then false else pp.is_mapped } := by
  rw [switched_pages, State.mapped, State.unmapped, put_page (put_page hp)]

theorem switched_next : (s.switched sp ls h).next = s.next := by
  have : (s.switched sp ls h).next = ((s.unmapped ls).mapped sp ls h).next := rfl
  rw [this, State.mapped, put_next, State.unmapped, put_next]

-- The pages of the space are mapped, and every page that was mapped has been in the list of the other one.
theorem Inv.switched_host (i : Inv sp ls s) : Shows (s.switched sp ls h) (sp h) := by
  intro va
  have hh : (s.switched sp ls h).host = ((s.unmapped ls).mapped sp ls h).host := rfl
  rw [hh, State.mapped, put_host, State.unmapped, put_vas, put_host]
  split
  case isTrue => rfl
  case isFalse hx =>
    rw [Decidable.not_not.mp (mt i.mem_vas.mpr hx)]
    split
    case isTrue => rfl
    case isFalse hx => rw [i.host va, Decidable.not_not.mp (mt i.mem_vas.mpr hx)]

theorem Inv.switched (i : Inv sp ls s) (hh : h = NULL ∨ s.heads h ≠ none) : Inv sp ls (s.switched sp ls h) where
  enabled := i.enabled
  null_page := by rw [switched_pages]; exact put_page_none (put_page_none i.null_page)
  null_head := i.null_head
  current := hh
  path hv := by
    rw [switched_next]
    exact i.path hv
  head hv := i.head hv
  node {h' v p} hv hp := by
    have ⟨pp, hpp, hr, hk, hsp, hm⟩ := i.node hv hp
    refine ⟨_, switched_page hpp, hr, hk, hsp, ?_⟩
    have (h'' : Ptr) : p ∈ ls h'' ↔ h' = h'' := ⟨i.disjoint hp, fun he => he ▸ hp⟩
    have hs : (s.switched sp ls h).vm_head = h := rfl
    simp only [this, hs, hm]
    by_cases he : h' = h <;> by_cases he' : h' = s.vm_head <;> simp [he, he']
  found hv hr hk := by
    have ⟨hp, pp, hpp, hva⟩ := i.found hv hr hk
    exact ⟨hp, _, switched_page hpp, hva⟩
  listed := i.listed
  disjoint := i.disjoint
  host := i.switched_host

theorem Inv.am_switch (i : Inv sp ls s) (hs : am_switch fuel h s = some s') : Inv sp ls s' ∧ Shows s' (sp h) := by
  obtain ⟨rfl, rfl⟩ | ⟨_, hh, rfl⟩ := i.am_switch_cases hs
  case inl => exact ⟨i, i.host⟩
  case inr => exact ⟨i.switched hh, i.switched_host⟩

end Switch

end Invariant

end Am.Native
