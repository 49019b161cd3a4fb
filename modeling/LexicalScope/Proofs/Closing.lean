import LexicalScope.Proofs.Settled

/-!
Closing the innermost open scope. Its pending references are bound to what the scope offers them,
or wait in the scope around it from now on. The references of all other scopes stay where they
are, so the open scopes keep the picture of `Settled`.
-/
namespace LexicalScope.ScopeGraph

variable {ν : Type} [DecidableEq ν]

/-- What becomes of the references pending in `s`, if each meets the given variable there. -/
structure Closes (g g' : ScopeGraph ν) (s : ScopeId) (meets : ReferenceId → Option VariableId) :
    Prop where
  resolvedOf_eq : ∀ r, g'.resolvedOf r = if r ∈ g.pendingOf s then meets r else g.resolvedOf r
  linksOf_eq : ∀ v, g'.linksOf v = g.linksOf v ++ (g.pendingOf s).filter (meets · = some v)
  pendingOf_eq : ∀ x, g'.pendingOf x = if x = s then [] else
    g.pendingOf x ++ if g.upper? s = some x then (g.pendingOf s).filter (meets · = none) else []
  throughOf_eq : ∀ x, g'.throughOf x =
    g.throughOf x ++ if x = s then (g.pendingOf s).filter (meets · = none) else []

/-- Scope `s`, the innermost one that is open in `g`, is closed in `g'`. -/
structure Closing (g g' : ScopeGraph ν) (t : Tree) (s : ScopeId) (outer : List ScopeId) :
    Prop where
  wellFormed : g.WellFormed
  wellFormed_closed : g'.WellFormed
  settled : Settled g t (s :: outer)
  lt_size : s.index < g.scopes.size
  chain_eq : g.chain s = s :: outer
  frame : Frame [s] g g'
  closes : Closes g g' s (g'.offer? t · s)

namespace Closing

variable {g g' : ScopeGraph ν} {t : Tree} {s : ScopeId} {outer : List ScopeId}
  (h : Closing g g' t s outer)
include h

/-- What waits in the innermost scope is unresolved and has the scope on its way. -/
theorem mem_pendingOf_iff (r : ReferenceId) :
    r ∈ g.pendingOf s ↔ g.resolvedOf r = none ∧ s ∈ g.wayOf r := by
  rw [h.settled.pending s (List.mem_cons_self ..), h.chain_eq]
  apply and_congr_right
  intro _
  constructor
  · intro hway
    rw [hway]
    exact List.mem_append_right _ (List.mem_cons_self ..)
  · intro hs
    exact (h.wellFormed.wayOf_eq_climbed_append h.chain_eq hs).1

theorem not_mem_outer : s ∉ outer := by
  have hnodup := h.wellFormed.nodup_chain h.lt_size
  rw [h.chain_eq] at hnodup
  exact (List.nodup_cons.1 hnodup).1

theorem outer_eq : outer = (g.upper? s).elim [] g.chain := by
  have hchain := h.wellFormed.chain_eq h.lt_size
  rw [h.chain_eq] at hchain
  exact (List.cons.inj hchain).2

theorem index_lt_of_mem_outer {x : ScopeId} (hx : x ∈ outer) : x.index < s.index := by
  rw [h.outer_eq] at hx
  cases hu : g.upper? s with
  | none => simp [hu] at hx
  | some u =>
    rw [hu, Option.elim_some] at hx
    have hle := h.wellFormed.index_le_of_mem_chain (h.wellFormed.upper_size h.lt_size hu) hx
    have hlt := h.wellFormed.upper_lt hu
    omega

theorem climbed_closed (opened : List ScopeId) (r : ReferenceId) :
    g'.climbed opened r = g.climbed opened r := by
  rw [climbed, h.frame.wayOf, climbed]

theorem offer?_of_ne (r : ReferenceId) {x : ScopeId} (hx : x ≠ s) :
    g'.offer? t r x = g.offer? t r x :=
  h.frame.offer? t r fun hmem => hx (List.mem_singleton.1 hmem)

/-- Further in, nothing changes for a reference. -/
theorem findSome?_climbed (r : ReferenceId) :
    (g.climbed (s :: outer) r).findSome? (g'.offer? t r) = g.resolvedOf r := by
  rw [h.settled.resolved]
  refine findSome?_congr fun x hx => h.offer?_of_ne r ?_
  rintro rfl
  exact (mem_climbed hx).2 (List.mem_cons_self ..)

/-- After closing, a reference is bound to the first offer on its way, the closed scope included. -/
theorem resolvedOf_closed (r : ReferenceId) :
    g'.resolvedOf r = (g'.climbed outer r).findSome? (g'.offer? t r) := by
  simp only [h.closes.resolvedOf_eq, h.climbed_closed, h.mem_pendingOf_iff]
  by_cases hs : s ∈ g.wayOf r
  · rw [(h.wellFormed.wayOf_eq_climbed_append h.chain_eq hs).2, List.findSome?_append,
      h.findSome?_climbed]
    cases hr : g.resolvedOf r with
    | none => simp [hs]
    | some v => simp
  · rw [climbed_eq_of_not_mem hs, h.findSome?_climbed, if_neg fun hr => hs hr.2]

theorem mem_linksOf_closed (v : VariableId) (r : ReferenceId) :
    r ∈ g'.linksOf v ↔ g'.resolvedOf r = some v := by
  rw [h.closes.linksOf_eq, List.mem_append, h.settled.links, h.closes.resolvedOf_eq,
    List.mem_filter, decide_eq_true_iff]
  by_cases hr : r ∈ g.pendingOf s
  · have hnone := ((h.mem_pendingOf_iff r).1 hr).1
    simp [hr, hnone]
  · simp [hr]

theorem pendingOf_ascending : Ascending (g.pendingOf s) := by
  have hall := h.settled.pending_ascending
  rw [List.reverse_cons, List.flatMap_append, List.flatMap_singleton] at hall
  exact hall.sublist (List.sublist_append_right ..)

/-- A variable gets its references from one scope only. -/
theorem linksOf_closed_ascending (v : VariableId) : Ascending (g'.linksOf v) := by
  rw [h.closes.linksOf_eq]
  cases hold : g.linksOf v with
  | nil =>
    rw [List.nil_append]
    exact h.pendingOf_ascending.sublist List.filter_sublist
  | cons r rest =>
    have hr : g.resolvedOf r = some v :=
      (h.settled.links v r).1 (hold ▸ List.mem_cons_self ..)
    rw [← h.findSome?_climbed r] at hr
    obtain ⟨x, hx, hoffer⟩ := List.exists_of_findSome?_eq_some hr
    have hnew : (g.pendingOf s).filter (g'.offer? t · s = some v) = [] := by
      refine List.filter_eq_nil_iff.2 fun r' _ hr' => (mem_climbed hx).2 ?_
      rw [h.wellFormed_closed.offer?_unique hoffer (of_decide_eq_true hr')]
      exact List.mem_cons_self ..
    rw [hnew, List.append_nil, ← hold]
    exact h.settled.links_ascending v

/-- A reference remains unbound if it waited in the closed scope, which had nothing for it. -/
theorem resolvedOf_closed_eq_none_iff {r : ReferenceId} (hs : s ∈ g.wayOf r) :
    g'.resolvedOf r = none ↔ r ∈ g.pendingOf s ∧ g'.offer? t r s = none := by
  rw [h.closes.resolvedOf_eq]
  split
  · next hr => simp [hr]
  · next hr =>
    have hsome : g.resolvedOf r ≠ none := fun hnone => hr ((h.mem_pendingOf_iff r).2 ⟨hnone, hs⟩)
    simp [hr, hsome]

theorem outer_eq_chain_iff {x : ScopeId} (hx : x ∈ outer) :
    outer = g.chain x ↔ g.upper? s = some x := by
  have houter := h.outer_eq
  cases hu : g.upper? s with
  | none => simp [hu] at houter; simp [houter] at hx
  | some u =>
    have husize := h.wellFormed.upper_size h.lt_size hu
    rw [hu, Option.elim_some] at houter
    have hxsize := h.wellFormed.size_of_mem_chain husize (houter ▸ hx)
    rw [houter, Option.some.injEq]
    constructor
    · intro heq
      rw [h.wellFormed.chain_eq husize, h.wellFormed.chain_eq hxsize] at heq
      exact (List.cons.inj heq).1
    · intro heq
      rw [heq]

/-- What waits after closing has come up from the closed scope or waited there before. The reference
waited in `s`, so it waits in `x` exactly if `x` is right around `s`. -/
theorem mem_pendingOf_closed_iff {x : ScopeId} (hx : x ∈ outer) (r : ReferenceId) :
    r ∈ g'.pendingOf x ↔
      g'.resolvedOf r = none ∧ g'.wayOf r = g'.climbed outer r ++ g'.chain x := by
  have hne : x ≠ s := fun heq => h.not_mem_outer (heq ▸ hx)
  have hold := h.settled.pending x (List.mem_cons_of_mem _ hx) r
  rw [h.closes.pendingOf_eq, if_neg hne, List.mem_append, hold, h.frame.wayOf, h.climbed_closed,
    h.frame.positions.chain]
  by_cases hs : s ∈ g.wayOf r
  · obtain ⟨hway, hclimbed⟩ := h.wellFormed.wayOf_eq_climbed_append h.chain_eq hs
    have hnot : s :: outer ≠ g.chain x := by
      intro heq
      rw [h.wellFormed.chain_eq (Nat.lt_trans (h.index_lt_of_mem_outer hx) h.lt_size)] at heq
      exact hne (List.cons.inj heq).1.symm
    have hnew : (r ∈ if g.upper? s = some x then (g.pendingOf s).filter (g'.offer? t · s = none)
        else []) ↔ (r ∈ g.pendingOf s ∧ g'.offer? t r s = none) ∧ outer = g.chain x := by
      rw [h.outer_eq_chain_iff hx]
      split
      · next hu => simp [hu]
      · next hu => simp [hu]
    have hcancel : g.climbed (s :: outer) r ++ s :: outer =
        (g.climbed (s :: outer) r ++ [s]) ++ g.chain x ↔ outer = g.chain x := by
      rw [List.append_cons, List.append_cancel_left_eq]
    rw [h.resolvedOf_closed_eq_none_iff hs, hclimbed, hnew, hway, hcancel,
      List.append_cancel_left_eq]
    simp only [hnot, and_false, false_or]
  · have hr : r ∉ g.pendingOf s := fun hr => hs ((h.mem_pendingOf_iff r).1 hr).2
    have hnew : r ∉ if g.upper? s = some x then (g.pendingOf s).filter (g'.offer? t · s = none)
        else [] := by
      split <;> simp [hr]
    have hclimbed : g.climbed outer r = g.climbed (s :: outer) r := climbed_eq_of_not_mem hs
    rw [hclimbed, h.closes.resolvedOf_eq, if_neg hr]
    simp only [hnew, or_false]

theorem pendingOf_closed_of_not_mem {x : ScopeId} (hx : x ∉ outer) : g'.pendingOf x = [] := by
  rw [h.closes.pendingOf_eq]
  split
  · rfl
  · next hne =>
    have hold : g.pendingOf x = [] :=
      h.settled.pending_closed x fun hmem => hx ((List.mem_cons.1 hmem).resolve_left hne)
    rw [hold, List.nil_append]
    split
    · next hu =>
      have hlt := h.wellFormed.upper_size h.lt_size hu
      rw [h.outer_eq, hu, Option.elim_some] at hx
      exact absurd (h.wellFormed.mem_chain_self hlt) hx
    · rfl

/-- References handed on are younger than what already waits around them. -/
theorem pendingOf_closed_ascending : Ascending (outer.reverse.flatMap g'.pendingOf) := by
  have hall := h.settled.pending_ascending
  rw [List.reverse_cons, List.flatMap_append, List.flatMap_singleton] at hall
  have hne {x : ScopeId} (hx : x ∈ outer) : x ≠ s := fun heq => h.not_mem_outer (heq ▸ hx)
  cases hu : g.upper? s with
  | none =>
    rw [h.outer_eq, hu]
    exact List.Pairwise.nil
  | some u =>
    have husize := h.wellFormed.upper_size h.lt_size hu
    obtain ⟨above, habove⟩ : ∃ above, g.chain u = u :: above := ⟨_, h.wellFormed.chain_eq husize⟩
    have houter : outer = u :: above := by rw [h.outer_eq, hu, Option.elim_some, habove]
    have hnotin : u ∉ above := by
      have hnodup := h.wellFormed.nodup_chain husize
      rw [habove] at hnodup
      exact (List.nodup_cons.1 hnodup).1
    have hsame : ∀ x ∈ above.reverse, g'.pendingOf x = g.pendingOf x := by
      intro x hx
      have hmem : x ∈ above := List.mem_reverse.1 hx
      have hux : u ≠ x := fun heq => hnotin (heq ▸ hmem)
      rw [h.closes.pendingOf_eq, if_neg (hne (houter ▸ List.mem_cons_of_mem _ hmem)), hu]
      simp [hux]
    rw [houter, List.reverse_cons, List.flatMap_append, List.flatMap_singleton,
      List.append_assoc] at hall
    rw [houter, List.reverse_cons, List.flatMap_append, List.flatMap_singleton,
      List.flatMap_congr hsame, h.closes.pendingOf_eq,
      if_neg (hne (houter ▸ List.mem_cons_self ..)), if_pos hu]
    refine hall.sublist (List.Sublist.append_left ?_ _)
    exact List.Sublist.append_left List.filter_sublist _

theorem throughOf_closed_of_mem {x : ScopeId} (hx : x ∈ outer) : g'.throughOf x = [] := by
  have hne : x ≠ s := fun heq => h.not_mem_outer (heq ▸ hx)
  rw [h.closes.throughOf_eq, h.settled.through_open x (List.mem_cons_of_mem _ hx), if_neg hne,
    List.append_nil]

theorem throughOf_self : g'.throughOf s = (g.pendingOf s).filter (g'.offer? t · s = none) := by
  rw [h.closes.throughOf_eq, h.settled.through_open s (List.mem_cons_self ..), if_pos rfl,
    List.nil_append]

theorem throughOf_of_ne {x : ScopeId} (hx : x ≠ s) : g'.throughOf x = g.throughOf x := by
  rw [h.closes.throughOf_eq, if_neg hx, List.append_nil]

/-- The closed scope lets through what came to it and met nothing. -/
theorem mem_throughOf_self_iff (r : ReferenceId) :
    r ∈ g'.throughOf s ↔
      s ∈ g.wayOf r ∧ ∀ x ∈ g.wayOf r, s ∈ g.chain x → g'.offer? t r x = none := by
  rw [h.throughOf_self, List.mem_filter, h.mem_pendingOf_iff, decide_eq_true_iff,
    ← h.findSome?_climbed, List.findSome?_eq_none_iff]
  constructor
  · rintro ⟨⟨hclimbed, hs⟩, hoffer⟩
    refine ⟨hs, ?_⟩
    intro x hx hsx
    rw [(h.wellFormed.wayOf_eq_climbed_append h.chain_eq hs).1, List.mem_append,
      List.mem_cons] at hx
    rcases hx with hx | rfl | hx
    · exact hclimbed x hx
    · exact hoffer
    · have hlt := h.index_lt_of_mem_outer hx
      have hle := h.wellFormed.index_le_of_mem_chain (Nat.lt_trans hlt h.lt_size) hsx
      omega
  · rintro ⟨hs, hall⟩
    refine ⟨⟨fun x hx => hall x (mem_climbed hx).1 ?_, hs⟩, ?_⟩
    · exact h.wellFormed.mem_chain_of_mem_climbed h.chain_eq hs hx
    · exact hall s hs (h.wellFormed.mem_chain_self h.lt_size)

theorem mem_throughOf_closed_iff {x : ScopeId} (hx : x ∉ outer) (r : ReferenceId) :
    r ∈ g'.throughOf x ↔
      x ∈ g'.wayOf r ∧ ∀ y ∈ g'.wayOf r, x ∈ g'.chain y → g'.offer? t r y = none := by
  simp only [h.frame.wayOf, h.frame.positions.chain]
  by_cases hne : x = s
  · subst hne
    exact h.mem_throughOf_self_iff r
  · have hopen : x ∉ s :: outer := by simp [hne, hx]
    rw [h.throughOf_of_ne hne, h.settled.through x hopen]
    apply and_congr_right
    intro _
    apply forall₂_congr
    intro y _
    apply imp_congr_right
    intro hxy
    rw [h.offer?_of_ne r]
    rintro rfl
    exact hopen (h.chain_eq ▸ hxy)

/-- References pass through a scope in their order. -/
theorem throughOf_closed_ascending (x : ScopeId) : Ascending (g'.throughOf x) := by
  by_cases hx : x = s
  · subst hx
    rw [h.throughOf_self]
    exact h.pendingOf_ascending.sublist List.filter_sublist
  · rw [h.throughOf_of_ne hx]
    exact h.settled.through_ascending x

/-- Closing the innermost open scope keeps the picture. -/
theorem settled_closed : Settled g' t outer where
  resolved := h.resolvedOf_closed
  links := h.mem_linksOf_closed
  links_ascending := h.linksOf_closed_ascending
  pending _ hx := h.mem_pendingOf_closed_iff hx
  pending_closed _ := h.pendingOf_closed_of_not_mem
  pending_ascending := h.pendingOf_closed_ascending
  through_open _ := h.throughOf_closed_of_mem
  through _ hx := h.mem_throughOf_closed_iff hx
  through_ascending := h.throughOf_closed_ascending

end Closing

section CloseScope

variable {g g' : ScopeGraph ν} {t : Tree} {s : ScopeId} {outer : List ScopeId}

def emptied (g : ScopeGraph ν) (s : ScopeId) : ScopeGraph ν :=
  g.modifyScope s fun s => { s with pending := #[] }

omit [DecidableEq ν] in
theorem pendingOf_emptied (x : ScopeId) :
    (g.emptied s).pendingOf x = if x = s then [] else g.pendingOf x := by
  rw [emptied, pendingOf, listOf, getScope?_modifyScope, pendingOf, listOf]
  split <;> cases g.getScope? x <;> rfl

omit [DecidableEq ν] in
theorem throughOf_emptied (x : ScopeId) : (g.emptied s).throughOf x = g.throughOf x :=
  listOf_modifyScope (by exact fun _ => rfl) s x

theorem frame_emptied : Frame [] g (g.emptied s) :=
  .modifyScope (by exact fun _ => rfl) (by exact fun _ => rfl) (by exact fun _ => rfl) s

/-- Settling what waits in `s`, once it does not wait there any more. -/
theorem Closes.of_settles {g₀ : ScopeGraph ν} {meets : ReferenceId → Option VariableId}
    (hframe : Frame [] g g₀) (hlinks : SameLinks (g.emptied s) g₀)
    (h : Settles g₀ g' s (g.pendingOf s) meets)
    (hpending : ∀ r ∈ g.pendingOf s, g.resolvedOf r = none) (hupper : g.upper? s ≠ some s) :
    Closes g g' s meets where
  resolvedOf_eq r := by
    rw [h.resolvedOf_eq, hlinks.resolvedOf]
    show (if _ then (meets r).or (g.resolvedOf r) else g.resolvedOf r) = _
    split
    · next hr => rw [hpending r hr, Option.or_none]
    · rfl
  linksOf_eq v := by
    rw [h.linksOf_eq, hlinks.linksOf]
    rfl
  pendingOf_eq x := by
    rw [h.pendingOf_eq, hlinks.pendingOf, pendingOf_emptied, hframe.positions.upper?]
    split
    · next hx => rw [hx, if_neg hupper, List.append_nil]
    · rfl
  throughOf_eq x := by rw [h.throughOf_eq, hlinks.throughOf, throughOf_emptied]

omit [DecidableEq ν] in
theorem Closes.congr {g'' : ScopeGraph ν} {meets : ReferenceId → Option VariableId}
    (h : Closes g g' s meets) (hlinks : SameLinks g' g'') : Closes g g'' s meets where
  resolvedOf_eq r := (hlinks.resolvedOf r).trans (h.resolvedOf_eq r)
  linksOf_eq v := (hlinks.linksOf v).trans (h.linksOf_eq v)
  pendingOf_eq x := (hlinks.pendingOf x).trans (h.pendingOf_eq x)
  throughOf_eq x := (hlinks.throughOf x).trans (h.throughOf_eq x)

/-- Settling a reference binds it, or hands it on if there is nothing for it. -/
theorem settles_settle (hg : g.WellFormed) (hs : (g.getScope? s).isSome) {r : ReferenceId}
    (hr : (g.getReference? r).isSome) : Settles g (g.settle t s r) s [r] (g.resolution? t s) := by
  have hupper (u : ScopeId) (hu : g.upper? s = some u) : (g.getScope? u).isSome :=
    isSome_getScope?_iff.2 (hg.upper_size (isSome_getScope?_iff.1 hs) hu)
  unfold settle
  split
  · next v hv =>
    obtain ⟨_, _, htable, _⟩ := inTable?_of_resolution? hv
    obtain ⟨variable', hvar, -⟩ := hg.inTable htable
    exact .link hr (by simp [hvar]) hv
  · next hnone => exact .delegate hs hupper hnone

/-- The references that wait are settled one by one, each as if it were the only one. -/
theorem settles_foldl_settle (hg : g.WellFormed) (hs : (g.getScope? s).isSome)
    {ids : List ReferenceId} (hids : ∀ r ∈ ids, (g.getReference? r).isSome) :
    Settles g (ids.foldl (settle t s) g) s ids (g.resolution? t s) := by
  apply Settles.foldl
  intro g' hframe r hr
  have hmeets : g.resolution? t s = g'.resolution? t s :=
    funext fun r => (hframe.resolution? t r List.not_mem_nil).symm
  rw [hmeets]
  refine settles_settle (hg.links hframe) ?_ ?_
  · rw [hframe.positions.isSome_getScope?]
    exact hs
  · rw [hframe.isSome_getReference?]
    exact hids r hr

omit [DecidableEq ν] in
theorem resolvedOf_taint (r x : ReferenceId) : (g.taint r).resolvedOf x = g.resolvedOf x := by
  rw [resolvedOf, taint, getReference?_modifyReference, resolvedOf]
  split <;> cases g.getReference? x <;> rfl

theorem Settles.taint (r : ReferenceId) (meets : ReferenceId → Option VariableId) :
    Settles g (g.taint r) s [] meets where
  frame := .taint r
  resolvedOf_eq x := by simp [resolvedOf_taint]
  linksOf_eq v := by simp [linksOf, ScopeGraph.taint]
  pendingOf_eq x := by simp [pendingOf, listOf, ScopeGraph.taint]
  throughOf_eq x := by simp [throughOf, listOf, ScopeGraph.taint]

theorem settles_foldl_delegate (hg : g.WellFormed) (hs : (g.getScope? s).isSome)
    (ids : List ReferenceId) :
    Settles g (ids.foldl (fun g r => (g.taint r).delegate s r) g) s ids fun _ => none := by
  apply Settles.foldl
  intro g' hframe r _
  have htaint := Settles.taint (g := g') (s := s) r fun _ => none
  have hpositions := hframe.positions.trans htaint.frame.positions
  refine htaint.trans (.delegate ?_ (fun u hu => ?_) rfl)
  · rw [hpositions.isSome_getScope?]
    exact hs
  · rw [hpositions.upper?] at hu
    rw [hpositions.isSome_getScope?]
    exact isSome_getScope?_iff.2 (hg.upper_size (isSome_getScope?_iff.1 hs) hu)

/-- A scope other than the global one settles what waits in it. -/
theorem settles_closeScope (hg : g.WellFormed) {scope : Scope ν} (hs : g.getScope? s = some scope)
    (hkind : scope.kind ≠ .global) (hids : ∀ r ∈ g.pendingOf s, (g.getReference? r).isSome) :
    Settles (g.emptied s) (g.closeScope t s) s (g.pendingOf s) (g.offer? t · s) := by
  have hframe := frame_emptied (g := g) (s := s)
  have hg' := hg.links hframe
  have hsome : ((g.emptied s).getScope? s).isSome := by
    rw [hframe.positions.isSome_getScope?, hs]
    rfl
  have hids' (r : ReferenceId) (hr : r ∈ g.pendingOf s) :
      ((g.emptied s).getReference? r).isSome := by
    rw [hframe.isSome_getReference?]
    exact hids r hr
  have hpending : g.pendingOf s = scope.pending.toList := by rw [pendingOf, listOf, hs]; rfl
  by_cases hwith : scope.kind = .withBody
  · have hoffer : (g.offer? t · s) = fun _ => none := by
      funext r
      simp [offer?, hs, hwith]
    have hclose : g.closeScope t s = (g.pendingOf s).foldl (fun g r => (g.taint r).delegate s r)
        (g.emptied s) := by
      simp [closeScope, hs, hwith, hpending, emptied]
    rw [hoffer, hclose]
    exact settles_foldl_delegate hg' hsome _
  · have hoffer : (g.offer? t · s) = (g.emptied s).resolution? t s := by
      funext r
      rw [hframe.resolution? t r List.not_mem_nil]
      simp [offer?, hs, hwith]
    have hclose : g.closeScope t s = (g.pendingOf s).foldl (settle t s) (g.emptied s) := by
      unfold closeScope
      rw [hs]
      cases hscope : scope.kind <;> simp_all [emptied]
    rw [hoffer, hclose]
    exact settles_foldl_settle hg' hsome hids'

section Innermost

variable (hg : g.WellFormed) (h : Settled g t (s :: outer)) (hs : s.index < g.scopes.size)
  (hglobal : s ≠ .global)
include hg h hs hglobal

/-- Closing the innermost scope settles what waits in it, a `with` body by handing all of it on. -/
theorem settles_innermost :
    Settles (g.emptied s) (g.closeScope t s) s (g.pendingOf s) (g.offer? t · s) := by
  obtain ⟨scope, hscope⟩ := getScope?_of_lt hs
  exact settles_closeScope hg hscope (fun hkind => hglobal ((hg.kind_global hscope).1 hkind))
    fun r => h.isSome_getReference? hg hs (List.mem_cons_self ..)

theorem frame_closeScope : Frame [] g (g.closeScope t s) :=
  frame_emptied.trans (settles_innermost hg h hs hglobal).frame

/-- Closing the innermost open scope, unless it is the global one. -/
theorem closing_closeScope (hchain : g.chain s = s :: outer) :
    Closing g (g.closeScope t s) t s outer := by
  have hframe := frame_closeScope hg h hs hglobal
  have hoffer : (g.offer? t · s) = ((g.closeScope t s).offer? t · s) :=
    funext fun r => (hframe.offer? t r List.not_mem_nil).symm
  have hpending (r : ReferenceId) (hr : r ∈ g.pendingOf s) : g.resolvedOf r = none :=
    ((h.pending s (List.mem_cons_self ..) r).1 hr).1
  exact {
    wellFormed := hg
    wellFormed_closed := hg.links hframe
    settled := h
    lt_size := hs
    chain_eq := hchain
    frame := hframe.mono (List.nil_subset _)
    closes := hoffer ▸ .of_settles frame_emptied (.refl _)
      (settles_innermost hg h hs hglobal) hpending
      fun hself => Nat.lt_irrefl _ (hg.upper_lt hself) }

end Innermost

end CloseScope

end LexicalScope.ScopeGraph
