import LexicalScope.Proofs.Settled

/-!
Growing a graph. Opening a scope inside the innermost open one, declaring a name in an open scope
and recording a reference in the innermost one keep the picture of `Settled`: nothing waits in
the new scope yet, closed scopes keep what they offer, and the new reference waits where it
stands.
-/
namespace LexicalScope.ScopeGraph

variable {ν : Type} [DecidableEq ν]

section Open

variable {g : ScopeGraph ν} {t : Tree} {u : ScopeId} {kind : ScopeKind} {block : NodeId}
  {strict : Bool}

variable (kind block strict) in
omit [DecidableEq ν] in
theorem position_openScope (upper : Option ScopeId) {x : ScopeId} (hx : x ≠ g.nextScope) :
    ((g.openScope kind block strict upper).getScope? x).map Scope.position =
      (g.getScope? x).map Scope.position := by
  rw [getScope?_openScope, if_neg hx]
  split <;> cases g.getScope? x <;> rfl

theorem offer?_openScope (upper : Option ScopeId) {x : ScopeId} (hx : x ≠ g.nextScope)
    (r : ReferenceId) : (g.openScope kind block strict upper).offer? t r x = g.offer? t r x :=
  offer?_congr (position_openScope kind block strict upper hx) (by rw [getReference?_openScope])
    (fun name => inTable?_openScope g kind block strict upper x name)
    (fun _ v _ => by rw [getVariable?_openScope]) t

variable (kind block strict) in
theorem WellFormed.wayOf_openScope (hg : g.WellFormed) (hu : u.index < g.scopes.size)
    (r : ReferenceId) : (g.openScope kind block strict (some u)).wayOf r = g.wayOf r := by
  rw [wayOf, getReference?_openScope, wayOf]
  cases hr : g.getReference? r with
  | none => rfl
  | some reference => exact hg.chain_openScope _ _ _ hu (hg.origin_lt hr)

omit [DecidableEq ν] in
theorem listOf_nextScope (field : Scope ν → Array ReferenceId) :
    listOf field g g.nextScope = [] := by
  rw [listOf, getScope?_nextScope]
  rfl

omit [DecidableEq ν] in
theorem listOf_openScope {field : Scope ν → Array ReferenceId} (upper : Option ScopeId)
    (hfield : ∀ s children, field { s with children } = field s)
    (hnew : field (g.opening kind block strict upper) = #[]) (x : ScopeId) :
    listOf field (g.openScope kind block strict upper) x = listOf field g x := by
  by_cases hx : x = g.nextScope
  · rw [hx, listOf_nextScope, listOf, getScope?_openScope, if_pos rfl, Option.elim_some, hnew]
  · rw [listOf, getScope?_openScope, if_neg hx, listOf]
    split <;> cases g.getScope? x <;> simp [hfield]

omit [DecidableEq ν] in
theorem pendingOf_openScope (upper : Option ScopeId) (x : ScopeId) :
    (g.openScope kind block strict upper).pendingOf x = g.pendingOf x :=
  listOf_openScope upper (fun _ _ => rfl) rfl x

omit [DecidableEq ν] in
theorem throughOf_openScope (upper : Option ScopeId) (x : ScopeId) :
    (g.openScope kind block strict upper).throughOf x = g.throughOf x :=
  listOf_openScope upper (fun _ _ => rfl) rfl x

omit [DecidableEq ν] in
theorem resolvedOf_openScope (upper : Option ScopeId) (r : ReferenceId) :
    (g.openScope kind block strict upper).resolvedOf r = g.resolvedOf r := by
  rw [resolvedOf, getReference?_openScope, resolvedOf]

omit [DecidableEq ν] in
theorem linksOf_openScope (upper : Option ScopeId) (v : VariableId) :
    (g.openScope kind block strict upper).linksOf v = g.linksOf v := by
  rw [linksOf, getVariable?_openScope, linksOf]

theorem WellFormed.nextScope_not_mem_wayOf (hg : g.WellFormed) (r : ReferenceId) :
    g.nextScope ∉ g.wayOf r :=
  fun hmem => Nat.lt_irrefl _ (hg.size_of_mem_wayOf hmem)

/-- No reference comes through a scope that has just been opened. -/
theorem WellFormed.climbed_openScope (hg : g.WellFormed) (hu : u.index < g.scopes.size)
    (opened : List ScopeId) (r : ReferenceId) :
    (g.openScope kind block strict (some u)).climbed (g.nextScope :: opened) r =
      g.climbed opened r := by
  rw [climbed, hg.wayOf_openScope kind block strict hu,
    climbed_eq_of_not_mem (hg.nextScope_not_mem_wayOf r), climbed]

theorem WellFormed.offer?_openScope (hg : g.WellFormed) (upper : Option ScopeId) {r : ReferenceId}
    {x : ScopeId} (hx : x ∈ g.wayOf r) :
    (g.openScope kind block strict upper).offer? t r x = g.offer? t r x :=
  ScopeGraph.offer?_openScope upper (ne_nextScope_of_lt (hg.size_of_mem_wayOf hx)) r

namespace Settled

variable {opened : List ScopeId} (h : Settled g t opened)
include h

theorem resolved_openScope (hg : g.WellFormed) (hu : u.index < g.scopes.size) (r : ReferenceId) :
    (g.openScope kind block strict (some u)).resolvedOf r =
      ((g.openScope kind block strict (some u)).climbed (g.nextScope :: opened) r).findSome?
        ((g.openScope kind block strict (some u)).offer? t r) := by
  rw [resolvedOf_openScope, hg.climbed_openScope hu, h.resolved]
  exact findSome?_congr fun x hx => (hg.offer?_openScope _ (mem_climbed hx).1).symm

/-- Nothing waits in the new scope, and the way of no reference ends in its chain. -/
theorem pending_openScope (hg : g.WellFormed) (hu : u.index < g.scopes.size)
    (hopened : opened = g.chain u) {x : ScopeId} (hx : x ∈ g.nextScope :: opened)
    (r : ReferenceId) :
    r ∈ (g.openScope kind block strict (some u)).pendingOf x ↔
      (g.openScope kind block strict (some u)).resolvedOf r = none ∧
      (g.openScope kind block strict (some u)).wayOf r =
        (g.openScope kind block strict (some u)).climbed (g.nextScope :: opened) r ++
          (g.openScope kind block strict (some u)).chain x := by
  rw [pendingOf_openScope, resolvedOf_openScope, hg.wayOf_openScope kind block strict hu,
    hg.climbed_openScope hu]
  rcases List.mem_cons.1 hx with rfl | hx
  · have hnone : g.pendingOf g.nextScope = [] := listOf_nextScope _
    rw [hnone, hg.chain_nextScope _ _ _ hu]
    constructor
    · intro hr
      cases hr
    · rintro ⟨_, hsplit⟩
      apply absurd _ (hg.nextScope_not_mem_wayOf r)
      rw [hsplit]
      simp
  · rw [hg.chain_openScope _ _ _ hu (hg.size_of_mem_chain hu (hopened ▸ hx))]
    exact h.pending x hx r

theorem pending_ascending_openScope (upper : Option ScopeId) :
    Ascending ((g.nextScope :: opened).reverse.flatMap
      (g.openScope kind block strict upper).pendingOf) := by
  have hnone : g.pendingOf g.nextScope = [] := listOf_nextScope _
  rw [funext (pendingOf_openScope upper), List.reverse_cons, List.flatMap_append,
    List.flatMap_singleton, hnone, List.append_nil]
  exact h.pending_ascending

theorem through_open_openScope (upper : Option ScopeId) {x : ScopeId}
    (hx : x ∈ g.nextScope :: opened) : (g.openScope kind block strict upper).throughOf x = [] := by
  rw [throughOf_openScope]
  rcases List.mem_cons.1 hx with rfl | hx
  · exact listOf_nextScope _
  · exact h.through_open x hx

/-- Closed scopes offer what they offered before. -/
theorem through_openScope (hg : g.WellFormed) (hu : u.index < g.scopes.size) {x : ScopeId}
    (hx : x ∉ opened) (r : ReferenceId) :
    r ∈ (g.openScope kind block strict (some u)).throughOf x ↔
      x ∈ (g.openScope kind block strict (some u)).wayOf r ∧
      ∀ y ∈ (g.openScope kind block strict (some u)).wayOf r,
        x ∈ (g.openScope kind block strict (some u)).chain y →
        (g.openScope kind block strict (some u)).offer? t r y = none := by
  rw [throughOf_openScope, h.through x hx, hg.wayOf_openScope kind block strict hu]
  apply and_congr_right
  intro _
  apply forall₂_congr
  intro y hy
  rw [hg.chain_openScope _ _ _ hu (hg.size_of_mem_wayOf hy), hg.offer?_openScope _ hy]

end Settled

/-- Nothing waits in the new scope, and nothing has come through it. -/
theorem Settled.openScope (hg : g.WellFormed) {opened : List ScopeId} (h : Settled g t opened)
    (hu : u.index < g.scopes.size) (hopened : opened = g.chain u) :
    Settled (g.openScope kind block strict (some u)) t (g.nextScope :: opened) where
  resolved := h.resolved_openScope hg hu
  links v r := by
    rw [linksOf_openScope, resolvedOf_openScope]
    exact h.links v r
  links_ascending v := by
    rw [linksOf_openScope]
    exact h.links_ascending v
  pending _ hx := h.pending_openScope hg hu hopened hx
  pending_closed x hx := by
    rw [pendingOf_openScope]
    exact h.pending_closed x fun hmem => hx (List.mem_cons_of_mem _ hmem)
  pending_ascending := h.pending_ascending_openScope (some u)
  through_open _ hx := h.through_open_openScope (some u) hx
  through _ hx := h.through_openScope hg hu fun hmem => hx (List.mem_cons_of_mem _ hmem)
  through_ascending x := by
    rw [throughOf_openScope]
    exact h.through_ascending x

end Open

section Refer

variable {g : ScopeGraph ν} {t : Tree} {reference : Reference ν}

omit [DecidableEq ν] in
theorem getReference?_nextReference (g : ScopeGraph ν) : g.getReference? g.nextReference = none :=
  Array.getElem?_eq_none (Nat.le_refl _)

omit [DecidableEq ν] in
theorem wayOf_nextReference (g : ScopeGraph ν) : g.wayOf g.nextReference = [] := by
  rw [wayOf, getReference?_nextReference]
  rfl

omit [DecidableEq ν] in
theorem index_lt_of_getReference? {r : ReferenceId} {reference : Reference ν}
    (hr : g.getReference? r = some reference) : r.index < g.nextReference.index :=
  (Array.getElem?_eq_some_iff.1 hr).1

omit [DecidableEq ν] in
/-- The way of the new reference begins where it stands. -/
theorem wayOf_addReference (r : ReferenceId) :
    (g.addReference reference).wayOf r =
      if r = g.nextReference then g.chain reference.origin else g.wayOf r := by
  have hchain := (samePositions_addReference g reference).chain
  rw [wayOf, getReference?_addReference, wayOf]
  split
  · exact hchain reference.origin
  · cases g.getReference? r with
    | none => rfl
    | some reference' => exact hchain reference'.origin

omit [DecidableEq ν] in
theorem resolvedOf_addReference (hnone : reference.resolved = none) (r : ReferenceId) :
    (g.addReference reference).resolvedOf r = g.resolvedOf r := by
  rw [resolvedOf, getReference?_addReference, resolvedOf]
  split
  · next hr =>
    rw [hr, getReference?_nextReference]
    exact hnone
  · rfl

omit [DecidableEq ν] in
theorem pendingOf_addReference (ho : reference.origin.index < g.scopes.size) (x : ScopeId) :
    (g.addReference reference).pendingOf x =
      g.pendingOf x ++ if x = reference.origin then [g.nextReference] else [] :=
  listOf_push (isSome_getScope?_iff.2 ho) (by exact fun _ => rfl) x

omit [DecidableEq ν] in
theorem throughOf_addReference (x : ScopeId) :
    (g.addReference reference).throughOf x = g.throughOf x :=
  listOf_modifyScope (by exact fun _ => rfl) reference.origin x

theorem offer?_addReference {r : ReferenceId} (hr : r ≠ g.nextReference) (x : ScopeId) :
    (g.addReference reference).offer? t r x = g.offer? t r x :=
  offer?_congr (samePositions_addReference g reference x)
    (by rw [getReference?_addReference, if_neg hr]) (inTable?_addReference g reference x)
    (fun _ _ _ => rfl) t

omit [DecidableEq ν] in
theorem resolvedOf_nextReference (g : ScopeGraph ν) : g.resolvedOf g.nextReference = none := by
  rw [resolvedOf, getReference?_nextReference]
  rfl

omit [DecidableEq ν] in
theorem climbed_addReference {r : ReferenceId} (hr : r ≠ g.nextReference) (opened : List ScopeId) :
    (g.addReference reference).climbed opened r = g.climbed opened r := by
  rw [climbed, wayOf_addReference, if_neg hr, climbed]

omit [DecidableEq ν] in
/-- The new reference stands in an open scope. -/
theorem climbed_nextReference :
    (g.addReference reference).climbed (g.chain reference.origin) g.nextReference = [] := by
  rw [climbed, wayOf_addReference, if_pos rfl]
  cases g.chain reference.origin <;> simp

namespace Settled

variable {opened : List ScopeId} (h : Settled g t opened)
include h

/-- What waits is older than the new reference. -/
theorem index_lt_of_mem_pendingOf (hg : g.WellFormed) {x : ScopeId} (hx : x ∈ opened)
    (hsize : x.index < g.scopes.size) {r : ReferenceId} (hr : r ∈ g.pendingOf x) :
    r.index < g.nextReference.index := by
  obtain ⟨reference, hr⟩ := Option.isSome_iff_exists.1 (h.isSome_getReference? hg hsize hx hr)
  exact index_lt_of_getReference? hr

variable (hopened : opened = g.chain reference.origin) (hnone : reference.resolved = none)
include hopened hnone

theorem resolved_addReference (r : ReferenceId) : (g.addReference reference).resolvedOf r =
    ((g.addReference reference).climbed opened r).findSome?
      ((g.addReference reference).offer? t r) := by
  rw [resolvedOf_addReference hnone]
  by_cases hr : r = g.nextReference
  · rw [hr, hopened, climbed_nextReference, resolvedOf_nextReference, List.findSome?_nil]
  · rw [climbed_addReference hr, h.resolved]
    exact findSome?_congr fun x _ => (offer?_addReference hr x).symm

/-- The new reference waits where its way begins. -/
theorem pending_addReference (hg : g.WellFormed) (ho : reference.origin.index < g.scopes.size)
    {x : ScopeId} (hx : x ∈ opened) (r : ReferenceId) :
    r ∈ (g.addReference reference).pendingOf x ↔ (g.addReference reference).resolvedOf r = none ∧
      (g.addReference reference).wayOf r =
        (g.addReference reference).climbed opened r ++ (g.addReference reference).chain x := by
  have hsize : x.index < g.scopes.size := hg.size_of_mem_chain ho (hopened ▸ hx)
  rw [pendingOf_addReference ho, resolvedOf_addReference hnone,
    (samePositions_addReference g reference).chain, List.mem_append, wayOf_addReference]
  by_cases hr : r = g.nextReference
  · have hnew : g.nextReference ∉ g.pendingOf x := fun hmem =>
      Nat.lt_irrefl _ (h.index_lt_of_mem_pendingOf hg hx hsize hmem)
    have hsame : g.chain reference.origin = g.chain x ↔ x = reference.origin := by
      constructor
      · intro heq
        rw [hg.chain_eq ho, hg.chain_eq hsize] at heq
        exact (List.cons.inj heq).1.symm
      · intro heq
        rw [heq]
    rw [hr, hopened, climbed_nextReference, resolvedOf_nextReference, if_pos rfl]
    simp [hnew, hsame]
  · have hother : r ∉ if x = reference.origin then [g.nextReference] else [] := by
      split <;> simp [hr]
    rw [climbed_addReference hr, if_neg hr, h.pending x hx]
    simp [hother]

omit hnone in
theorem pending_closed_addReference (hg : g.WellFormed)
    (ho : reference.origin.index < g.scopes.size) {x : ScopeId} (hx : x ∉ opened) :
    (g.addReference reference).pendingOf x = [] := by
  have hne : x ≠ reference.origin := by
    rintro rfl
    exact hx (hopened ▸ hg.mem_chain_self ho)
  rw [pendingOf_addReference ho, if_neg hne, List.append_nil]
  exact h.pending_closed x hx

omit hnone in
/-- The youngest reference comes last, as the innermost open scope does. -/
theorem pending_ascending_addReference (hg : g.WellFormed)
    (ho : reference.origin.index < g.scopes.size) :
    Ascending (opened.reverse.flatMap (g.addReference reference).pendingOf) := by
  obtain ⟨rest, hrest⟩ : ∃ rest, g.chain reference.origin = reference.origin :: rest :=
    ⟨_, hg.chain_eq ho⟩
  have hnodup := hg.nodup_chain ho
  rw [hrest] at hnodup
  have hother : ∀ x ∈ rest.reverse, (g.addReference reference).pendingOf x = g.pendingOf x := by
    intro x hx
    have hne : x ≠ reference.origin := fun heq =>
      (List.nodup_cons.1 hnodup).1 (heq ▸ List.mem_reverse.1 hx)
    rw [pendingOf_addReference ho, if_neg hne, List.append_nil]
  have hall : (g.addReference reference).pendingOf reference.origin =
      g.pendingOf reference.origin ++ [g.nextReference] := by
    rw [pendingOf_addReference ho, if_pos rfl]
  have hold : ∀ r ∈ opened.reverse.flatMap g.pendingOf, r.index < g.nextReference.index := by
    intro r hr
    obtain ⟨x, hx, hr⟩ := List.mem_flatMap.1 hr
    have hx := List.mem_reverse.1 hx
    exact h.index_lt_of_mem_pendingOf hg hx (hg.size_of_mem_chain ho (hopened ▸ hx)) hr
  have hsplit : opened.reverse.flatMap (g.addReference reference).pendingOf =
      opened.reverse.flatMap g.pendingOf ++ [g.nextReference] := by
    rw [hopened, hrest, List.reverse_cons, List.flatMap_append, List.flatMap_append,
      List.flatMap_singleton, List.flatMap_singleton, List.flatMap_congr hother, hall,
      List.append_assoc]
  rw [hsplit]
  refine List.pairwise_append.2 ⟨h.pending_ascending, List.pairwise_singleton _ _, ?_⟩
  intro r hr r' hr'
  rw [List.mem_singleton.1 hr']
  exact hold r hr

omit hnone in
/-- The new reference has come through no closed scope. -/
theorem through_addReference {x : ScopeId} (hx : x ∉ opened) (r : ReferenceId) :
    r ∈ (g.addReference reference).throughOf x ↔ x ∈ (g.addReference reference).wayOf r ∧
      ∀ y ∈ (g.addReference reference).wayOf r, x ∈ (g.addReference reference).chain y →
        (g.addReference reference).offer? t r y = none := by
  rw [throughOf_addReference, h.through x hx, wayOf_addReference]
  by_cases hr : r = g.nextReference
  · rw [hr, wayOf_nextReference, if_pos rfl, ← hopened]
    simp [hx]
  · rw [if_neg hr]
    apply and_congr_right
    intro _
    apply forall₂_congr
    intro y _
    rw [(samePositions_addReference g reference).chain, offer?_addReference hr]

end Settled

/-- The new reference waits in the innermost open scope. -/
theorem Settled.addReference (hg : g.WellFormed) {opened : List ScopeId} (h : Settled g t opened)
    (ho : reference.origin.index < g.scopes.size) (hopened : opened = g.chain reference.origin)
    (hnone : reference.resolved = none) : Settled (g.addReference reference) t opened where
  resolved := h.resolved_addReference hopened hnone
  links v r := by
    rw [resolvedOf_addReference hnone]
    exact h.links v r
  links_ascending := h.links_ascending
  pending _ hx := h.pending_addReference hopened hnone hg ho hx
  pending_closed _ hx := h.pending_closed_addReference hopened hg ho hx
  pending_ascending := h.pending_ascending_addReference hopened hg ho
  through_open x hx := by
    rw [throughOf_addReference]
    exact h.through_open x hx
  through _ hx := h.through_addReference hopened hx
  through_ascending x := by
    rw [throughOf_addReference]
    exact h.through_ascending x

end Refer

section Declare

variable {g : ScopeGraph ν} {t : Tree} {s : ScopeId}

theorem linksOf_bind (g : ScopeGraph ν) (s : ScopeId) (name : ν) (v : VariableId) :
    (g.bind s name).1.linksOf v = g.linksOf v := by
  rw [linksOf, getVariable?_bind, linksOf]
  split
  · next h =>
    rw [h.1, getVariable?_nextVariable]
    rfl
  · rfl

theorem Revises.sameLinks {g' : ScopeGraph ν} {name : ν} {f : Variable ν → Variable ν}
    (h : Revises g g' s name f) (hf : ∀ v, (f v).references = v.references) : SameLinks g g' where
  resolvedOf r := by rw [resolvedOf, h.getReference?_eq, resolvedOf]
  linksOf v := by
    rw [linksOf, h.getVariable?_eq, ← linksOf_bind g s name, linksOf]
    split
    · cases (g.bind s name).1.getVariable? v <;> simp [hf]
    · rfl
  pendingOf := h.listOf_eq fun _ _ => rfl
  throughOf := h.listOf_eq fun _ _ => rfl

theorem Settled.declare (hg : g.WellFormed) {opened : List ScopeId} (h : Settled g t opened)
    (hopened : ∀ x ∈ opened, ∀ y ∈ g.chain x, y ∈ opened) (hmem : s ∈ opened)
    (name : ν) (d : Option Definition) : Settled (g.declare s name d) t opened := by
  have hrevises := revises_declare g s name d
  refine h.frame hopened ((hg.frame_of_revises hrevises).mono ?_) (hrevises.sameLinks ?_)
  · exact fun _ hx => List.mem_singleton.1 hx ▸ hmem
  · exact fun _ => by cases d <;> rfl

end Declare

omit [DecidableEq ν] in
theorem listOf_root {field : Scope ν → Array ReferenceId} {block : NodeId} {strict : Bool}
    (hfield : field (opening {} .global block strict none) = #[]) (s : ScopeId) :
    listOf field (root block strict : ScopeGraph ν) s = [] := by
  rw [listOf, getScope?_root]
  split
  · rw [Option.elim_some, hfield]
  · rfl

/-- Nothing refers to anything yet. -/
theorem settled_root (t : Tree) (block : NodeId) (strict : Bool) :
    Settled (root block strict : ScopeGraph ν) t [.global] where
  resolved _ := rfl
  links v r := by
    constructor
    · intro hr
      cases hr
    · intro hr
      cases hr
  links_ascending _ := List.Pairwise.nil
  pending s hs r := by
    obtain rfl := List.mem_singleton.1 hs
    rw [pendingOf, listOf_root rfl]
    constructor
    · intro hr
      cases hr
    · rintro ⟨_, hway⟩
      have hrooted : (root block strict : ScopeGraph ν).Rooted := rooted_root block strict
      have hmem := hrooted.mem_chain_self (s := .global) Nat.zero_lt_one
      exact absurd (hway ▸ List.mem_append_right _ hmem) List.not_mem_nil
  pending_closed s _ := listOf_root rfl s
  pending_ascending := by
    rw [List.reverse_singleton, List.flatMap_singleton, pendingOf, listOf_root rfl]
    exact List.Pairwise.nil
  through_open s _ := listOf_root rfl s
  through s _ r := by
    rw [throughOf, listOf_root rfl]
    exact ⟨fun hr => absurd hr List.not_mem_nil, fun hr => absurd hr.1 List.not_mem_nil⟩
  through_ascending s := by
    rw [throughOf, listOf_root rfl]
    exact List.Pairwise.nil

end LexicalScope.ScopeGraph
