import LexicalScope.Proofs.Frame

/-!
Where references are listed, and what closing a scope does with them. `Settles` says where a list
of references ends up that has come to a scope, given the variable that each of them meets there.
-/
namespace LexicalScope.ScopeGraph

variable {ν : Type}

def resolvedOf (g : ScopeGraph ν) (r : ReferenceId) : Option VariableId :=
  (g.getReference? r).bind (·.resolved)

def linksOf (g : ScopeGraph ν) (v : VariableId) : List ReferenceId :=
  (g.getVariable? v).elim [] (·.references.toList)

/-- All bindings and lists of references are the same. -/
structure SameLinks (g g' : ScopeGraph ν) : Prop where
  resolvedOf : ∀ r, g'.resolvedOf r = g.resolvedOf r
  linksOf : ∀ v, g'.linksOf v = g.linksOf v
  pendingOf : ∀ s, g'.pendingOf s = g.pendingOf s
  throughOf : ∀ s, g'.throughOf s = g.throughOf s

theorem SameLinks.refl (g : ScopeGraph ν) : SameLinks g g :=
  ⟨fun _ => rfl, fun _ => rfl, fun _ => rfl, fun _ => rfl⟩

theorem SameLinks.trans {g g' g'' : ScopeGraph ν} (h : SameLinks g g') (h' : SameLinks g' g'') :
    SameLinks g g'' where
  resolvedOf r := (h'.resolvedOf r).trans (h.resolvedOf r)
  linksOf v := (h'.linksOf v).trans (h.linksOf v)
  pendingOf s := (h'.pendingOf s).trans (h.pendingOf s)
  throughOf s := (h'.throughOf s).trans (h.throughOf s)

variable [DecidableEq ν]

/-- Going from `g` to `g'`, the references `ids` have come to scope `s`. Those that meet a
variable there are bound to it, the others wait in the scope around `s`. -/
structure Settles (g g' : ScopeGraph ν) (s : ScopeId) (ids : List ReferenceId)
    (meets : ReferenceId → Option VariableId) : Prop where
  frame : Frame [] g g'
  resolvedOf_eq : ∀ r, g'.resolvedOf r = if r ∈ ids then (meets r).or (g.resolvedOf r)
    else g.resolvedOf r
  linksOf_eq : ∀ v, g'.linksOf v = g.linksOf v ++ ids.filter (meets · = some v)
  pendingOf_eq : ∀ x, g'.pendingOf x = g.pendingOf x ++
    if g.upper? s = some x then ids.filter (meets · = none) else []
  throughOf_eq : ∀ x, g'.throughOf x = g.throughOf x ++
    if x = s then ids.filter (meets · = none) else []

namespace Settles

variable {g g' g'' : ScopeGraph ν} {s : ScopeId} {ids ids' : List ReferenceId}
  {meets : ReferenceId → Option VariableId}

theorem refl (g : ScopeGraph ν) (s : ScopeId) (meets : ReferenceId → Option VariableId) :
    Settles g g s [] meets where
  frame := .refl [] g
  resolvedOf_eq r := by simp
  linksOf_eq v := by simp
  pendingOf_eq x := by simp
  throughOf_eq x := by simp

/-- Lists of references are settled one after the other. -/
theorem trans (h : Settles g g' s ids meets) (h' : Settles g' g'' s ids' meets) :
    Settles g g'' s (ids ++ ids') meets where
  frame := h.frame.trans h'.frame
  resolvedOf_eq r := by
    rw [h'.resolvedOf_eq, h.resolvedOf_eq]
    by_cases hr : r ∈ ids <;> by_cases hr' : r ∈ ids' <;> simp only [hr, hr', if_true, if_false,
      List.mem_append, or_true, or_false, or_self]
    cases meets r <;> simp
  linksOf_eq v := by
    rw [h'.linksOf_eq, h.linksOf_eq, List.filter_append, List.append_assoc]
  pendingOf_eq x := by
    rw [h'.pendingOf_eq, h.pendingOf_eq, h.frame.positions.upper?, List.append_assoc]
    split <;> simp
  throughOf_eq x := by
    rw [h'.throughOf_eq, h.throughOf_eq, List.append_assoc]
    split <;> simp

theorem congr (h : Settles g g' s ids meets) {meets' : ReferenceId → Option VariableId}
    (hmeets : ∀ r ∈ ids, meets r = meets' r) : Settles g g' s ids meets' where
  frame := h.frame
  resolvedOf_eq r := by
    rw [h.resolvedOf_eq]
    split
    · next hr => rw [hmeets r hr]
    · rfl
  linksOf_eq v := by
    rw [h.linksOf_eq, List.filter_congr fun r hr => by rw [hmeets r hr]]
  pendingOf_eq x := by
    rw [h.pendingOf_eq, List.filter_congr fun r hr => by rw [hmeets r hr]]
  throughOf_eq x := by
    rw [h.throughOf_eq, List.filter_congr fun r hr => by rw [hmeets r hr]]

/-- References that come one after the other. -/
theorem foldl {step : ScopeGraph ν → ReferenceId → ScopeGraph ν} {g : ScopeGraph ν}
    {ids : List ReferenceId}
    (hstep : ∀ g', Frame [] g g' → ∀ r ∈ ids, Settles g' (step g' r) s [r] meets) :
    Settles g (ids.foldl step g) s ids meets := by
  induction ids generalizing g with
  | nil => exact refl g s meets
  | cons r ids ih =>
    have h := hstep g (.refl [] g) r (List.mem_cons_self ..)
    apply h.trans
    apply ih
    intro g' hg' r' hr'
    exact hstep g' (h.frame.trans hg') r' (List.mem_cons_of_mem _ hr')

/-- Binding settles a reference that has met its variable. -/
theorem link {r : ReferenceId} {v : VariableId} (hr : (g.getReference? r).isSome)
    (hv : (g.getVariable? v).isSome) (hmeets : meets r = some v) :
    Settles g (g.link r v) s [r] meets where
  frame := .link r v
  resolvedOf_eq x := by
    obtain ⟨reference, href⟩ := Option.isSome_iff_exists.1 hr
    simp only [resolvedOf, ScopeGraph.link, getReference?_modifyVariable,
      getReference?_modifyReference, List.mem_singleton]
    by_cases hx : x = r
    · subst hx
      simp [href, hmeets]
    · simp [hx]
  linksOf_eq x := by
    obtain ⟨variable', hvar⟩ := Option.isSome_iff_exists.1 hv
    simp only [linksOf, ScopeGraph.link, getVariable?_modifyVariable,
      getVariable?_modifyReference]
    by_cases hx : x = v
    · subst hx
      simp [hvar, hmeets]
    · simp [hx, hmeets, Ne.symm hx]
  pendingOf_eq x := by simp [pendingOf, listOf, ScopeGraph.link, hmeets]
  throughOf_eq x := by simp [throughOf, listOf, ScopeGraph.link, hmeets]

/-- Handing on settles a reference that has met nothing. -/
theorem delegate {r : ReferenceId} (hs : (g.getScope? s).isSome)
    (hupper : ∀ u, g.upper? s = some u → (g.getScope? u).isSome) (hmeets : meets r = none) :
    Settles g (g.delegate s r) s [r] meets where
  frame := .delegate s r
  resolvedOf_eq x := by
    have hsame : (g.delegate s r).resolvedOf x = g.resolvedOf x := by
      unfold resolvedOf ScopeGraph.delegate
      cases (g.getScope? s).bind (·.upper) <;> rfl
    rw [hsame]
    split
    · next hx => simp [List.mem_singleton.1 hx, hmeets]
    · rfl
  linksOf_eq x := by
    have hsame : (g.delegate s r).linksOf x = g.linksOf x := by
      unfold linksOf ScopeGraph.delegate
      cases (g.getScope? s).bind (·.upper) <;> rfl
    simp [hsame, hmeets]
  pendingOf_eq x := by
    rw [ScopeGraph.delegate, pendingOf, listOf_modifyScope (by exact fun _ => rfl) s x]
    show _ = _ ++ if (g.getScope? s).bind (·.upper) = some x then _ else _
    cases hu : (g.getScope? s).bind (·.upper) with
    | none => simp [pendingOf]
    | some u =>
      refine (listOf_push (hupper u hu) (by exact fun _ => rfl) x).trans ?_
      simp [hmeets, pendingOf, eq_comm (a := u)]
  throughOf_eq x := by
    have hthrough (g' : ScopeGraph ν) (hs' : (g'.getScope? s).isSome) :
        (g'.modifyScope s fun s => { s with through := s.through.push r }).throughOf x =
          g'.throughOf x ++ if x = s then [r] else [] :=
      listOf_push hs' (by exact fun _ => rfl) x
    unfold ScopeGraph.delegate
    cases hu : (g.getScope? s).bind (·.upper) with
    | none => simpa [hmeets] using hthrough g hs
    | some u =>
      refine (hthrough _ ?_).trans ?_
      · simp only [Option.elim_some, getScope?_modifyScope]
        split <;> simp [hs]
      · rw [Option.elim_some, throughOf, listOf_modifyScope (by exact fun _ => rfl) u x]
        simp [hmeets, throughOf]

end Settles

end LexicalScope.ScopeGraph
