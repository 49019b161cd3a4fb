import LexicalScope.Proofs.Chain
import LexicalScope.Scope.Resolution

/-!
What operations leave as it is. No operation moves a scope, so the ways up stay the same. Apart
from the scopes that an operation touches, names keep their variables and these their
definitions, so untouched scopes have the same variable for a reference as before.
-/
namespace LexicalScope

variable {ν : Type}

/-- What never changes of a scope that is open or closed. -/
def Scope.position (s : Scope ν) : ScopeKind × Option ScopeId × ScopeId × NodeId :=
  (s.kind, s.upper, s.variableScope, s.block)

def Variable.unlinked (v : Variable ν) : Variable ν :=
  { v with references := #[], tainted := false }

def Reference.unlinked (r : Reference ν) : Reference ν :=
  { r with resolved := none, tainted := false }

namespace ScopeGraph

/-- Both graphs have the same scopes in the same places. -/
def SamePositions (g g' : ScopeGraph ν) : Prop :=
  ∀ s, (g'.getScope? s).map Scope.position = (g.getScope? s).map Scope.position

namespace SamePositions

variable {g g' g'' : ScopeGraph ν}

theorem refl (g : ScopeGraph ν) : g.SamePositions g :=
  fun _ => rfl

theorem trans (h : g.SamePositions g') (h' : g'.SamePositions g'') : g.SamePositions g'' :=
  fun s => (h' s).trans (h s)

theorem modifyScope {f : Scope ν → Scope ν} (hf : ∀ s, (f s).position = s.position) (s : ScopeId) :
    g.SamePositions (g.modifyScope s f) := by
  intro x
  rw [getScope?_modifyScope]
  split
  · cases g.getScope? x <;> simp [hf]
  · rfl

variable (h : g.SamePositions g')
include h

/-- Scopes in the same positions correspond to each other. -/
theorem exists_getScope? {s : ScopeId} {scope' : Scope ν} (hs : g'.getScope? s = some scope') :
    ∃ scope, g.getScope? s = some scope ∧ scope.position = scope'.position := by
  have hmap := h s
  rw [hs, Option.map_some] at hmap
  exact Option.map_eq_some_iff.1 hmap.symm

theorem isSome_getScope? (s : ScopeId) : (g'.getScope? s).isSome = (g.getScope? s).isSome := by
  simpa using congrArg Option.isSome (h s)

theorem lt_size_iff (s : ScopeId) : s.index < g'.scopes.size ↔ s.index < g.scopes.size := by
  rw [← isSome_getScope?_iff, ← isSome_getScope?_iff, h.isSome_getScope?]

theorem size_scopes : g'.scopes.size = g.scopes.size := by
  have hle := h.lt_size_iff ⟨g.scopes.size⟩
  have hge := h.lt_size_iff ⟨g'.scopes.size⟩
  simp only [Nat.lt_irrefl, iff_false, false_iff] at hle hge
  omega

theorem upper? (s : ScopeId) : g'.upper? s = g.upper? s := by
  have hmap := congrArg (Option.bind · (·.2.1)) (h s)
  simp only [Option.bind_map] at hmap
  exact hmap

theorem variableScope (s : ScopeId) : g'.variableScope s = g.variableScope s := by
  have hmap := congrArg (Option.elim · s (·.2.2.1)) (h s)
  simp only [Option.elim_map] at hmap
  exact hmap

theorem chainWithin (n : Nat) (s : ScopeId) : g'.chainWithin n s = g.chainWithin n s := by
  induction n generalizing s with
  | zero => rfl
  | succ n ih =>
    have hu : (g'.getScope? s).bind (·.upper) = (g.getScope? s).bind (·.upper) := h.upper? s
    simp only [ScopeGraph.chainWithin, hu]
    cases (g.getScope? s).bind (·.upper) with
    | none => rfl
    | some u => simp [ih]

theorem chain (s : ScopeId) : g'.chain s = g.chain s := by
  rw [ScopeGraph.chain, h.size_scopes, h.chainWithin, ScopeGraph.chain]

theorem rooted (hg : g.Rooted) : g'.Rooted where
  upper_lt hu := hg.upper_lt (h.upper? _ ▸ hu)
  isGlobal hs hu := hg.isGlobal ((h.lt_size_iff _).1 hs) (h.upper? _ ▸ hu)

end SamePositions

section Lists

variable {g : ScopeGraph ν} {field : Scope ν → Array ReferenceId}

def listOf (field : Scope ν → Array ReferenceId) (g : ScopeGraph ν) (s : ScopeId) :
    List ReferenceId :=
  (g.getScope? s).elim [] fun scope => (field scope).toList

def referencesOf (g : ScopeGraph ν) (s : ScopeId) : List ReferenceId :=
  listOf (·.references) g s

def pendingOf (g : ScopeGraph ν) (s : ScopeId) : List ReferenceId :=
  listOf (·.pending) g s

def throughOf (g : ScopeGraph ν) (s : ScopeId) : List ReferenceId :=
  listOf (·.through) g s

theorem listOf_modifyScope {f : Scope ν → Scope ν} (hf : ∀ s, field (f s) = field s)
    (s x : ScopeId) : listOf field (g.modifyScope s f) x = listOf field g x := by
  rw [listOf, getScope?_modifyScope, listOf]
  split <;> cases g.getScope? x <;> simp [hf]

/-- A reference is added at the end of one list of one scope. -/
theorem listOf_push {f : Scope ν → Scope ν} {r : ReferenceId} {s : ScopeId}
    (hs : (g.getScope? s).isSome) (hf : ∀ s, field (f s) = (field s).push r) (x : ScopeId) :
    listOf field (g.modifyScope s f) x = listOf field g x ++ if x = s then [r] else [] := by
  obtain ⟨scope, hscope⟩ := Option.isSome_iff_exists.1 hs
  rw [listOf, getScope?_modifyScope, listOf]
  by_cases hx : x = s
  · simp [hx, hscope, hf]
  · simp [hx]

end Lists

def tableOf (g : ScopeGraph ν) (s : ScopeId) : Option (OrderedMap ν VariableId) :=
  (g.getScope? s).map (·.table)

/-- The scopes on the way up from a reference. -/
def wayOf (g : ScopeGraph ν) (r : ReferenceId) : List ScopeId :=
  (g.getReference? r).elim [] (g.chain ·.origin)

variable [DecidableEq ν]

section Grow

/-- Going from `g` to `g'`, the variable of `name` in the table of `s` is revised by `f`, after
it was added if there was none. -/
structure Revises (g g' : ScopeGraph ν) (s : ScopeId) (name : ν) (f : Variable ν → Variable ν) :
    Prop where
  getScope?_eq : ∀ x, g'.getScope? x = (g.bind s name).1.getScope? x
  getReference?_eq : ∀ r, g'.getReference? r = g.getReference? r
  getVariable?_eq : ∀ v, g'.getVariable? v =
    if v = (g.bind s name).2 then ((g.bind s name).1.getVariable? v).map f
    else (g.bind s name).1.getVariable? v

theorem revises_declare (g : ScopeGraph ν) (s : ScopeId) (name : ν) (d : Option Definition) :
    Revises g (g.declare s name d) s name fun v => d.elim v v.define :=
  ⟨g.getScope?_declare s name d, g.getReference?_declare s name d, g.getVariable?_declare s name d⟩

namespace Revises

variable {g g' : ScopeGraph ν} {s : ScopeId} {name : ν} {f : Variable ν → Variable ν}
  (h : Revises g g' s name f)
include h

theorem samePositions : g.SamePositions g' := by
  intro x
  rw [h.getScope?_eq, getScope?_bind]
  split
  · cases g.getScope? x <;> rfl
  · rfl

theorem listOf_eq {field : Scope ν → Array ReferenceId}
    (hfield : ∀ s table, field { s with table } = field s) (x : ScopeId) :
    listOf field g' x = listOf field g x := by
  rw [listOf, h.getScope?_eq, getScope?_bind, listOf]
  split <;> cases g.getScope? x <;> simp [hfield]

theorem inTable?_eq (hs : s.index < g.scopes.size) (x : ScopeId) (m : ν) :
    g'.inTable? x m = if x = s ∧ m = name then some (g.bind s name).2 else g.inTable? x m := by
  rw [← g.inTable?_bind s name hs, inTable?, h.getScope?_eq, inTable?]

end Revises

omit [DecidableEq ν] in
theorem samePositions_addReference (g : ScopeGraph ν) (reference : Reference ν) :
    g.SamePositions (g.addReference reference) := by
  intro x
  rw [getScope?_addReference]
  split
  · cases g.getScope? x <;> rfl
  · rfl

theorem inTable?_addReference (g : ScopeGraph ν) (reference : Reference ν) (x : ScopeId)
    (name : ν) : (g.addReference reference).inTable? x name = g.inTable? x name := by
  rw [inTable?, getScope?_addReference, inTable?]
  split <;> cases g.getScope? x <;> rfl

end Grow

theorem inTable?_eq_bind (g : ScopeGraph ν) (s : ScopeId) (name : ν) :
    g.inTable? s name = (g.tableOf s).bind (·.get? name) := by
  rw [inTable?, tableOf, Option.bind_map]
  rfl

/-- The variable that scope `s` has for a reference that comes up to it. A `with` body has
none. -/
def offer? (g : ScopeGraph ν) (t : Tree) (r : ReferenceId) (s : ScopeId) : Option VariableId :=
  if (g.getScope? s).any (·.kind = .withBody) then none else g.resolution? t s r

/-- Going from `g` to `g'`, all scopes and references stay where they are, and outside `touched`
also the tables with their variables stay as they are, up to bindings. -/
structure Frame (touched : List ScopeId) (g g' : ScopeGraph ν) : Prop where
  positions : g.SamePositions g'
  referencesOf_eq : ∀ s, g'.referencesOf s = g.referencesOf s
  reference_eq : ∀ r,
    (g'.getReference? r).map Reference.unlinked = (g.getReference? r).map Reference.unlinked
  tableOf_eq : ∀ s, s ∉ touched → g'.tableOf s = g.tableOf s
  variable_eq : ∀ s, s ∉ touched → ∀ name v, g.inTable? s name = some v →
    (g'.getVariable? v).map Variable.unlinked = (g.getVariable? v).map Variable.unlinked

omit [DecidableEq ν] in
theorem functionBody?_eq (g : ScopeGraph ν) (t : Tree) {s : ScopeId} {scope : Scope ν}
    (hs : g.getScope? s = some scope) :
    g.functionBody? t s =
      if scope.kind = .function then (t.kind? scope.block).bind NodeKind.functionBody?
      else none := by
  obtain ⟨id, kind, isStrict, upper, children, variableScope, block, table, references, through,
    thisFound, pending⟩ := scope
  cases kind <;> simp [functionBody?, hs]

section Offer

variable {g g' : ScopeGraph ν} {s : ScopeId}
  (hposition : (g'.getScope? s).map Scope.position = (g.getScope? s).map Scope.position)
include hposition

omit [DecidableEq ν] in
/-- The body of a function scope depends on the position of the scope alone. -/
theorem functionBody?_congr (t : Tree) : g'.functionBody? t s = g.functionBody? t s := by
  cases hs : g.getScope? s with
  | none =>
    rw [hs, Option.map_none, Option.map_eq_none_iff] at hposition
    simp only [functionBody?, hs, hposition]
  | some scope =>
    rw [hs, Option.map_some, Option.map_eq_some_iff] at hposition
    obtain ⟨scope', hs', heq⟩ := hposition
    simp only [Scope.position, Prod.mk.injEq] at heq
    obtain ⟨hkind, -, -, hblock⟩ := heq
    rw [functionBody?_eq g t hs, functionBody?_eq g' t hs', hkind, hblock]

variable {r : ReferenceId}
  (hreference :
    (g'.getReference? r).map Reference.unlinked = (g.getReference? r).map Reference.unlinked)
  (htable : ∀ name, g'.inTable? s name = g.inTable? s name)
  (hvariable : ∀ name v, g.inTable? s name = some v →
    (g'.getVariable? v).map Variable.unlinked = (g.getVariable? v).map Variable.unlinked)
include hreference htable hvariable

/-- What a scope has for a reference depends on the scope, its table and the definitions of the
variables there. -/
theorem resolution?_congr (t : Tree) : g'.resolution? t s r = g.resolution? t s r := by
  cases hr : g.getReference? r with
  | none =>
    rw [hr, Option.map_none, Option.map_eq_none_iff] at hreference
    simp [resolution?, hr, hreference]
  | some reference =>
    rw [hr, Option.map_some, Option.map_eq_some_iff] at hreference
    obtain ⟨reference', hr', heq⟩ := hreference
    have hname : reference'.name = reference.name := (congrArg Reference.name heq :)
    have hidentifier : reference'.identifier = reference.identifier :=
      (congrArg Reference.identifier heq :)
    simp only [resolution?, hr, hr', Option.bind_eq_bind, Option.bind_some, hname, htable]
    cases hv : g.inTable? s reference.name with
    | none => rfl
    | some v =>
      have hvisible : g'.isVisible t s reference' v = g.isVisible t s reference v := by
        simp only [isVisible, functionBody?_congr hposition, hidentifier]
        cases g.functionBody? t s with
        | none => rfl
        | some body =>
          have hall := congrArg (Option.any fun v : Variable ν =>
            v.definitions.all fun d => t.isWithin body d.name) (hvariable _ v hv)
          simp only [Option.any_map] at hall
          exact congrArg (fun b => _ || !b) hall
      simp only [Option.bind_some, hvisible]

/-- What a scope offers depends on its position, its table and the variable found there. -/
theorem offer?_congr (t : Tree) : g'.offer? t r s = g.offer? t r s := by
  have hwith := congrArg (Option.any (·.1 = .withBody)) hposition
  simp only [Option.any_map] at hwith
  rw [offer?, resolution?_congr hposition hreference htable hvariable, offer?]
  exact congrArg (fun b : Bool => if b then none else _) hwith

end Offer

namespace Frame

variable {g g' g'' : ScopeGraph ν} {touched : List ScopeId}

theorem refl (touched : List ScopeId) (g : ScopeGraph ν) : Frame touched g g where
  positions := .refl g
  referencesOf_eq _ := rfl
  reference_eq _ := rfl
  tableOf_eq _ _ := rfl
  variable_eq _ _ _ _ _ := rfl

theorem inTable?_eq (h : Frame touched g g') (s : ScopeId) (hs : s ∉ touched) (name : ν) :
    g'.inTable? s name = g.inTable? s name := by
  rw [inTable?_eq_bind, h.tableOf_eq s hs, ← inTable?_eq_bind]

/-- Two changes within the same scopes make one. -/
theorem trans (h : Frame touched g g') (h' : Frame touched g' g'') : Frame touched g g'' where
  positions := h.positions.trans h'.positions
  referencesOf_eq s := (h'.referencesOf_eq s).trans (h.referencesOf_eq s)
  reference_eq r := (h'.reference_eq r).trans (h.reference_eq r)
  tableOf_eq s hs := (h'.tableOf_eq s hs).trans (h.tableOf_eq s hs)
  variable_eq s hs name v hv :=
    (h'.variable_eq s hs name v ((h.inTable?_eq s hs name).trans hv)).trans
      (h.variable_eq s hs name v hv)

theorem mono (h : Frame touched g g') {touched' : List ScopeId} (hsub : touched ⊆ touched') :
    Frame touched' g g' where
  positions := h.positions
  referencesOf_eq := h.referencesOf_eq
  reference_eq := h.reference_eq
  tableOf_eq s hs := h.tableOf_eq s fun hmem => hs (hsub hmem)
  variable_eq s hs := h.variable_eq s fun hmem => hs (hsub hmem)

/-- Many changes within the same scopes make one. -/
theorem foldl {α : Type} {step : ScopeGraph ν → α → ScopeGraph ν}
    (hstep : ∀ g x, Frame touched g (step g x)) (l : List α) (g : ScopeGraph ν) :
    Frame touched g (l.foldl step g) := by
  induction l generalizing g with
  | nil => exact refl touched g
  | cons x l ih => exact (hstep g x).trans (ih (step g x))

theorem modifyReference {f : Reference ν → Reference ν} (hf : ∀ r, (f r).unlinked = r.unlinked)
    (r : ReferenceId) : Frame touched g (g.modifyReference r f) where
  positions := .refl g
  referencesOf_eq _ := rfl
  reference_eq x := by
    rw [getReference?_modifyReference]
    split
    · cases g.getReference? x <;> simp [hf]
    · rfl
  tableOf_eq _ _ := rfl
  variable_eq _ _ _ _ _ := rfl

/-- A variable may change in what is bound to it. -/
theorem modifyVariable {f : Variable ν → Variable ν} (hf : ∀ v, (f v).unlinked = v.unlinked)
    (v : VariableId) : Frame touched g (g.modifyVariable v f) where
  positions := .refl g
  referencesOf_eq _ := rfl
  reference_eq _ := rfl
  tableOf_eq _ _ := rfl
  variable_eq _ _ _ x _ := by
    rw [getVariable?_modifyVariable]
    split
    · cases g.getVariable? x <;> simp [hf]
    · rfl

theorem modifyScope {f : Scope ν → Scope ν} (hposition : ∀ s, (f s).position = s.position)
    (hreferences : ∀ s, (f s).references = s.references) (htable : ∀ s, (f s).table = s.table)
    (s : ScopeId) : Frame touched g (g.modifyScope s f) where
  positions := .modifyScope hposition s
  referencesOf_eq x := listOf_modifyScope hreferences s x
  reference_eq _ := rfl
  tableOf_eq x _ := by
    rw [tableOf, getScope?_modifyScope, tableOf]
    split <;> cases g.getScope? x <;> simp [htable]
  variable_eq _ _ _ _ _ := rfl

theorem link (r : ReferenceId) (v : VariableId) : Frame touched g (g.link r v) :=
  (modifyReference (by exact fun _ => rfl) r).trans (modifyVariable (by exact fun _ => rfl) v)

theorem taint (r : ReferenceId) : Frame touched g (g.taint r) :=
  modifyReference (by exact fun _ => rfl) r

theorem delegate (s : ScopeId) (r : ReferenceId) : Frame touched g (g.delegate s r) := by
  have hhanded : Frame touched g (((g.getScope? s).bind (·.upper)).elim g
      (g.modifyScope · fun u => { u with pending := u.pending.push r })) := by
    cases (g.getScope? s).bind (·.upper) with
    | none => exact refl touched g
    | some u =>
      exact modifyScope (by exact fun _ => rfl) (by exact fun _ => rfl) (by exact fun _ => rfl) u
  exact hhanded.trans
    (modifyScope (by exact fun _ => rfl) (by exact fun _ => rfl) (by exact fun _ => rfl) s)

variable (h : Frame touched g g')
include h

theorem exists_getReference? {r : ReferenceId} {reference' : Reference ν}
    (hr : g'.getReference? r = some reference') :
    ∃ reference, g.getReference? r = some reference ∧
      reference.unlinked = reference'.unlinked := by
  have hmap := h.reference_eq r
  rw [hr, Option.map_some] at hmap
  exact Option.map_eq_some_iff.1 hmap.symm

theorem isSome_getReference? (r : ReferenceId) :
    (g'.getReference? r).isSome = (g.getReference? r).isSome := by
  simpa using congrArg Option.isSome (h.reference_eq r)

/-- The way up from a reference stays the same. -/
theorem wayOf (r : ReferenceId) : g'.wayOf r = g.wayOf r := by
  have horigin := congrArg (Option.elim · [] (g.chain ·.origin)) (h.reference_eq r)
  simp only [Option.elim_map] at horigin
  simp only [ScopeGraph.wayOf, h.positions.chain]
  exact horigin

theorem resolution? (t : Tree) (r : ReferenceId) {s : ScopeId} (hs : s ∉ touched) :
    g'.resolution? t s r = g.resolution? t s r :=
  resolution?_congr (h.positions s) (h.reference_eq r) (h.inTable?_eq s hs) (h.variable_eq s hs) t

theorem offer? (t : Tree) (r : ReferenceId) {s : ScopeId} (hs : s ∉ touched) :
    g'.offer? t r s = g.offer? t r s :=
  offer?_congr (h.positions s) (h.reference_eq r) (h.inTable?_eq s hs) (h.variable_eq s hs) t

/-- What an untouched scope binds lexically stays the same. -/
theorem isBoundLexically {s : ScopeId} (hs : s ∉ touched) (name : ν) :
    g'.isBoundLexically s name = g.isBoundLexically s name := by
  simp only [ScopeGraph.isBoundLexically, h.inTable?_eq s hs]
  cases hv : g.inTable? s name with
  | none => rfl
  | some v =>
    have hlexical := congrArg (Option.any Variable.isLexical) (h.variable_eq s hs name v hv)
    simp only [Option.any_map] at hlexical
    exact hlexical

end Frame

end ScopeGraph

end LexicalScope
