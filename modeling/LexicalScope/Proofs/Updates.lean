import LexicalScope.Scope.Graph

/-!
What the operations of a scope graph change, by look-up. An operation on one record leaves all
others as they are, and a new record gets the next number.
-/
namespace LexicalScope.ScopeGraph

variable {ν : Type}

section Modify

variable (g : ScopeGraph ν)

@[simp] theorem getScope?_modifyScope (s x : ScopeId) (f : Scope ν → Scope ν) :
    (g.modifyScope s f).getScope? x = if x = s then (g.getScope? x).map f else g.getScope? x := by
  obtain ⟨s⟩ := s
  obtain ⟨x⟩ := x
  simp [getScope?, modifyScope, Array.getElem?_modify, eq_comm (a := x)]

theorem inTable?_modifyScope [DecidableEq ν] {f : Scope ν → Scope ν}
    (hf : ∀ s, (f s).table = s.table) (s x : ScopeId) (name : ν) :
    (g.modifyScope s f).inTable? x name = g.inTable? x name := by
  rw [inTable?, getScope?_modifyScope, inTable?]
  split <;> cases g.getScope? x <;> simp [hf]

@[simp] theorem getVariable?_modifyVariable (v x : VariableId) (f : Variable ν → Variable ν) :
    (g.modifyVariable v f).getVariable? x =
      if x = v then (g.getVariable? x).map f else g.getVariable? x := by
  obtain ⟨v⟩ := v
  obtain ⟨x⟩ := x
  simp [getVariable?, modifyVariable, Array.getElem?_modify, eq_comm (a := x)]

@[simp] theorem getReference?_modifyReference (r x : ReferenceId)
    (f : Reference ν → Reference ν) :
    (g.modifyReference r f).getReference? x =
      if x = r then (g.getReference? x).map f else g.getReference? x := by
  obtain ⟨r⟩ := r
  obtain ⟨x⟩ := x
  simp [getReference?, modifyReference, Array.getElem?_modify, eq_comm (a := x)]

@[simp] theorem getVariable?_modifyScope (s : ScopeId) (v : VariableId) (f : Scope ν → Scope ν) :
    (g.modifyScope s f).getVariable? v = g.getVariable? v := rfl

@[simp] theorem getReference?_modifyScope (s : ScopeId) (r : ReferenceId)
    (f : Scope ν → Scope ν) : (g.modifyScope s f).getReference? r = g.getReference? r := rfl

@[simp] theorem getScope?_modifyVariable (v : VariableId) (s : ScopeId)
    (f : Variable ν → Variable ν) : (g.modifyVariable v f).getScope? s = g.getScope? s := rfl

@[simp] theorem getReference?_modifyVariable (v : VariableId) (r : ReferenceId)
    (f : Variable ν → Variable ν) :
    (g.modifyVariable v f).getReference? r = g.getReference? r := rfl

@[simp] theorem getScope?_modifyReference (r : ReferenceId) (s : ScopeId)
    (f : Reference ν → Reference ν) : (g.modifyReference r f).getScope? s = g.getScope? s := rfl

@[simp] theorem getVariable?_modifyReference (r : ReferenceId) (v : VariableId)
    (f : Reference ν → Reference ν) :
    (g.modifyReference r f).getVariable? v = g.getVariable? v := rfl

@[simp] theorem size_scopes_modifyScope (s : ScopeId) (f : Scope ν → Scope ν) :
    (g.modifyScope s f).scopes.size = g.scopes.size := by
  simp [modifyScope]

end Modify

theorem getVariable?_nextVariable (g : ScopeGraph ν) : g.getVariable? g.nextVariable = none :=
  Array.getElem?_eq_none (Nat.le_refl _)

section Open

variable (g : ScopeGraph ν) (kind : ScopeKind) (block : NodeId) (strict : Bool)
  (upper : Option ScopeId)

def opening : Scope ν where
  id := g.nextScope
  kind
  isStrict := strict || upper.any g.isStrict
  upper
  variableScope := if kind.holdsVars then g.nextScope else upper.elim g.nextScope g.variableScope
  block

/-- Opening a scope adds a child to the scope around it. -/
theorem getScope?_openScope (x : ScopeId) :
    (g.openScope kind block strict upper).getScope? x =
      if x = g.nextScope then some (g.opening kind block strict upper)
      else if upper = some x then
        (g.getScope? x).map fun s => { s with children := s.children.push g.nextScope }
      else g.getScope? x := by
  cases upper with
  | none =>
    obtain ⟨x⟩ := x
    simp [openScope, getScope?, nextScope, Array.getElem?_push, opening]
  | some u =>
    have hu := g.getScope?_modifyScope u x fun s =>
      { s with children := s.children.push g.nextScope }
    obtain ⟨x⟩ := x
    simp only [getScope?] at hu
    simp only [openScope, getScope?, nextScope, Array.getElem?_push, Option.elim_some,
      size_scopes_modifyScope, ScopeId.mk.injEq, Option.some.injEq, eq_comm (a := u)]
    split
    · rfl
    · exact hu

theorem getVariable?_openScope (v : VariableId) :
    (g.openScope kind block strict upper).getVariable? v = g.getVariable? v := by
  cases upper <;> rfl

theorem getReference?_openScope (r : ReferenceId) :
    (g.openScope kind block strict upper).getReference? r = g.getReference? r := by
  cases upper <;> rfl

theorem size_scopes_openScope :
    (g.openScope kind block strict upper).scopes.size = g.scopes.size + 1 := by
  cases upper <;> simp [openScope]

end Open

section Declare

variable [DecidableEq ν] (g : ScopeGraph ν) (s : ScopeId) (name : ν)

theorem bind_snd : (g.bind s name).2 = (g.inTable? s name).getD g.nextVariable := by
  unfold bind
  split <;> simp [*]

theorem getScope?_bind (x : ScopeId) :
    (g.bind s name).1.getScope? x =
      if x = s ∧ g.inTable? s name = none then
        (g.getScope? x).map fun s => { s with table := s.table.insert name g.nextVariable }
      else g.getScope? x := by
  unfold bind
  split
  · next h => simp [h]
  · next h =>
    simp only [getScope?_modifyScope, h, and_true]
    rfl

theorem implicit_bind : (g.bind s name).1.implicit = g.implicit := by
  unfold bind
  split <;> rfl

theorem getVariable?_bind (x : VariableId) :
    (g.bind s name).1.getVariable? x =
      if x = g.nextVariable ∧ g.inTable? s name = none then
        some { id := g.nextVariable, name, scope := s }
      else g.getVariable? x := by
  unfold bind
  split
  · next h => simp [h]
  · next h =>
    obtain ⟨x⟩ := x
    simp [h, getVariable?, addVariable, nextVariable, Array.getElem?_push, modifyScope]

theorem getReference?_bind (r : ReferenceId) :
    (g.bind s name).1.getReference? r = g.getReference? r := by
  unfold bind
  split <;> rfl

/-- Binding a name changes one entry of one table at most. -/
theorem inTable?_bind (hs : s.index < g.scopes.size) (x : ScopeId) (m : ν) :
    (g.bind s name).1.inTable? x m =
      if x = s ∧ m = name then some (g.bind s name).2 else g.inTable? x m := by
  simp only [bind_snd]
  cases h : g.inTable? s name with
  | some v =>
    have hbind : (g.bind s name).1 = g := by simp [bind, h]
    rw [hbind]
    split
    · next hx => rw [hx.1, hx.2, h, Option.getD_some]
    · rfl
  | none =>
    obtain ⟨scope, hscope⟩ : ∃ scope, g.getScope? s = some scope :=
      ⟨_, Array.getElem?_eq_getElem hs⟩
    by_cases hx : x = s
    · subst hx
      have hbound := (g.getScope?_bind x name x).trans (if_pos ⟨rfl, h⟩)
      rw [hscope, Option.map_some] at hbound
      simp only [inTable?, hbound, hscope, Option.bind_some, OrderedMap.get?_insert, true_and,
        Option.getD_none]
    · simp [inTable?, getScope?_bind, hx]

variable {g s name} in
/-- What a table has after binding a name is old or the variable just bound. -/
theorem inTable?_of_bind {m : ν} {x : ScopeId} {w : VariableId}
    (hw : (g.bind s name).1.inTable? x m = some w) :
    w = (g.bind s name).2 ∨ g.inTable? x m = some w := by
  rw [bind_snd]
  rw [inTable?, getScope?_bind] at hw
  split at hw
  · next hx =>
    rw [hx.2, Option.getD_none]
    cases hs : g.getScope? x with
    | none => simp [hs] at hw
    | some scope =>
      simp only [hs, Option.map_some, Option.bind_some, OrderedMap.get?_insert] at hw
      split at hw
      · exact .inl (Option.some.inj hw).symm
      · refine .inr ?_
        rw [inTable?, hs]
        exact hw
  · exact .inr hw

omit [DecidableEq ν] in
theorem getVariable?_define (v x : VariableId) (d : Definition) :
    (g.define v d).getVariable? x =
      if x = v then (g.getVariable? x).map (·.define d) else g.getVariable? x :=
  getVariable?_modifyVariable g v x (·.define d)

/-- Declaring a name binds it and then adds the definition, if there is one. -/
theorem declare_eq (d : Option Definition) :
    g.declare s name d = d.elim (g.bind s name).1 ((g.bind s name).1.define (g.bind s name).2) :=
  rfl

theorem getScope?_declare (d : Option Definition) (x : ScopeId) :
    (g.declare s name d).getScope? x = (g.bind s name).1.getScope? x := by
  cases d <;> rfl

theorem getReference?_declare (d : Option Definition) (r : ReferenceId) :
    (g.declare s name d).getReference? r = g.getReference? r := by
  cases d <;> exact getReference?_bind ..

theorem getVariable?_declare (d : Option Definition) (x : VariableId) :
    (g.declare s name d).getVariable? x =
      if x = (g.bind s name).2 then
        ((g.bind s name).1.getVariable? x).map fun v => d.elim v v.define
      else (g.bind s name).1.getVariable? x := by
  cases d with
  | none => simp [declare_eq]
  | some d => exact getVariable?_define ..

end Declare

section Refer

variable (g : ScopeGraph ν) (r : Reference ν)

/-- A reference is listed and waits in its own scope. -/
theorem getScope?_addReference (x : ScopeId) :
    (g.addReference r).getScope? x =
      if x = r.origin then
        (g.getScope? x).map fun s =>
          { s with
            references := s.references.push g.nextReference
            pending := s.pending.push g.nextReference }
      else g.getScope? x :=
  getScope?_modifyScope ..

theorem getReference?_addReference (x : ReferenceId) :
    (g.addReference r).getReference? x =
      if x = g.nextReference then some { r with id := g.nextReference }
      else g.getReference? x := by
  obtain ⟨x⟩ := x
  simp [addReference, getReference?, nextReference, Array.getElem?_push]

end Refer

end LexicalScope.ScopeGraph
