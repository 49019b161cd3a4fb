import LexicalScope.Proofs.Equivariance

/-!
Where a configured global comes from. Of a variable that configuration or a comment has brought
in, three fields say which of the two it was; nothing else looks at them. Without these fields a
name from a comment enters the global table as a configured name does.
-/
namespace LexicalScope

variable {ν : Type}

/-- The variable without what says who has configured it. -/
def Variable.withoutProvenance (v : Variable ν) : Variable ν :=
  { v with explicitGlobal := false, explicitGlobalComments := [], implicitGlobalSetting := none }

namespace ScopeGraph

def withoutProvenance (g : ScopeGraph ν) : ScopeGraph ν :=
  { g with bindings := g.bindings.map Variable.withoutProvenance }

section LookUp

variable (g : ScopeGraph ν)

theorem getVariable?_withoutProvenance (v : VariableId) :
    g.withoutProvenance.getVariable? v = (g.getVariable? v).map Variable.withoutProvenance :=
  Array.getElem?_map

theorem nextVariable_withoutProvenance : g.withoutProvenance.nextVariable = g.nextVariable :=
  congrArg VariableId.mk Array.size_map

theorem withoutProvenance_modifyVariable {v : VariableId} {h h' : Variable ν → Variable ν}
    (hh : ∀ x, h' x.withoutProvenance = (h x).withoutProvenance) :
    (g.modifyVariable v h).withoutProvenance = g.withoutProvenance.modifyVariable v h' := by
  unfold modifyVariable withoutProvenance
  rw [map_modify fun x _ => hh x]

theorem withoutProvenance_addVariable (s : ScopeId) (name : ν) :
    (g.addVariable s name).withoutProvenance = g.withoutProvenance.addVariable s name := by
  unfold addVariable
  rw [nextVariable_withoutProvenance]
  simp [withoutProvenance, Variable.withoutProvenance]

theorem withoutProvenance_link (r : ReferenceId) (v : VariableId) :
    (g.link r v).withoutProvenance = g.withoutProvenance.link r v :=
  withoutProvenance_modifyVariable _ fun _ => rfl

end LookUp

variable [DecidableEq ν]

section Configuring

variable (g : ScopeGraph ν)

/-- Binding a name does not ask who has configured it. -/
theorem bind_withoutProvenance (s : ScopeId) (name : ν) :
    g.withoutProvenance.bind s name =
      ((g.bind s name).1.withoutProvenance, (g.bind s name).2) := by
  have hname : g.withoutProvenance.inTable? s name = g.inTable? s name := rfl
  unfold bind
  rw [hname]
  cases g.inTable? s name with
  | some v => rfl
  | none =>
    dsimp only
    rw [nextVariable_withoutProvenance, ← withoutProvenance_addVariable]
    rfl

/-- Without provenance, configurations that agree on the rest are alike. -/
theorem withoutProvenance_configure (name : ν) {h h' : Variable ν → Variable ν}
    (hh : ∀ x, h' x.withoutProvenance = (h x).withoutProvenance) :
    (g.configure name h).withoutProvenance = g.withoutProvenance.configure name h' := by
  have hdeclared : ((g.bind .global name).1.withoutProvenance.getVariable?
      (g.bind .global name).2).any Variable.isDeclared =
        ((g.bind .global name).1.getVariable? (g.bind .global name).2).any
          Variable.isDeclared := by
    rw [getVariable?_withoutProvenance, Option.any_map]
    rfl
  unfold configure
  rw [bind_withoutProvenance]
  dsimp only
  rw [hdeclared]
  split
  · rfl
  · exact withoutProvenance_modifyVariable _ hh

/-- What a configured name and a name from a comment have in common: they make a global, writable
or not, unless their value is `off`. -/
def grant (g : ScopeGraph ν) (entry : ν × GlobalValue) : ScopeGraph ν :=
  if entry.2.isOff then g
  else g.configure entry.1 fun v => { v with writable := some entry.2.isWritable }

/-- Without provenance, a configured value grants a global. -/
theorem withoutProvenance_applyConfigured (entry : ν × GlobalValue) :
    (g.applyConfigured entry).withoutProvenance = g.withoutProvenance.grant entry := by
  unfold applyConfigured grant
  dsimp only
  split
  · rfl
  · exact withoutProvenance_configure g entry.1 fun _ => rfl

/-- Without provenance, a directive grants what a configured value grants. -/
theorem withoutProvenance_applyInlined (entry : ν × InlineGlobal) :
    (g.applyInlined entry).withoutProvenance =
      g.withoutProvenance.grant (entry.1, entry.2.value) := by
  unfold applyInlined grant
  dsimp only
  split
  · rfl
  · exact withoutProvenance_configure g entry.1 fun _ => rfl

theorem withoutProvenance_foldl_applyConfigured (entries : List (ν × GlobalValue)) :
    (entries.foldl applyConfigured g).withoutProvenance =
      entries.foldl grant g.withoutProvenance :=
  (List.foldl_hom withoutProvenance fun g entry =>
    (withoutProvenance_applyConfigured g entry).symm).symm

theorem withoutProvenance_foldl_applyInlined (entries : List (ν × InlineGlobal)) :
    (entries.foldl applyInlined g).withoutProvenance =
      (entries.map fun entry => (entry.1, entry.2.value)).foldl grant g.withoutProvenance := by
  rw [List.foldl_map]
  exact (List.foldl_hom withoutProvenance fun g entry =>
    (withoutProvenance_applyInlined g entry).symm).symm

end Configuring

section Resolving

variable (g : ScopeGraph ν)

/-- A reference is bound to a global whoever has brought it in. -/
theorem withoutProvenance_settleThrough (r : ReferenceId) :
    (g.settleThrough r).withoutProvenance = g.withoutProvenance.settleThrough r := by
  have hname : (g.withoutProvenance.getReference? r).bind
      (g.withoutProvenance.globalVariable? ·.name) =
        (g.getReference? r).bind (g.globalVariable? ·.name) := rfl
  unfold settleThrough
  rw [hname]
  cases (g.getReference? r).bind (g.globalVariable? ·.name) with
  | none => rfl
  | some v => exact withoutProvenance_link g r v

theorem withoutProvenance_resolveThrough :
    g.resolveThrough.withoutProvenance = g.withoutProvenance.resolveThrough :=
  (Array.foldl_hom withoutProvenance fun g r => (withoutProvenance_settleThrough g r).symm).symm

theorem withoutProvenance_pruneImplicit :
    g.pruneImplicit.withoutProvenance = g.withoutProvenance.pruneImplicit := rfl

end Resolving

end ScopeGraph

end LexicalScope
