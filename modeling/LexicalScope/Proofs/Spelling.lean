import LexicalScope.Proofs.Analyzed
import LexicalScope.Proofs.Renaming
import LexicalScope.Proofs.RoleTrace

/-!
How names are spelled. A step of a walk that declares or refers to a name comes from an identifier
that spells this name, and the name table of an analysed file has the names of all steps. So the
text of a handle is found again at the identifiers of its steps.
-/
namespace LexicalScope

namespace Step

variable {ν : Type}

/-- The identifier of a step spells its name. Implicit globals are not declared by steps. -/
def IsSpelled (spells : NodeId → ν → Prop) : Step ν → Prop
  | declare _ name (some d) => d.kind ≠ .implicitGlobal ∧ spells d.name name
  | refer o => spells o.identifier o.name
  | _ => True

theorem mem_trace_of_name? {blocks : List NodeId} {steps : List (Step ν)} {l : Located ν}
    (h : l ∈ trace blocks steps) {name : ν} (hname : l.step.name? = some name) :
    name ∈ steps.filterMap name? :=
  List.mem_filterMap.2 ⟨l.step, mem_of_mem_trace h, hname⟩

/-- Without an import in the wrong place, a walk takes all of its steps. -/
theorem reached_eq_self {steps : List (Step ν)} (h : steps.findSome? misplacedImport? = none) :
    reached steps = steps := by
  rw [reached, List.takeWhile_eq_self_iff]
  intro step hstep
  rw [List.findSome?_eq_none_iff.1 h step hstep]
  rfl

end Step

def Tree.Spells (t : Tree) (n : NodeId) (name : String) : Prop :=
  t.identifierName? n = some name

def Outline.IsSpelled (t : Tree) (steps : Outline) : Prop :=
  ∀ step ∈ steps, step.IsSpelled t.Spells

namespace Outline.IsSpelled

variable {t : Tree} {steps steps' : Outline}

theorem nil : IsSpelled t [] :=
  List.forall_mem_nil _

theorem append (h : IsSpelled t steps) (h' : IsSpelled t steps') : IsSpelled t (steps ++ steps') :=
  List.forall_mem_append.2 ⟨h, h'⟩

theorem cons {step : Step String} (h : step.IsSpelled t.Spells) (h' : IsSpelled t steps) :
    IsSpelled t (step :: steps) :=
  List.forall_mem_cons.2 ⟨h, h'⟩

theorem enter (kind : ScopeKind) (n : NodeId) (strict : Bool) :
    IsSpelled t [.enter kind n strict] :=
  cons trivial nil

theorem ite {p : Prop} [Decidable p] (h : IsSpelled t steps) (h' : IsSpelled t steps') :
    IsSpelled t (if p then steps else steps') := by
  split
  · exact h
  · exact h'

theorem map {α : Type} {l : List α} {f : α → Step String} (h : ∀ x, (f x).IsSpelled t.Spells) :
    IsSpelled t (l.map f) :=
  List.forall_mem_map.2 fun x _ => h x

theorem flatMap {α : Type} {l : List α} {f : α → Outline} (h : ∀ x, IsSpelled t (f x)) :
    IsSpelled t (l.flatMap f) := by
  intro step hstep
  obtain ⟨x, -, hx⟩ := List.mem_flatMap.1 hstep
  exact h x step hx

end Outline.IsSpelled

namespace Tree

open Outline (IsSpelled)

variable {t : Tree} {n : NodeId}

theorem spelled_declareAt (t : Tree) (place : Place) {id : NodeId} {d : Definition}
    (hkind : d.kind ≠ .implicitGlobal) (hid : d.name = id) :
    IsSpelled t (t.declareAt place id d) := by
  unfold declareAt
  cases hname : t.identifierName? id with
  | none => exact .nil
  | some name => exact .cons ⟨hkind, hid ▸ hname⟩ .nil

theorem spelled_updateAt (t : Tree) (n : NodeId) (writeExpr : Option NodeId) :
    IsSpelled t (t.updateAt n writeExpr) := by
  unfold updateAt
  cases hname : t.identifierName? n with
  | none => exact .nil
  | some name => exact .cons hname .nil

theorem spelled_useSteps {x : PatternTarget} (hx : t.Spells x.identifier x.name)
    (use : PatternUse) : IsSpelled t (use.steps x) := by
  have hdefaults (init : Bool) (assignment : Option NodeId) :
      IsSpelled t (x.defaultWrites init assignment) :=
    .map fun _ => hx
  have hdeclare (place : Place) {d : Definition} (hkind : d.kind ≠ .implicitGlobal)
      (hid : d.name = x.identifier) : IsSpelled t (x.declare place d) :=
    .cons ⟨hkind, hid ▸ hx⟩ (hdefaults true none)
  cases use with
  | parameter function index => exact hdeclare _ (by exact nofun) rfl
  | catchParameter clause => exact hdeclare _ (by exact nofun) rfl
  | declarator declaration node kind index init right =>
    refine .append (.append (hdeclare _ (by exact nofun) rfl) ?_) ?_
    · exact .map fun _ => hx
    · exact .map fun _ => hx
  | assignment node right whole => exact .append (hdefaults _ _) (.cons hx .nil)

theorem spelled_enterFunction (n : NodeId) (strict isArrow : Bool) :
    IsSpelled t (enterFunction n strict isArrow) := by
  refine .cons trivial ?_
  cases isArrow with
  | true => exact .nil
  | false => exact .cons trivial .nil

theorem spelled_functionLayout (c : Context) (kind : NodeKind) (id : Option NodeId)
    (params : List NodeId) (body : Option NodeId) :
    IsSpelled t (t.functionLayout c n kind id params body).own := by
  refine .append ?_ (spelled_enterFunction n _ _)
  unfold functionNameSteps
  split
  · exact t.spelled_declareAt _ (by exact nofun) rfl
  · exact .cons trivial (t.spelled_declareAt _ (by exact nofun) rfl)
  · exact .nil

theorem spelled_classLayout (c : Context) (isDeclaration : Bool) (parts : Class) :
    IsSpelled t (t.classLayout c n isDeclaration parts).own := by
  have hnamed : IsSpelled t (parts.id.toList.flatMap fun id =>
      t.declareAt .current id { kind := .className, name := id, node := n }) :=
    .flatMap fun _ => t.spelled_declareAt _ (by exact nofun) rfl
  exact .append (.ite hnamed .nil) (.cons trivial hnamed)

theorem spelled_importSteps (specifiers : List NodeId) (kind : ImportKind) :
    IsSpelled t (t.importSteps n specifiers kind) := by
  refine .flatMap fun specifier => ?_
  split
  · exact t.spelled_declareAt _ (by exact nofun) rfl
  · exact .nil

theorem spelled_enterProgram (t : Tree) (o : LanguageOptions) (sourceType : SourceType) :
    IsSpelled t (t.enterProgram o sourceType) := by
  refine .cons trivial (.append (.ite (spelled_enterFunction _ _ _) .nil) ?_)
  exact .ite (.enter _ _ _) .nil

section Own

variable {kind : NodeKind} (hkind : t.kind? n = some kind)
include hkind

theorem spells_of_kind? {name : String} (hname : kind = .identifier name) : t.Spells n name := by
  rw [Spells, identifierName?, hkind, hname]
  rfl

/-- A visited node names things by its own identifiers. -/
theorem spelled_visitedLayout (c : Context) : IsSpelled t (t.visitedLayout c n kind).own := by
  cases kind with
  | identifier name => exact .cons (spells_of_kind? hkind rfl) .nil
  | thisExpression => exact .cons trivial .nil
  | staticBlock | blockStatement | switchStatement | withStatement | catchClause =>
    exact .enter _ n _
  | forStatement | forInStatement | forOfStatement => exact .ite (.enter _ _ _) .nil
  | functionDeclaration f | functionExpression f | arrowFunctionExpression f =>
    exact spelled_functionLayout c _ _ _ _
  | classDeclaration parts | classExpression parts => exact spelled_classLayout c _ parts
  | importDeclaration specifiers source importKind =>
    exact .ite (spelled_importSteps specifiers importKind) (.cons trivial .nil)
  | exportNamedDeclaration declaration specifiers source =>
    cases source <;> cases declaration <;> exact .nil
  | _ => exact .nil

/-- Every role names things by identifiers of the tree. -/
theorem spelled_own (role : Role) : IsSpelled t (t.layoutOfKind n kind role).own := by
  have hvisited := spelled_visitedLayout hkind
  cases role with
  | visited c | fieldValue c => exact hvisited c
  | functionBody c =>
    cases kind with
    | blockStatement statements => exact .nil
    | _ => exact hvisited c
  | loopHead c right =>
    cases kind with
    | variableDeclaration => exact .nil
    | _ => exact hvisited c
  | program o =>
    cases kind with
    | program body sourceType => exact t.spelled_enterProgram o sourceType
    | _ => exact .nil
  | skipped => exact .nil
  | updated writeExpr => exact t.spelled_updateAt n writeExpr
  | target c use root s =>
    cases kind with
    | identifier name => exact spelled_useSteps (spells_of_kind? hkind rfl) use
    | _ => exact .nil
  | declarator => cases kind <;> exact .nil

end Own

/-- The steps of a visited node are spelled. -/
theorem spelled_of_mem_marks {v : Visit} {l : Located String} (h : l ∈ t.marks v) :
    l.step.IsSpelled t.Spells := by
  cases hkind : t.kind? v.node with
  | none =>
    rw [marks, layout_of_kind?_eq_none hkind] at h
    cases h
  | some kind =>
    rw [marks, layout_of_kind? hkind] at h
    rcases List.mem_append.1 h with h | h
    · have hstep := Step.mem_of_mem_trace h
      rw [first_layoutOfKind] at hstep
      exact Outline.IsSpelled.ite (.enter _ _ _) .nil _ hstep
    · exact spelled_own hkind v.role _ (Step.mem_of_mem_trace h)

end Tree

/-- The steps of a program are spelled. -/
theorem spelled_of_mem_trace {t : Tree} {o : LanguageOptions} {outline : Outline}
    (houtline : t.outline? o = some outline) {l : Located String}
    (h : l ∈ Step.trace [] outline) : l.step.IsSpelled t.Spells := by
  obtain ⟨v, -, hv⟩ := List.mem_flatMap.1 ((perm_trace_outline houtline).mem_iff.1 h)
  exact Tree.spelled_of_mem_marks hv

section Analyze

variable {names names' : NameTable} {t : Tree} {o : LanguageOptions} {envs : Environments}
  {g : ScopeGraph Name} {outline : Outline}

/-- The name table of an analysed file has the names of all steps. -/
theorem mem_texts_of_analyze (h : analyze names t o envs = (names', .ok g))
    (houtline : t.outline? o = some outline) {name : String}
    (hname : name ∈ outline.filterMap Step.name?) : name ∈ names'.texts := by
  unfold analyze at h
  rw [houtline] at h
  dsimp only at h
  split at h
  · cases h
  · next himports =>
    obtain ⟨rfl, -⟩ := Prod.mk.inj h
    rw [NameTable.mem_texts_addAll, NameTable.mem_texts_addAll, Step.reached_eq_self himports]
    exact .inl (.inr hname)

/-- Also by handle, the steps of an analysed file are spelled as their names resolve. -/
theorem spelled_of_analyze (h : analyze names t o envs = (names', .ok g))
    (houtline : t.outline? o = some outline) {l : Located Name}
    (hl : l ∈ (Step.trace [] outline).map (.mapName names'.handle)) :
    l.step.IsSpelled fun n name => t.Spells n (names'.resolve name) := by
  obtain ⟨⟨blocks, step⟩, hmem, rfl⟩ := List.mem_map.1 hl
  have hspelled := spelled_of_mem_trace houtline hmem
  have hresolve {name : String} (hname : step.name? = some name) :
      names'.resolve (names'.handle name) = name := by
    rw [NameTable.resolve, NameTable.resolve?_handle, Option.getD_some]
    exact mem_texts_of_analyze h houtline (Step.mem_trace_of_name? hmem hname)
  cases step with
  | declare place name d =>
    cases d with
    | none => trivial
    | some d =>
      refine ⟨hspelled.1, ?_⟩
      show t.Spells d.name (names'.resolve (names'.handle name))
      rw [hresolve rfl]
      exact hspelled.2
  | refer occurrence =>
    show t.Spells occurrence.identifier (names'.resolve (names'.handle occurrence.name))
    rw [hresolve rfl]
    exact hspelled
  | _ => trivial

end Analyze

end LexicalScope
