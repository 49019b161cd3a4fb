import LexicalScope.Proofs.Entered
import LexicalScope.Proofs.Grounding
import LexicalScope.Proofs.Shape

/-!
Where a step comes from. Every step of a walk but a leaving one belongs to one of the visited
nodes. An import in the wrong place belongs to an import declaration and a `this` to a `this`
expression; a function scope belongs to a function or to the program, and so does the one name
that is declared without a definition.
-/
namespace LexicalScope

/-- Neither an import in the wrong place, nor a `this`, nor a function scope, nor a name without a
definition. -/
def Step.IsPlain {ν : Type} : Step ν → Prop
  | misplacedImport _ | this => False
  | enter kind _ _ => kind ≠ .function
  | declare _ _ definition => definition.isSome
  | _ => True

def Tree.isImport (t : Tree) (n : NodeId) : Bool :=
  (t.kind? n).any NodeKind.isImportDeclaration

/-- The steps are taken at `n`, as far as they are not plain. -/
structure Outline.BelongsTo (t : Tree) (n : NodeId) (steps : Outline) : Prop where
  misplaced : ∀ {m}, .misplacedImport m ∈ steps → m = n ∧ t.isImport n
  this : .this ∈ steps → t.kind? n = some .thisExpression
  function : ∀ {m strict}, .enter .function m strict ∈ steps →
    m = n ∧ (t.isArrow n = false → .declare .current "arguments" none ∈ steps)
  undefined : ∀ {place name}, .declare place name none ∈ steps →
    name = "arguments" ∧ t.isArrow n = false ∧ ∃ strict, .enter .function n strict ∈ steps

namespace Outline.BelongsTo

variable {t : Tree} {n : NodeId} {steps steps' : Outline}

theorem of_plain (h : ∀ step ∈ steps, step.IsPlain) : BelongsTo t n steps where
  misplaced hm := (h _ hm).elim
  this hm := (h _ hm).elim
  function hm := absurd rfl (h _ hm)
  undefined hm := nomatch h _ hm

theorem nil : BelongsTo t n [] :=
  of_plain (List.forall_mem_nil _)

theorem append (h : BelongsTo t n steps) (h' : BelongsTo t n steps') :
    BelongsTo t n (steps ++ steps') where
  misplaced hm := (List.mem_append.1 hm).elim h.misplaced h'.misplaced
  this hm := (List.mem_append.1 hm).elim h.this h'.this
  function hm := by
    rcases List.mem_append.1 hm with hm | hm
    · exact (h.function hm).imp_right fun hdeclare harrow =>
        List.mem_append_left _ (hdeclare harrow)
    · exact (h'.function hm).imp_right fun hdeclare harrow =>
        List.mem_append_right _ (hdeclare harrow)
  undefined hm := by
    rcases List.mem_append.1 hm with hm | hm
    · obtain ⟨hname, harrow, strict, henter⟩ := h.undefined hm
      exact ⟨hname, harrow, strict, List.mem_append_left _ henter⟩
    · obtain ⟨hname, harrow, strict, henter⟩ := h'.undefined hm
      exact ⟨hname, harrow, strict, List.mem_append_right _ henter⟩

theorem ite {p : Prop} [Decidable p] (h : BelongsTo t n steps) (h' : BelongsTo t n steps') :
    BelongsTo t n (if p then steps else steps') := by
  split
  · exact h
  · exact h'

theorem enter {kind : ScopeKind} (hkind : kind ≠ .function) (m : NodeId) (strict : Bool) :
    BelongsTo t n [.enter kind m strict] :=
  of_plain (List.forall_mem_singleton.2 hkind)

theorem misplacedImport (himport : t.isImport n) : BelongsTo t n [.misplacedImport n] where
  misplaced hm := ⟨Step.misplacedImport.inj (List.mem_singleton.1 hm), himport⟩
  this hm := nomatch List.mem_singleton.1 hm
  function hm := nomatch List.mem_singleton.1 hm
  undefined hm := nomatch List.mem_singleton.1 hm

theorem thisExpression (hkind : t.kind? n = some .thisExpression) : BelongsTo t n [.this] where
  misplaced hm := nomatch List.mem_singleton.1 hm
  this _ := hkind
  function hm := nomatch List.mem_singleton.1 hm
  undefined hm := nomatch List.mem_singleton.1 hm

theorem enterFunction {isArrow : Bool} (harrow : t.isArrow n = isArrow) (strict : Bool) :
    BelongsTo t n (Tree.enterFunction n strict isArrow) := by
  cases isArrow with
  | true => exact {
      misplaced := fun hm => nomatch List.mem_singleton.1 hm
      this := fun hm => nomatch List.mem_singleton.1 hm
      function := fun hm => by
        obtain ⟨-, rfl, -⟩ := Step.enter.inj (List.mem_singleton.1 hm)
        exact ⟨rfl, fun hnot => nomatch harrow.symm.trans hnot⟩
      undefined := fun hm => nomatch List.mem_singleton.1 hm }
  | false => exact {
      misplaced := fun hm => by simp [Tree.enterFunction] at hm
      this := fun hm => by simp [Tree.enterFunction] at hm
      function := fun hm => by
        obtain ⟨rfl, -⟩ : _ = n ∧ _ = strict := by simpa [Tree.enterFunction] using hm
        exact ⟨rfl, fun _ => List.mem_cons_of_mem _ (List.mem_singleton_self _)⟩
      undefined := fun hm => by
        obtain ⟨-, rfl⟩ : _ ∧ _ = "arguments" := by simpa [Tree.enterFunction] using hm
        exact ⟨rfl, harrow, strict, List.mem_cons_self ..⟩ }

end Outline.BelongsTo

namespace Tree

open Outline (BelongsTo)

variable {t : Tree} {n : NodeId}

theorem isPlain_declareAt (t : Tree) (place : Place) (id : NodeId) (d : Definition) :
    ∀ step ∈ t.declareAt place id d, step.IsPlain := by
  unfold declareAt
  cases t.identifierName? id with
  | none => exact List.forall_mem_nil _
  | some name => exact List.forall_mem_singleton.2 rfl

theorem isPlain_updateAt (t : Tree) (n : NodeId) (writeExpr : Option NodeId) :
    ∀ step ∈ t.updateAt n writeExpr, step.IsPlain := by
  unfold updateAt
  cases t.identifierName? n with
  | none => exact List.forall_mem_nil _
  | some name => exact List.forall_mem_singleton.2 trivial

theorem isPlain_useSteps (use : PatternUse) (x : PatternTarget) :
    ∀ step ∈ use.steps x, step.IsPlain := by
  have hdefaults (init : Bool) (assignment : Option NodeId) :
      ∀ step ∈ x.defaultWrites init assignment, step.IsPlain :=
    List.forall_mem_map.2 fun _ _ => trivial
  have hdeclare (place : Place) (d : Definition) :
      ∀ step ∈ x.declare place d, step.IsPlain :=
    List.forall_mem_cons.2 ⟨rfl, hdefaults true none⟩
  cases use with
  | parameter function index => exact hdeclare _ _
  | catchParameter clause => exact hdeclare _ _
  | declarator declaration node kind index init right =>
    refine List.forall_mem_append.2 ⟨List.forall_mem_append.2 ⟨hdeclare _ _, ?_⟩, ?_⟩
    · exact List.forall_mem_map.2 fun _ _ => trivial
    · exact List.forall_mem_map.2 fun _ _ => trivial
  | assignment node right whole =>
    exact List.forall_mem_append.2 ⟨hdefaults _ _, List.forall_mem_singleton.2 trivial⟩

section Own

variable {kind : NodeKind} (hkind : t.kind? n = some kind)
include hkind

theorem belongsTo_functionLayout (c : Context) (id : Option NodeId) (params : List NodeId)
    (body : Option NodeId) : BelongsTo t n (t.functionLayout c n kind id params body).own := by
  refine .append ?_ (.enterFunction ?_ _)
  · unfold functionNameSteps
    split
    · exact .of_plain (t.isPlain_declareAt _ _ _)
    · exact .append (.enter (by decide) n false) (.of_plain (t.isPlain_declareAt _ _ _))
    · exact .nil
  · rw [isArrow, hkind]
    rfl

/-- A program opens a function scope if it is wrapped in one. -/
theorem belongsTo_enterProgram (hprogram : kind.isProgram) (hroot : n = t.root)
    (o : LanguageOptions) (sourceType : SourceType) :
    BelongsTo t n (t.enterProgram o sourceType) := by
  subst hroot
  have harrow : t.isArrow t.root = false := by
    rw [isArrow, hkind, Option.any_some]
    cases kind with
    | program => rfl
    | _ => cases hprogram
  exact .append (.enter (by decide) t.root _)
    (.append (.ite (.enterFunction harrow _) .nil) (.ite (.enter (by decide) _ _) .nil))

omit hkind in
theorem belongsTo_classLayout (c : Context) (isDeclaration : Bool) (parts : Class) :
    BelongsTo t n (t.classLayout c n isDeclaration parts).own := by
  have hnamed : BelongsTo t n (parts.id.toList.flatMap fun id =>
      t.declareAt .current id { kind := .className, name := id, node := n }) := by
    refine .of_plain fun step hstep => ?_
    obtain ⟨id, -, hstep⟩ := List.mem_flatMap.1 hstep
    exact t.isPlain_declareAt _ _ _ step hstep
  exact .append (.ite hnamed .nil) (.append (.enter (by decide) n true) hnamed)

omit hkind in
theorem isPlain_importSteps (specifiers : List NodeId) (importKind : ImportKind) :
    ∀ step ∈ t.importSteps n specifiers importKind, step.IsPlain := by
  intro step hstep
  obtain ⟨specifier, -, hstep⟩ := List.mem_flatMap.1 hstep
  split at hstep
  · exact t.isPlain_declareAt _ _ _ step hstep
  · cases hstep

/-- The steps of a visited node tell of its own kind. -/
theorem belongsTo_visitedLayout (c : Context) : BelongsTo t n (t.visitedLayout c n kind).own := by
  cases kind with
  | identifier => exact .of_plain (List.forall_mem_singleton.2 trivial)
  | thisExpression => exact .thisExpression hkind
  | staticBlock | blockStatement | switchStatement | withStatement | catchClause =>
    exact .enter (by decide) n _
  | forStatement | forInStatement | forOfStatement => exact .ite (.enter (by decide) n _) .nil
  | functionDeclaration | functionExpression | arrowFunctionExpression =>
    exact belongsTo_functionLayout hkind c _ _ _
  | classDeclaration parts | classExpression parts => exact belongsTo_classLayout c _ parts
  | importDeclaration specifiers source importKind =>
    refine .ite (.of_plain (isPlain_importSteps specifiers importKind)) (.misplacedImport ?_)
    rw [isImport, hkind]
    rfl
  | exportNamedDeclaration declaration specifiers source =>
    cases source <;> cases declaration <;> exact .nil
  | _ => exact .nil

/-- In every role, the steps of a node tell of its own kind. -/
theorem belongsTo_own {role : Role} (hroot : ∀ o, role = .program o → n = t.root) :
    BelongsTo t n (t.layoutOfKind n kind role).own := by
  have hvisited := belongsTo_visitedLayout hkind
  cases role with
  | visited c | fieldValue c => exact hvisited c
  | functionBody c =>
    cases kind with
    | blockStatement statements => exact .nil
    | _ => exact hvisited c
  | loopHead c right =>
    cases kind with
    | variableDeclaration => exact .nil
    | _ => exact hvisited c
  | program o =>
    cases kind with
    | program body sourceType => exact belongsTo_enterProgram hkind rfl (hroot o rfl) o sourceType
    | _ => exact .nil
  | skipped => exact .nil
  | updated writeExpr => exact .of_plain (t.isPlain_updateAt n writeExpr)
  | target c use root s =>
    cases kind with
    | identifier name => exact .of_plain (isPlain_useSteps use _)
    | _ => exact .nil
  | declarator => cases kind <;> exact .nil

end Own

section Visits

variable {v w : Visit} {o : LanguageOptions}

def stepsAt (t : Tree) (v : Visit) : Outline :=
  (t.layout v.role v.node).first ++ (t.layout v.role v.node).own

theorem belongsTo_stepsAt (hroot : ∀ o, v.role = .program o → v.node = t.root) :
    BelongsTo t v.node (t.stepsAt v) := by
  unfold stepsAt
  cases hkind : t.kind? v.node with
  | none =>
    rw [layout_of_kind?_eq_none hkind]
    exact .nil
  | some kind =>
    rw [layout_of_kind? hkind, first_layoutOfKind]
    exact .append (.ite (.enter (by decide) _ _) .nil) (belongsTo_own hkind hroot)

/-- The marks of a visited node are its own steps. -/
theorem exists_mem_marks_iff {step : Step String} (hleave : ∀ block, step ≠ .leave block) :
    (∃ l ∈ t.marks v, l.step = step) ↔ step ∈ t.stepsAt v := by
  constructor
  · rintro ⟨l, hl, rfl⟩
    exact List.mem_append.2 ((List.mem_append.1 hl).imp Step.mem_of_mem_trace
      Step.mem_of_mem_trace)
  · intro hstep
    rcases List.mem_append.1 hstep with hstep | hstep
    · obtain ⟨l, hl, hstep⟩ := Step.exists_mem_trace v.blocks hstep hleave
      exact ⟨l, List.mem_append_left _ hl, hstep⟩
    · obtain ⟨l, hl, hstep⟩ := Step.exists_mem_trace (t.outside v) hstep hleave
      exact ⟨l, List.mem_append_right _ hl, hstep⟩

/-- The steps of a walk are those that the visited nodes take. -/
theorem mem_iff_exists_visit {steps : Outline} {blocks : List NodeId}
    (h : (Step.trace blocks steps).Perm (t.marksFrom v)) {step : Step String}
    (hleave : ∀ block, step ≠ .leave block) :
    step ∈ steps ↔ ∃ w ∈ t.visits v, step ∈ t.stepsAt w := by
  simp only [← exists_mem_marks_iff hleave]
  constructor
  · intro hstep
    obtain ⟨l, hl, hstep⟩ := Step.exists_mem_trace blocks hstep hleave
    obtain ⟨w, hw, hl⟩ := List.mem_flatMap.1 (h.mem_iff.1 hl)
    exact ⟨w, hw, l, hl, hstep⟩
  · rintro ⟨w, hw, l, hl, rfl⟩
    exact Step.mem_of_mem_trace (h.mem_iff.2 (List.mem_flatMap.2 ⟨w, hw, hl⟩))

/-- Only the root is in the role of the program. -/
theorem node_eq_root (hv : ∀ o, v.role = .program o → v.node = t.root) (hw : w ∈ t.visits v)
    (o : LanguageOptions) (hrole : w.role = .program o) : w.node = t.root := by
  rcases mem_visits_cases hw with rfl | ⟨u, -, hu⟩
  · exact hv o hrole
  · exact absurd hrole (role_ne_program hu)

end Visits

end Tree

section Steps

variable {t : Tree} {n : NodeId} {c : Context} {o : LanguageOptions} {outline : Outline}

/-- An import in the wrong place stands at or below the node whose steps report it. -/
theorem below_of_misplacedImport_mem_steps (hn : n.index < t.root.index) {m : NodeId}
    (h : .misplacedImport m ∈ t.steps c n) : t.Below m n ∧ t.isImport m := by
  have hperm := (plays_stepsWithin c hn (Nat.lt_succ_self n.index)).trace_perm []
    fun _ hb => nomatch hb
  obtain ⟨w, hw, hstep⟩ := (Tree.mem_iff_exists_visit hperm fun _ => by simp).1 h
  have hroot := Tree.node_eq_root (fun o (h : Role.visited c = .program o) => nomatch h) hw
  obtain ⟨rfl, himport⟩ := (Tree.belongsTo_stepsAt hroot).misplaced hstep
  exact ⟨Tree.below_of_mem_visits hw, himport⟩

/-- The steps of a program are those of its visited nodes. -/
theorem mem_outline_iff (houtline : t.outline? o = some outline) {step : Step String}
    (hleave : ∀ block, step ≠ .leave block) :
    step ∈ outline ↔ ∃ v ∈ t.visits (t.rootVisit o), step ∈ t.stepsAt v :=
  Tree.mem_iff_exists_visit (perm_trace_outline houtline) hleave

theorem belongsTo_of_mem_visits {v : Visit} (hv : v ∈ t.visits (t.rootVisit o)) :
    Outline.BelongsTo t v.node (t.stepsAt v) :=
  Tree.belongsTo_stepsAt (Tree.node_eq_root (fun _ _ => rfl) hv)

/-- Only `arguments` is declared without a definition, and exactly if the scope of a function other
than an arrow function opens. -/
theorem undefined_mem_outline_iff (houtline : t.outline? o = some outline) {name : String} :
    (∃ place, .declare place name none ∈ outline) ↔
      name = "arguments" ∧
        ∃ n strict, .enter .function n strict ∈ outline ∧ t.isArrow n = false := by
  constructor
  · rintro ⟨place, hstep⟩
    obtain ⟨v, hv, hstep⟩ := (mem_outline_iff houtline fun _ => by simp).1 hstep
    obtain ⟨rfl, harrow, strict, henter⟩ := (belongsTo_of_mem_visits hv).undefined hstep
    exact ⟨rfl, v.node, strict, (mem_outline_iff houtline fun _ => by simp).2 ⟨v, hv, henter⟩,
      harrow⟩
  · rintro ⟨rfl, n, strict, henter, harrow⟩
    obtain ⟨v, hv, henter⟩ := (mem_outline_iff houtline fun _ => by simp).1 henter
    obtain ⟨rfl, hdeclare⟩ := (belongsTo_of_mem_visits hv).function henter
    exact ⟨.current, (mem_outline_iff houtline fun _ => by simp).2 ⟨v, hv, hdeclare harrow⟩⟩

end Steps

end LexicalScope
