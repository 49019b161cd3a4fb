import LexicalScope.Proofs.RoleTrace
import LexicalScope.Proofs.Visits

/-!
What the steps of a walk say of the tree is so. The nodes that they name belong to it, and an
identifier is referred to in one of four ways. Only an assignment outside of a declaration names
a node that assigns, and that node is an assignment expression or a loop over values.
-/
namespace LexicalScope

variable {ν : Type}

def NodeKind.assigns : NodeKind → Bool
  | assignmentExpression .. | forInStatement .. | forOfStatement .. => true
  | _ => false

def Tree.assigns (t : Tree) (n : NodeId) : Bool :=
  (t.kind? n).any NodeKind.assigns

/-- The ways to refer to a variable at an identifier of the tree. -/
inductive Tree.Uses (t : Tree) : Occurrence ν → Prop
  | read {n : NodeId} {name : ν} (hn : t.contains n) :
    Uses t { identifier := n, name, access := .read }
  | update {n : NodeId} {name : ν} {expr : Option NodeId} (hn : t.contains n)
      (hexpr : ∀ m ∈ expr, t.contains m) :
    Uses t { identifier := n, name, access := .readWrite, writeExpr := expr }
  | initialise {n expr : NodeId} {name : ν} {partialWrite : Bool} (hn : t.contains n)
      (hexpr : t.contains expr) :
    Uses t {
      identifier := n, name, access := .write, writeExpr := some expr, partialWrite, init := true }
  | assign {n expr node : NodeId} {name : ν} {partialWrite : Bool} (hn : t.contains n)
      (hexpr : t.contains expr) (hnode : t.assigns node) :
    Uses t {
      identifier := n, name, access := .write, writeExpr := some expr, partialWrite,
      assignment := some node }

/-- All nodes of a definition belong to the tree. -/
structure Definition.IsGrounded (t : Tree) (d : Definition) : Prop where
  name : t.contains d.name
  node : t.contains d.node
  parent : ∀ p ∈ d.parent, t.contains p

namespace Step

def IsGrounded (t : Tree) : Step ν → Prop
  | enter _ block _ => t.contains block
  | leave _ => True
  | declare _ _ definition => ∀ d ∈ definition, d.IsGrounded t
  | refer o => t.Uses o
  | this => True
  | misplacedImport n => t.contains n

/-- Every step but a leaving one is in the trace. -/
theorem exists_mem_trace (blocks : List NodeId) {steps : List (Step ν)} {step : Step ν}
    (h : step ∈ steps) (hleave : ∀ block, step ≠ .leave block) :
    ∃ l ∈ trace blocks steps, l.step = step := by
  induction steps generalizing blocks with
  | nil => cases h
  | cons first steps ih =>
    rw [trace]
    rcases List.mem_cons.1 h with rfl | h
    · refine ⟨⟨blocks, step⟩, List.mem_append_left _ ?_, rfl⟩
      cases step with
      | leave block => exact absurd rfl (hleave block)
      | _ => exact List.mem_singleton_self _
    · obtain ⟨l, hl, hstep⟩ := ih (first.blocksAfter blocks) h
      exact ⟨l, List.mem_append_right _ hl, hstep⟩

/-- Renaming leaves the nodes of a step. -/
theorem isGrounded_mapName {t : Tree} {μ : Type} (f : ν → μ) {step : Step ν}
    (h : step.IsGrounded t) : (step.mapName f).IsGrounded t := by
  cases step with
  | refer o =>
    cases h with
    | read hn => exact .read hn
    | update hn hexpr => exact .update hn hexpr
    | initialise hn hexpr => exact .initialise hn hexpr
    | assign hn hexpr hnode => exact .assign hn hexpr hnode
  | _ => exact h

end Step

def PatternUse.IsGrounded (t : Tree) : PatternUse → Prop
  | parameter function _ => t.contains function
  | catchParameter clause => t.contains clause
  | declarator declaration node _ _ init right =>
    t.contains declaration ∧ t.contains node ∧ (∀ m ∈ init, t.contains m) ∧
      ∀ m ∈ right, t.contains m
  | assignment node right _ => t.assigns node ∧ t.contains right

/-- The nodes of other places that a role carries belong to the tree. -/
def Role.IsGrounded (t : Tree) : Role → Prop
  | updated writeExpr => ∀ m ∈ writeExpr, t.contains m
  | target _ use _ s => use.IsGrounded t ∧ ∀ d ∈ s.defaults, t.contains d.right
  | declarator _ declaration _ _ right => t.contains declaration ∧ ∀ m ∈ right, t.contains m
  | loopHead _ right => t.contains right
  | _ => True

/-- A node takes grounded steps of its own and gives grounded roles to its children. -/
structure Layout.IsGrounded (t : Tree) (l : Layout) : Prop where
  own : ∀ step ∈ l.own, step.IsGrounded t
  slots : ∀ x ∈ l.slots, x.2.IsGrounded t

namespace Layout.IsGrounded

variable {t : Tree} {early late : List (NodeId × Role)} {own : Outline}

theorem of_late (hown : ∀ step ∈ own, step.IsGrounded t) (hlate : ∀ x ∈ late, x.2.IsGrounded t) :
    Layout.IsGrounded t { own, late } :=
  ⟨hown, hlate⟩

theorem of_early (hown : ∀ step ∈ own, step.IsGrounded t)
    (hearly : ∀ x ∈ early, x.2.IsGrounded t) (hlate : ∀ x ∈ late, x.2.IsGrounded t) :
    Layout.IsGrounded t { early, own, late } :=
  ⟨hown, List.forall_mem_append.2 ⟨hearly, hlate⟩⟩

end Layout.IsGrounded

namespace Role

theorem isGrounded_visitAll (t : Tree) (c : Context) (nodes : List NodeId) :
    ∀ x ∈ visitAll c nodes, x.2.IsGrounded t :=
  List.forall_mem_map.2 fun _ _ => trivial

theorem isGrounded_skipAll (t : Tree) (nodes : List NodeId) :
    ∀ x ∈ skipAll nodes, x.2.IsGrounded t :=
  List.forall_mem_map.2 fun _ _ => trivial

theorem isGrounded_key (t : Tree) (c : Context) (computed : Bool) :
    (key c computed).IsGrounded t := by
  cases computed <;> trivial

end Role

namespace Tree

variable {t : Tree} {n m : NodeId} {kind : NodeKind}

theorem contains_of_kind? (hkind : t.kind? n = some kind) : t.contains n :=
  decide_eq_true (kind?_eq_some_iff.1 hkind).1

/-- The children of a node belong to its tree. -/
theorem contains_of_mem_children (hkind : t.kind? n = some kind) (hm : m ∈ kind.children) :
    t.contains m := by
  have hn := of_decide_eq_true (contains_of_kind? hkind)
  have hlt := index_lt_of_mem_childrenOf (mem_childrenOf_iff.2 ⟨kind, hkind, hm⟩)
  exact decide_eq_true (Nat.lt_trans hlt hn)

theorem contains_of_identifierName? {name : String} (h : t.identifierName? n = some name) :
    t.contains n := by
  obtain ⟨kind, hkind, -⟩ := Option.bind_eq_some_iff.1 h
  exact contains_of_kind? hkind

theorem contains_of_assigns (h : t.assigns n) : t.contains n := by
  rw [assigns, Option.any_eq_true] at h
  obtain ⟨kind, hkind, -⟩ := h
  exact contains_of_kind? hkind

section Steps

/-- A definition is only made at an identifier. -/
theorem grounded_declareAt (place : Place) {id : NodeId} {d : Definition} (hid : d.name = id)
    (hnode : t.contains d.node) (hparent : ∀ p ∈ d.parent, t.contains p) :
    ∀ step ∈ t.declareAt place id d, step.IsGrounded t := by
  unfold declareAt
  cases hname : t.identifierName? id with
  | none => exact List.forall_mem_nil _
  | some name =>
    refine List.forall_mem_singleton.2 fun d' hd' => ?_
    obtain rfl := Option.mem_some_iff.1 hd'
    exact ⟨hid ▸ contains_of_identifierName? hname, hnode, hparent⟩

theorem grounded_updateAt (n : NodeId) {writeExpr : Option NodeId}
    (hexpr : ∀ m ∈ writeExpr, t.contains m) :
    ∀ step ∈ t.updateAt n writeExpr, step.IsGrounded t := by
  unfold updateAt
  cases hname : t.identifierName? n with
  | none => exact List.forall_mem_nil _
  | some name =>
    exact List.forall_mem_singleton.2 (.update (contains_of_identifierName? hname) hexpr)

/-- A target is declared or written with the nodes of its pattern. -/
theorem grounded_useSteps {x : PatternTarget} (hx : t.contains x.identifier)
    (hdefaults : ∀ d ∈ x.defaults, t.contains d.right) {use : PatternUse}
    (huse : use.IsGrounded t) : ∀ step ∈ use.steps x, step.IsGrounded t := by
  have hdeclare (place : Place) {d : Definition} (hname : d.name = x.identifier)
      (hnode : t.contains d.node) (hparent : ∀ p ∈ d.parent, t.contains p) :
      ∀ step ∈ x.declare place d, step.IsGrounded t := by
    refine List.forall_mem_cons.2 ⟨fun d' hd' => ?_, List.forall_mem_map.2 fun e he => ?_⟩
    · obtain rfl := Option.mem_some_iff.1 hd'
      exact ⟨hname ▸ hx, hnode, hparent⟩
    · exact .initialise hx (hdefaults e he)
  cases use with
  | parameter function index => exact hdeclare _ rfl huse nofun
  | catchParameter clause => exact hdeclare _ rfl huse nofun
  | declarator declaration node kind index init right =>
    obtain ⟨hdeclaration, hnode, hinit, hright⟩ := huse
    refine List.forall_mem_append.2 ⟨List.forall_mem_append.2 ⟨?_, ?_⟩, ?_⟩
    · refine hdeclare _ rfl hnode fun p hp => ?_
      obtain rfl := Option.mem_some_iff.1 hp
      exact hdeclaration
    · exact List.forall_mem_map.2 fun e he => .initialise hx (hinit e (Option.mem_toList.1 he))
    · exact List.forall_mem_map.2 fun e he => .initialise hx (hright e (Option.mem_toList.1 he))
  | assignment node right whole =>
    refine List.forall_mem_append.2 ⟨List.forall_mem_map.2 fun d hd => ?_, ?_⟩
    · exact .assign hx (hdefaults d hd) huse.1
    · exact List.forall_mem_singleton.2 (.assign hx huse.2 huse.1)

theorem grounded_enterFunction (hn : t.contains n) (strict isArrow : Bool) :
    ∀ step ∈ enterFunction n strict isArrow, step.IsGrounded t := by
  refine List.forall_mem_cons.2 ⟨hn, ?_⟩
  cases isArrow with
  | true => exact List.forall_mem_nil _
  | false =>
    refine List.forall_mem_singleton.2 fun d hd => ?_
    cases hd

theorem grounded_functionNameSteps (hn : t.contains n) (kind : NodeKind) :
    ∀ step ∈ t.functionNameSteps n kind, step.IsGrounded t := by
  unfold functionNameSteps
  split
  · exact grounded_declareAt _ rfl hn nofun
  · exact List.forall_mem_cons.2 ⟨hn, grounded_declareAt _ rfl hn nofun⟩
  · exact List.forall_mem_nil _

theorem grounded_importSteps (hn : t.contains n) {specifiers : List NodeId}
    (hspecifiers : ∀ m ∈ specifiers, t.contains m) (kind : ImportKind) :
    ∀ step ∈ t.importSteps n specifiers kind, step.IsGrounded t := by
  refine List.forall_mem_flatMap.2 fun specifier hspecifier => ?_
  split
  · refine grounded_declareAt _ rfl (hspecifiers specifier hspecifier) fun p hp => ?_
    obtain rfl := Option.mem_some_iff.1 hp
    exact hn
  · exact List.forall_mem_nil _

/-- The scopes of a program are anchored at its root. -/
theorem grounded_enterProgram (t : Tree) (o : LanguageOptions) (sourceType : SourceType) :
    ∀ step ∈ t.enterProgram o sourceType, step.IsGrounded t := by
  have hroot : t.contains t.root := decide_eq_true t.root_lt
  refine List.forall_mem_cons.2 ⟨hroot, List.forall_mem_append.2 ⟨?_, ?_⟩⟩
  · split
    · exact grounded_enterFunction hroot _ _
    · exact List.forall_mem_nil _
  · split
    · exact List.forall_mem_singleton.2 hroot
    · exact List.forall_mem_nil _

end Steps

section Layouts

/-- The children of a layout, one after the other. -/
theorem grounded_pair {x y : NodeId × Role} (hx : x.2.IsGrounded t) (hy : y.2.IsGrounded t) :
    ∀ z ∈ [x, y], z.2.IsGrounded t :=
  List.forall_mem_cons.2 ⟨hx, List.forall_mem_singleton.2 hy⟩

variable (hkind : t.kind? n = some kind)
include hkind

theorem grounded_functionLayout (c : Context) (id : Option NodeId) (params : List NodeId)
    (body : Option NodeId) : (t.functionLayout c n kind id params body).IsGrounded t := by
  have hn := contains_of_kind? hkind
  refine .of_late (List.forall_mem_append.2 ⟨grounded_functionNameSteps hn kind,
    grounded_enterFunction hn _ _⟩) ?_
  refine List.forall_mem_append.2 ⟨List.forall_mem_append.2 ⟨Role.isGrounded_skipAll t _,
    List.forall_mem_map.2 fun _ _ => ⟨hn, nofun⟩⟩, List.forall_mem_map.2 fun _ _ => trivial⟩

theorem grounded_classLayout (c : Context) (isDeclaration : Bool) (parts : Class) :
    (t.classLayout c n isDeclaration parts).IsGrounded t := by
  have hn := contains_of_kind? hkind
  have hnamed : ∀ step ∈ parts.id.toList.flatMap fun id =>
      t.declareAt .current id { kind := .className, name := id, node := n },
      step.IsGrounded t :=
    List.forall_mem_flatMap.2 fun _ _ => grounded_declareAt _ rfl hn nofun
  refine .of_late (List.forall_mem_append.2 ⟨?_, List.forall_mem_cons.2 ⟨hn, hnamed⟩⟩) ?_
  · cases isDeclaration with
    | true => exact hnamed
    | false => exact List.forall_mem_nil _
  · exact List.forall_mem_append.2 ⟨Role.isGrounded_skipAll t _, Role.isGrounded_visitAll t c _⟩

theorem grounded_loopLayout (hassigns : kind.assigns) (c : Context) {left right body : NodeId}
    (hright : right ∈ kind.children) : (t.loopLayout c n left right body).IsGrounded t := by
  have hright := contains_of_mem_children hkind hright
  refine .of_late ?_ (List.forall_mem_cons.2 ⟨?_, grounded_pair trivial trivial⟩)
  · split
    · exact List.forall_mem_singleton.2 (contains_of_kind? hkind)
    · exact List.forall_mem_nil _
  · dsimp only
    split
    · exact hright
    · exact ⟨⟨by rwa [assigns, hkind, Option.any_some], hright⟩, nofun⟩

/-- The parts of a visited node name nodes of the tree only. -/
theorem grounded_visitedLayout (c : Context) : (t.visitedLayout c n kind).IsGrounded t := by
  have hn := contains_of_kind? hkind
  have hchild {m : NodeId} (hm : m ∈ kind.children) := contains_of_mem_children hkind hm
  have hnone := List.forall_mem_nil fun step : Step String => step.IsGrounded t
  have henter (kind : ScopeKind) :
      ∀ step ∈ ([.enter kind n false] : Outline), step.IsGrounded t :=
    List.forall_mem_singleton.2 hn
  have hwritten (m : NodeId) (hm : m ∈ none) : t.contains m := absurd hm (Option.not_mem_none m)
  have hkey := Role.isGrounded_key t c
  have hvisited := Role.isGrounded_visitAll t c
  have hskipped := Role.isGrounded_skipAll t
  cases kind with
  | identifier name =>
    exact .of_late (List.forall_mem_singleton.2 (.read hn)) (List.forall_mem_nil _)
  | thisExpression =>
    exact .of_late (List.forall_mem_singleton.2 trivial) (List.forall_mem_nil _)
  | metaProperty | breakStatement | continueStatement | exportAllDeclaration =>
    exact .of_late hnone (hskipped _)
  | assignmentExpression operator left right =>
    have hright := hchild (m := right) (by simp [NodeKind.children])
    refine .of_late hnone (grounded_pair ?_ trivial)
    unfold assignedRole
    split
    · split
      · exact ⟨⟨by rw [assigns, hkind]; rfl, hright⟩, List.forall_mem_nil _⟩
      · exact fun m hm => Option.mem_some_iff.1 hm ▸ hright
    · trivial
  | updateExpression operator isPrefix argument =>
    refine .of_late hnone (List.forall_mem_singleton.2 ?_)
    dsimp only
    split
    · exact hwritten
    · trivial
  | memberExpression object key computed _ => exact .of_late hnone (grounded_pair trivial (hkey _))
  | property p => exact .of_late hnone (grounded_pair (hkey _) trivial)
  | methodDefinition m => exact .of_late hnone (grounded_pair (hkey _) trivial)
  | propertyDefinition p =>
    exact .of_late hnone (List.forall_mem_cons.2
      ⟨hkey _, List.forall_mem_map.2 fun _ _ => trivial⟩)
  | labeledStatement label body => exact .of_late hnone (grounded_pair trivial trivial)
  | staticBlock body => exact .of_late (henter _) (hvisited body)
  | blockStatement body => exact .of_late (henter _) (hvisited body)
  | forStatement start test update body =>
    refine .of_late ?_ (hvisited _)
    split
    · exact henter _
    · exact hnone
  | forInStatement left right body =>
    exact grounded_loopLayout hkind rfl c (by simp [NodeKind.children])
  | forOfStatement left right body _ =>
    exact grounded_loopLayout hkind rfl c (by simp [NodeKind.children])
  | switchStatement discriminant cases =>
    exact .of_early (henter _) (List.forall_mem_singleton.2 trivial) (hvisited cases)
  | withStatement object body =>
    exact .of_early (henter _) (List.forall_mem_singleton.2 trivial)
      (List.forall_mem_singleton.2 trivial)
  | catchClause param body =>
    exact .of_late (henter _) (List.forall_mem_append.2
      ⟨List.forall_mem_map.2 fun _ _ => ⟨hn, List.forall_mem_nil _⟩,
        List.forall_mem_singleton.2 trivial⟩)
  | variableDeclaration kind declarations =>
    exact .of_late hnone (List.forall_mem_map.2 fun _ _ => ⟨hn, hwritten⟩)
  | functionDeclaration f => exact grounded_functionLayout hkind c _ _ _
  | functionExpression f => exact grounded_functionLayout hkind c _ _ _
  | arrowFunctionExpression f => exact grounded_functionLayout hkind c _ _ _
  | classDeclaration parts => exact grounded_classLayout hkind c true parts
  | classExpression parts => exact grounded_classLayout hkind c false parts
  | importDeclaration specifiers source importKind =>
    refine .of_late ?_ (hskipped _)
    split
    · exact grounded_importSteps hn (fun m hm => hchild (List.mem_append_left _ hm)) importKind
    · exact List.forall_mem_singleton.2 hn
  | exportNamedDeclaration declaration specifiers source =>
    cases source with
    | some source => exact .of_late hnone (hskipped _)
    | none =>
      cases declaration with
      | none => exact .of_late hnone (hvisited _)
      | some declaration =>
        exact .of_late hnone (List.forall_mem_cons.2 ⟨trivial, hskipped specifiers⟩)
  | exportSpecifier localName exported => exact .of_late hnone (grounded_pair trivial trivial)
  | _ => exact .of_late hnone (hvisited _)

/-- Targets name nodes of the tree if what surrounds them does. -/
theorem grounded_targetLayout (c : Context) {use : PatternUse} (huse : use.IsGrounded t)
    (root : NodeId) {s : Pattern.Surroundings} (hs : ∀ d ∈ s.defaults, t.contains d.right) :
    (targetLayout c use root s n kind).IsGrounded t := by
  have hnone := List.forall_mem_nil fun step : Step String => step.IsGrounded t
  have hkey := Role.isGrounded_key t c
  have hrole : (Role.target c use root s).IsGrounded t := ⟨huse, hs⟩
  have hdefault (left : NodeId) {right : NodeId} (hright : right ∈ kind.children) :
      (Role.target c use root
        { s with defaults := s.defaults ++ [⟨n, left, right⟩] }).IsGrounded t :=
    ⟨huse, List.forall_mem_append.2
      ⟨hs, List.forall_mem_singleton.2 (contains_of_mem_children hkind hright)⟩⟩
  cases kind with
  | identifier name =>
    exact .of_late (grounded_useSteps (contains_of_kind? hkind) hs huse) (List.forall_mem_nil _)
  | property p => exact .of_late hnone (grounded_pair (hkey _) hrole)
  | assignmentPattern left right =>
    exact .of_late hnone (grounded_pair (hdefault left (by simp [NodeKind.children])) trivial)
  | assignmentExpression operator left right =>
    exact .of_late hnone (grounded_pair (hdefault left (by simp [NodeKind.children])) trivial)
  | restElement argument => exact .of_late hnone (List.forall_mem_singleton.2 ⟨huse, hs⟩)
  | memberExpression object key computed _ => exact .of_late hnone (grounded_pair trivial (hkey _))
  | callExpression callee arguments _ =>
    exact .of_late hnone (List.forall_mem_cons.2 ⟨hrole, Role.isGrounded_visitAll t c arguments⟩)
  | _ => exact .of_late hnone (List.forall_mem_map.2 fun _ _ => hrole)

theorem grounded_layoutOfKind {role : Role} (hrole : role.IsGrounded t) :
    (t.layoutOfKind n kind role).IsGrounded t := by
  have hnone := List.forall_mem_nil fun step : Step String => step.IsGrounded t
  have hvisited := grounded_visitedLayout hkind
  have hskipped := Role.isGrounded_skipAll t
  cases role with
  | visited c => exact hvisited c
  | fieldValue c => exact ⟨(hvisited c).own, (hvisited c).slots⟩
  | skipped => exact .of_late hnone (hskipped _)
  | updated writeExpr => exact .of_late (grounded_updateAt n hrole) (hskipped _)
  | target c use root s => exact grounded_targetLayout hkind c hrole.1 root hrole.2
  | program o =>
    cases kind with
    | program body sourceType =>
      exact .of_late (t.grounded_enterProgram o sourceType) (Role.isGrounded_visitAll t _ body)
    | _ => exact .of_late hnone (hskipped _)
  | functionBody c =>
    cases kind with
    | blockStatement statements => exact .of_late hnone (Role.isGrounded_visitAll t c statements)
    | _ => exact hvisited c
  | declarator c declaration variableKind index right =>
    cases kind with
    | variableDeclarator id init =>
      have hinit (m : NodeId) (hm : m ∈ init) : t.contains m :=
        contains_of_mem_children hkind (List.mem_cons_of_mem _ (Option.mem_toList.2 hm))
      exact .of_late hnone (List.forall_mem_cons.2
        ⟨⟨⟨hrole.1, contains_of_kind? hkind, hinit, hrole.2⟩, nofun⟩,
          Role.isGrounded_visitAll t c _⟩)
    | _ => exact .of_late hnone (hskipped _)
  | loopHead c right =>
    cases kind with
    | variableDeclaration variableKind declarations =>
      refine .of_late hnone (List.forall_mem_map.2 fun x _ =>
        ⟨contains_of_kind? hkind, fun m hm => ?_⟩)
      split at hm
      · exact Option.mem_some_iff.1 hm ▸ hrole
      · cases hm
    | _ => exact hvisited c

end Layouts

theorem grounded_layout {role : Role} (hrole : role.IsGrounded t) (n : NodeId) :
    (t.layout role n).IsGrounded t := by
  unfold layout
  cases hkind : t.kind? n with
  | none => exact ⟨List.forall_mem_nil _, List.forall_mem_nil _⟩
  | some kind => exact grounded_layoutOfKind hkind hrole

/-- Grounded roles are all that a walk hands down. -/
theorem role_of_mem_visits {v : Visit} (hv : v.role.IsGrounded t) :
    ∀ w ∈ t.visits v, w.role.IsGrounded t :=
  visits_down (motive := fun w => w.role.IsGrounded t) hv
    fun _ _ hu _ hw => (grounded_layout hu _).slots _ (slot_of_mem_inner hw)

/-- Every step of a visited node names nodes of the tree. -/
theorem grounded_of_mem_marks {v : Visit} (hv : v.role.IsGrounded t) {l : Located String}
    (h : l ∈ t.marks v) : l.step.IsGrounded t := by
  rcases List.mem_append.1 h with h | h
  · have hstep := Step.mem_of_mem_trace h
    rw [layout] at hstep
    cases hkind : t.kind? v.node with
    | none =>
      rw [hkind] at hstep
      cases hstep
    | some kind =>
      rw [hkind, Option.elim_some, first_layoutOfKind] at hstep
      split at hstep
      · exact List.mem_singleton.1 hstep ▸ contains_of_kind? hkind
      · cases hstep
  · exact (grounded_layout hv v.node).own _ (Step.mem_of_mem_trace h)

end Tree

section Outline

variable {t : Tree} {o : LanguageOptions} {outline : Outline}

theorem grounded_of_mem_trace (houtline : t.outline? o = some outline) {l : Located String}
    (h : l ∈ Step.trace [] outline) : l.step.IsGrounded t := by
  obtain ⟨v, hv, hl⟩ := List.mem_flatMap.1 ((perm_trace_outline houtline).mem_iff.1 h)
  exact Tree.grounded_of_mem_marks (Tree.role_of_mem_visits (by exact trivial) v hv) hl

/-- The steps of a program are grounded in its tree. -/
theorem grounded_of_mem_outline (houtline : t.outline? o = some outline) {step : Step String}
    (h : step ∈ outline) : step.IsGrounded t := by
  by_cases hleave : ∃ block, step = .leave block
  · obtain ⟨block, rfl⟩ := hleave
    trivial
  · obtain ⟨l, hl, rfl⟩ := Step.exists_mem_trace [] h fun block heq => hleave ⟨block, heq⟩
    exact grounded_of_mem_trace houtline hl

end Outline

end LexicalScope
