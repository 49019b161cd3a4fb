import LexicalScope.Proofs.RoleTrace
import LexicalScope.Proofs.Visits

/-!
The shape of an ESTree syntax tree, as far as the meaning of identifiers depends on it: where only
names stand, where targets of patterns stand, where declarators and specifiers stand. In a tree of
this shape the role of every node suits its kind and its place.
-/
namespace LexicalScope

namespace NodeKind

def isName : NodeKind → Bool
  | identifier _ | privateIdentifier _ | literal .. => true
  | _ => false

def isLiteral : NodeKind → Bool
  | literal .. => true
  | _ => false

/-- What can be bound or assigned, and the patterns around it. -/
def isTarget : NodeKind → Bool
  | identifier _ | memberExpression .. | objectPattern _ => true
  | arrayPattern _ | restElement _ | assignmentPattern .. => true
  | _ => false

def isProperty : NodeKind → Bool
  | property _ => true
  | _ => false

def isDeclarator : NodeKind → Bool
  | variableDeclarator .. => true
  | _ => false

def isVariableDeclaration : NodeKind → Bool
  | variableDeclaration .. => true
  | _ => false

def isImportDeclaration : NodeKind → Bool
  | importDeclaration .. => true
  | _ => false

def isImportSpecifier : NodeKind → Bool
  | importSpecifier .. | importDefaultSpecifier _ | importNamespaceSpecifier _ => true
  | _ => false

def isExportSpecifier : NodeKind → Bool
  | exportSpecifier .. => true
  | _ => false

/-- An export of what another module has. -/
def isReexport : NodeKind → Bool
  | exportNamedDeclaration _ _ (some _) | exportAllDeclaration .. => true
  | _ => false

/-- The children that are only names: keys and member names that are not computed, labels, the
parts of a meta property, the names of functions and classes, what an import specifier imports and
binds, and the exported names of an export. -/
def names : NodeKind → List NodeId
  | property p => if p.computed then [] else [p.key]
  | methodDefinition m => if m.computed then [] else [m.key]
  | propertyDefinition p => if p.computed then [] else [p.key]
  | memberExpression _ key computed _ => if computed then [] else [key]
  | labeledStatement label _ => [label]
  | breakStatement label | continueStatement label => label.toList
  | metaProperty object key => [object, key]
  | functionDeclaration f | functionExpression f => f.id.toList
  | classDeclaration c | classExpression c => c.id.toList
  | importSpecifier imported localName _ => [imported, localName]
  | importDefaultSpecifier localName | importNamespaceSpecifier localName => [localName]
  | exportSpecifier _ exported => [exported]
  | exportAllDeclaration exported _ => exported.toList
  | _ => []

/-- The children that are bound or assigned, apart from those of assignments and loops. -/
def targets : NodeKind → List NodeId
  | functionDeclaration f | functionExpression f => f.params
  | arrowFunctionExpression f => f.params
  | catchClause param _ => param.toList
  | variableDeclarator id _ => [id]
  | arrayPattern elements => elements.filterMap id
  | restElement argument => [argument]
  | assignmentPattern left _ => [left]
  | _ => []

end NodeKind

namespace Tree

open NodeKind (isName isLiteral isTarget isProperty isDeclarator isImportSpecifier
  isExportSpecifier)

variable (t : Tree)

def admits (q : NodeKind → Bool) (n : NodeId) : Bool :=
  (t.kind? n).any q

def isPatternMember (n : NodeId) : Bool :=
  match t.kind? n with
  | some (.property p) => t.admits isTarget p.value
  | some (.restElement _) => true
  | _ => false

def shapedChildren : NodeKind → Bool
  | .objectPattern properties => properties.all t.isPatternMember
  | .assignmentExpression operator left _ =>
    if operator = .assign then
      t.admits isTarget left || !(t.isPattern left || t.admits isProperty left)
    else t.admits NodeKind.isIdentifier left || !t.isPattern left
  | .updateExpression _ _ argument =>
    t.admits NodeKind.isIdentifier argument || !t.isPattern argument
  | .forInStatement left .. | .forOfStatement left .. =>
    t.isDeclaration left || t.admits isTarget left
  | .variableDeclaration _ declarations => declarations.all (t.admits isDeclarator)
  | .importDeclaration specifiers source _ =>
    specifiers.all (t.admits isImportSpecifier) && t.admits isLiteral source
  | .exportSpecifier localName _ => t.admits isName localName
  | .exportNamedDeclaration declaration specifiers source =>
    specifiers.all (t.admits isExportSpecifier) && source.all (t.admits isLiteral) &&
      (declaration.isNone || specifiers.isEmpty && source.isNone)
  | .exportAllDeclaration _ source => t.admits isLiteral source
  | _ => true

/-- What the children of one kind of node have to be. Declarators and import specifiers stand in
declarations only. -/
def shaped (kind : NodeKind) : Bool :=
  kind.names.all (t.admits isName) && kind.targets.all (t.admits isTarget) &&
    (kind.isVariableDeclaration || kind.children.all fun c => !t.admits isDeclarator c) &&
    (kind.isImportDeclaration || kind.children.all fun c => !t.admits isImportSpecifier c) &&
    t.shapedChildren kind

/-- The children of every node in the tree are what ESTree has there. -/
def ESTreeShaped : Prop :=
  ∀ n kind, t.Below n t.root → t.kind? n = some kind → t.shaped kind

theorem estreeShaped_of_all {t : Tree} (h : t.nodes.all fun node => t.shaped node.kind) :
    t.ESTreeShaped := by
  intro n kind _ hkind
  obtain ⟨hn, rfl⟩ := kind?_eq_some_iff.1 hkind
  exact Array.all_eq_true.1 h n.index hn

def IsReexported (n : NodeId) : Prop :=
  ∃ e kind, t.Below e t.root ∧ t.kind? e = some kind ∧ kind.isReexport ∧ t.Below n e

/-- An identifier that stands for no variable. -/
def IsMereName (n : NodeId) : Prop :=
  (∃ p kind, t.kind? p = some kind ∧ n ∈ kind.names) ∨ t.IsReexported n

/-- The target of a compound assignment or of an update. -/
inductive IsUpdated : NodeId → Prop
  | assigned {n left right : NodeId} {operator : AssignmentOperator}
      (hkind : t.kind? n = some (.assignmentExpression operator left right))
      (hoperator : operator ≠ .assign) : IsUpdated left
  | updated {n argument : NodeId} {operator : UpdateOperator} {isPrefix : Bool}
      (hkind : t.kind? n = some (.updateExpression operator isPrefix argument)) :
      IsUpdated argument

/-- The loops over what a node gives, each with the head. -/
inductive IsLoop : NodeId → NodeId → Prop
  | forIn {n left right body : NodeId}
      (hkind : t.kind? n = some (.forInStatement left right body)) :
      IsLoop n left
  | forOf {n left right body : NodeId} {isAwait : Bool}
      (hkind : t.kind? n = some (.forOfStatement left right body isAwait)) : IsLoop n left

def IsLoopDeclarator (d : NodeId) : Prop :=
  ∃ n left kind rest, t.IsLoop n left ∧
    t.kind? left = some (.variableDeclaration kind (d :: rest))

/-- A node of a pattern, with the number of writes to a target that stands there: one for each
default around it, one for the initializer of its declarator, and one for the assignment or the
loop. -/
inductive Written : NodeId → Nat → Prop
  | parameter {n : NodeId} {kind : NodeKind} {params : List NodeId} {p : NodeId}
      (hkind : t.kind? n = some kind) (hparams : kind.functionParams? = some params)
      (hp : p ∈ params) : Written p 0
  | catchParameter {n p body : NodeId} (hkind : t.kind? n = some (.catchClause (some p) body)) :
      Written p 0
  | declarator {d id : NodeId} {init : Option NodeId}
      (hkind : t.kind? d = some (.variableDeclarator id init)) (hloop : ¬t.IsLoopDeclarator d) :
      Written id init.toList.length
  | loopDeclarator {d id : NodeId} {init : Option NodeId}
      (hkind : t.kind? d = some (.variableDeclarator id init)) (hloop : t.IsLoopDeclarator d) :
      Written id (init.toList.length + 1)
  | assigned {n left right : NodeId}
      (hkind : t.kind? n = some (.assignmentExpression .assign left right)) : Written left 1
  | loop {n left : NodeId} (hloop : t.IsLoop n left) : Written left 1
  | element {p x : NodeId} {elements : List (Option NodeId)} {k : Nat} (hp : Written p k)
      (hkind : t.kind? p = some (.arrayPattern elements)) (hx : some x ∈ elements) : Written x k
  | member {p x : NodeId} {properties : List NodeId} {k : Nat} (hp : Written p k)
      (hkind : t.kind? p = some (.objectPattern properties)) (hx : x ∈ properties) : Written x k
  | value {p : NodeId} {q : Property} {k : Nat} (hp : Written p k)
      (hkind : t.kind? p = some (.property q)) : Written q.value k
  | rest {p argument : NodeId} {k : Nat} (hp : Written p k)
      (hkind : t.kind? p = some (.restElement argument)) : Written argument k
  | default {p left right : NodeId} {k : Nat} (hp : Written p k)
      (hkind : t.kind? p = some (.assignmentPattern left right)) : Written left (k + 1)

/-- What role a node of some kind can have at its place. -/
def Suits (n : NodeId) (kind : NodeKind) : Role → Prop
  | .program _ => kind.isProgram
  | .skipped => kind.isName ∧ (kind.isIdentifier → t.IsMereName n) ∨ kind.isImportSpecifier ∨
      kind.isExportSpecifier ∧ t.IsReexported n
  | .visited _ | .fieldValue _ | .functionBody _ => ¬kind.isDeclarator ∧ ¬kind.isImportSpecifier
  | .updated _ => kind.isIdentifier ∧ t.IsUpdated n
  | .target .. => (∃ k, t.Written n k) ∧
      (kind.isTarget ∨ ∃ p, kind = .property p ∧ t.admits isTarget p.value)
  | .declarator _ _ _ _ right => kind.isDeclarator ∧ (right.isSome → t.IsLoopDeclarator n)
  | .loopHead .. => (∃ variableKind declarations,
      kind = .variableDeclaration variableKind declarations) ∧ ∃ loop, t.IsLoop loop n

/-- A node in a role that suits it. -/
def IsCast (n : NodeId) (role : Role) : Prop :=
  ∃ kind, t.kind? n = some kind ∧ t.Suits n kind role

section Cast

variable {t} {n c : NodeId} {kind : NodeKind} {role r : Role}

theorem admits_iff {q : NodeKind → Bool} :
    t.admits q n ↔ ∃ kind, t.kind? n = some kind ∧ q kind := by
  rw [admits, Option.any_eq_true]

theorem exists_kind?_of_mem_children (hkind : t.kind? n = some kind) (hc : c ∈ kind.children) :
    ∃ kind', t.kind? c = some kind' := by
  obtain ⟨hn, -⟩ := kind?_eq_some_iff.1 hkind
  exact t.exists_kind?_of_lt (Nat.lt_trans (index_lt_of_mem_children hkind hc) hn)

section Shaped

variable (h : t.shaped kind)
include h

theorem admits_name (hc : c ∈ kind.names) : t.admits isName c := by
  simp only [shaped, Bool.and_eq_true] at h
  exact List.all_eq_true.1 h.1.1.1.1 c hc

theorem admits_target (hc : c ∈ kind.targets) : t.admits isTarget c := by
  simp only [shaped, Bool.and_eq_true] at h
  exact List.all_eq_true.1 h.1.1.1.2 c hc

/-- What the kind of a node asks of particular children. -/
theorem shaped_rest : t.shapedChildren kind := by
  simp only [shaped, Bool.and_eq_true] at h
  exact h.2

/-- Declarators and import specifiers stand in their declarations only. -/
theorem isCast_visited (hkind : t.kind? n = some kind)
    (hdeclaration : kind.isVariableDeclaration = false)
    (himport : kind.isImportDeclaration = false) (hc : c ∈ kind.children)
    (context : Context) : t.IsCast c (.visited context) := by
  obtain ⟨kind', hkind'⟩ := exists_kind?_of_mem_children hkind hc
  simp only [shaped, Bool.and_eq_true, hdeclaration, himport, Bool.false_or] at h
  have hdeclarator := List.all_eq_true.1 h.1.1.2 c hc
  have hspecifier := List.all_eq_true.1 h.1.2 c hc
  simp only [admits, hkind', Option.any_some, Bool.not_eq_true'] at hdeclarator hspecifier
  exact ⟨kind', hkind', by simp [hdeclarator], by simp [hspecifier]⟩

end Shaped

/-- A name is skipped. -/
theorem isCast_skipped (h : t.admits isName c) (hname : t.IsMereName c) : t.IsCast c .skipped := by
  obtain ⟨kind, hkind, hisName⟩ := admits_iff.1 h
  exact ⟨kind, hkind, .inl ⟨hisName, fun _ => hname⟩⟩

theorem isCast_target (h : t.admits isTarget c) {k : Nat} (hwritten : t.Written c k)
    (context : Context) (use : PatternUse) (root : NodeId) (s : Pattern.Surroundings) :
    t.IsCast c (.target context use root s) := by
  obtain ⟨kind, hkind, hisTarget⟩ := admits_iff.1 h
  exact ⟨kind, hkind, ⟨k, hwritten⟩, .inl hisTarget⟩

theorem isCast_updated (h : t.admits NodeKind.isIdentifier c) (hupdated : t.IsUpdated c)
    (writeExpr : Option NodeId) : t.IsCast c (.updated writeExpr) := by
  obtain ⟨kind, hkind, hidentifier⟩ := admits_iff.1 h
  exact ⟨kind, hkind, hidentifier, hupdated⟩

theorem isCast_literal (h : t.admits isLiteral c) : t.IsCast c .skipped := by
  obtain ⟨kind, hkind, hliteral⟩ := admits_iff.1 h
  refine ⟨kind, hkind, .inl ?_⟩
  cases kind <;> simp_all [isLiteral, isName, NodeKind.isIdentifier]

/-- The head of a loop. -/
theorem isCast_loopHead (hloop : t.IsLoop n c)
    (h : t.isDeclaration c || t.admits isTarget c) (context : Context) (right : NodeId)
    (use : PatternUse) :
    t.IsCast c (if t.isDeclaration c then .loopHead context right
      else .target context use c {}) := by
  split
  · next hdeclaration =>
    obtain ⟨kind, hkind, hvariable⟩ := admits_iff.1 hdeclaration
    refine ⟨kind, hkind, ?_, n, hloop⟩
    cases kind <;> simp_all
  · next hne => exact isCast_target (by simpa [hne] using h) (.loop hloop) context use c {}

def AllCast (t : Tree) (slots : List (NodeId × Role)) : Prop :=
  ∀ x ∈ slots, t.IsCast x.1 x.2

namespace AllCast

variable {slots slots' : List (NodeId × Role)}

theorem nil : t.AllCast [] :=
  fun _ hx => nomatch hx

theorem cons (h : t.IsCast c r) (hs : t.AllCast slots) : t.AllCast ((c, r) :: slots) :=
  List.forall_mem_cons.2 ⟨h, hs⟩

theorem append (h : t.AllCast slots) (h' : t.AllCast slots') : t.AllCast (slots ++ slots') :=
  List.forall_mem_append.2 ⟨h, h'⟩

theorem map {α : Type} {l : List α} {slot : α → NodeId × Role}
    (h : ∀ x ∈ l, t.IsCast (slot x).1 (slot x).2) : t.AllCast (l.map slot) :=
  List.forall_mem_map.2 h

end AllCast

/-- The children of a visited node have roles that suit them. -/
theorem allCast_visitedLayout (h : t.shaped kind) (hkind : t.kind? n = some kind)
    (hn : t.Below n t.root) (hsuits : ¬kind.isDeclarator ∧ ¬kind.isImportSpecifier)
    (context : Context) : t.AllCast (t.visitedLayout context n kind).slots := by
  have hvisited {c : NodeId} := isCast_visited (t := t) (c := c) h hkind
  have hvisitedAll (hdeclaration : kind.isVariableDeclaration = false)
      (himport : kind.isImportDeclaration = false) (nodes : List NodeId)
      (hnodes : ∀ c ∈ nodes, c ∈ kind.children) : t.AllCast (Role.visitAll context nodes) :=
    .map fun c hc => hvisited hdeclaration himport (hnodes c hc) context
  have hnames (nodes : List NodeId) (hnodes : ∀ c ∈ nodes, c ∈ kind.names) :
      t.AllCast (Role.skipAll nodes) :=
    .map fun c hc =>
      isCast_skipped (admits_name h (hnodes c hc)) (.inl ⟨n, kind, hkind, hnodes c hc⟩)
  have hkey (key : NodeId) (computed : Bool) (hc : computed = false → key ∈ kind.names)
      (hvisited : t.IsCast key (.visited context)) : t.IsCast key (.key context computed) := by
    cases computed with
    | true => exact hvisited
    | false => exact hnames [key] (by simpa using hc) _ (List.mem_singleton_self _)
  have htarget {c : NodeId} {k : Nat} (hc : c ∈ kind.targets) :=
    isCast_target (t := t) (c := c) (k := k) (admits_target h hc)
  cases kind with
  | memberExpression object key computed _ =>
    refine .cons (hvisited rfl rfl (by simp [NodeKind.children]) context) (.cons ?_ .nil)
    exact hkey key computed (by simp [NodeKind.names])
      (hvisited rfl rfl (by simp [NodeKind.children]) context)
  | property p =>
    refine .cons ?_ (.cons (hvisited rfl rfl (by simp [NodeKind.children]) context) .nil)
    exact hkey p.key p.computed (by simp +contextual [NodeKind.names])
      (hvisited rfl rfl (by simp [NodeKind.children]) context)
  | methodDefinition m =>
    refine .cons ?_ (.cons (hvisited rfl rfl (by simp [NodeKind.children]) _) .nil)
    exact hkey m.key m.computed (by simp +contextual [NodeKind.names])
      (hvisited rfl rfl (by simp [NodeKind.children]) context)
  | propertyDefinition p =>
    refine .cons ?_ (.map fun value hvalue => ?_)
    · exact hkey p.key p.computed (by simp +contextual [NodeKind.names])
        (hvisited rfl rfl (by simp [NodeKind.children]) context)
    · exact hvisited rfl rfl (List.mem_cons_of_mem _ hvalue) context
  | labeledStatement label body =>
    exact (hnames [label] fun _ hc => hc).append
      (.cons (hvisited rfl rfl (by simp [NodeKind.children]) context) .nil)
  | breakStatement | continueStatement | metaProperty => exact hnames _ fun _ hc => hc
  | functionDeclaration f | functionExpression f =>
    refine ((hnames f.id.toList fun _ hc => hc).append (.map ?_)).append (.map ?_)
    · rintro ⟨p, index⟩ hmem
      have hp : p ∈ f.params := (List.mem_zipIdx' hmem).2 ▸ List.getElem_mem _
      exact htarget hp (.parameter hkind rfl hp) _ _ _ _
    · exact fun body hbody => hvisited rfl rfl (List.mem_append_right _ hbody) context
  | arrowFunctionExpression f =>
    refine (AllCast.map ?_).append (.map ?_)
    · rintro ⟨p, index⟩ hmem
      have hp : p ∈ f.params := (List.mem_zipIdx' hmem).2 ▸ List.getElem_mem _
      exact htarget hp (.parameter hkind rfl hp) _ _ _ _
    · exact fun body hbody => hvisited rfl rfl (List.mem_append_right _ hbody) context
  | classDeclaration parts | classExpression parts =>
    refine (hnames parts.id.toList fun _ hc => hc).append (hvisitedAll rfl rfl _ fun c hc => ?_)
    rw [NodeKind.children, List.append_assoc]
    exact List.mem_append_right _ hc
  | variableDeclarator id init => exact absurd rfl hsuits.1
  | importSpecifier | importDefaultSpecifier | importNamespaceSpecifier =>
    exact absurd rfl hsuits.2
  | assignmentExpression operator left right =>
    refine .cons ?_ (.cons (hvisited rfl rfl (by simp [NodeKind.children]) context) .nil)
    have hleft := hvisited (c := left) rfl rfl (by simp [NodeKind.children]) context
    have hrest := shaped_rest h
    unfold assignedRole
    unfold shapedChildren at hrest
    split
    · next hpattern =>
      split
      · next hassign =>
        subst hassign
        refine isCast_target ?_ (.assigned hkind) _ _ _ _
        simpa [hpattern] using hrest
      · next hne =>
        refine isCast_updated ?_ (.assigned hkind hne) _
        simpa [hpattern, hne] using hrest
    · exact hvisited rfl rfl (by simp [NodeKind.children]) context
  | updateExpression operator isPrefix argument =>
    refine .cons ?_ .nil
    have hrest := shaped_rest h
    unfold shapedChildren at hrest
    split
    · next hpattern =>
      refine isCast_updated ?_ (.updated hkind) _
      simpa [hpattern] using hrest
    · exact hvisited rfl rfl (by simp [NodeKind.children]) context
  | forInStatement left right body =>
    exact .cons (isCast_loopHead (.forIn hkind) (shaped_rest h) context _ _)
      (hvisitedAll rfl rfl [right, body] (by simp +contextual [NodeKind.children]))
  | forOfStatement left right body _ =>
    exact .cons (isCast_loopHead (.forOf hkind) (shaped_rest h) context _ _)
      (hvisitedAll rfl rfl [right, body] (by simp +contextual [NodeKind.children]))
  | catchClause param body =>
    refine (AllCast.map fun p hp => ?_).append
      (.cons (hvisited rfl rfl (by simp [NodeKind.children]) context) .nil)
    obtain rfl : param = some p := Option.mem_toList.1 hp
    exact htarget hp (.catchParameter hkind) _ _ _ _
  | switchStatement discriminant cases =>
    exact .cons (hvisited rfl rfl (List.mem_cons_self ..) context)
      (hvisitedAll rfl rfl cases fun _ hc => List.mem_cons_of_mem _ hc)
  | withStatement object body =>
    exact .cons (hvisited rfl rfl (by simp [NodeKind.children]) context)
      (.cons (hvisited rfl rfl (by simp [NodeKind.children]) context) .nil)
  | variableDeclaration kind declarations =>
    refine .map ?_
    rintro ⟨d, index⟩ hmem
    have hd : d ∈ declarations := (List.mem_zipIdx' hmem).2 ▸ List.getElem_mem _
    obtain ⟨kind', hkind', hdeclarator⟩ := admits_iff.1 (List.all_eq_true.1 (shaped_rest h) d hd)
    exact ⟨kind', hkind', hdeclarator, Bool.noConfusion⟩
  | importDeclaration specifiers source importKind =>
    have hrest := shaped_rest h
    simp only [shapedChildren, Bool.and_eq_true] at hrest
    refine .map fun c hc => ?_
    rcases List.mem_append.1 hc with hc | hc
    · obtain ⟨kind', hkind', hspecifier⟩ := admits_iff.1 (List.all_eq_true.1 hrest.1 c hc)
      exact ⟨kind', hkind', .inr (.inl hspecifier)⟩
    · exact isCast_literal (List.mem_singleton.1 hc ▸ hrest.2)
  | exportNamedDeclaration declaration specifiers source =>
    have hrest := shaped_rest h
    simp only [shapedChildren, Bool.and_eq_true, Bool.or_eq_true, Option.isNone_iff_eq_none,
      List.isEmpty_iff] at hrest
    obtain ⟨⟨hspecifiers, hsource⟩, hdeclaration⟩ := hrest
    cases source with
    | some source =>
      obtain rfl : declaration = none := hdeclaration.resolve_right fun h =>
        absurd h.2 (Option.some_ne_none _)
      refine .map fun c hc => ?_
      rcases List.mem_append.1 hc with hc | hc
      · obtain ⟨kind', hkind', hspecifier⟩ := admits_iff.1 (List.all_eq_true.1 hspecifiers c hc)
        have hbelow : t.Below c n := .single (mem_childrenOf_iff.2 ⟨_, hkind, by
          exact List.mem_append_left _ hc⟩)
        exact ⟨kind', hkind', .inr (.inr ⟨hspecifier, n, _, hn, hkind, rfl, hbelow⟩)⟩
      · exact isCast_literal (List.mem_singleton.1 hc ▸ hsource)
    | none =>
      cases declaration with
      | none => exact hvisitedAll rfl rfl _ fun _ hc => hc
      | some declaration =>
        obtain rfl : specifiers = [] := (hdeclaration.resolve_left (Option.some_ne_none _)).1
        exact .cons (hvisited rfl rfl (by simp [NodeKind.children]) context) .nil
  | exportAllDeclaration exported source =>
    refine .map fun c hc => ?_
    rcases List.mem_append.1 hc with hc | hc
    · exact hnames exported.toList (fun _ hc => hc) _ (List.mem_map_of_mem hc)
    · exact isCast_literal (List.mem_singleton.1 hc ▸ shaped_rest h)
  | exportSpecifier localName exported =>
    exact (hnames [exported] fun _ hc => hc).append
      (.cons (hvisited rfl rfl (by simp [NodeKind.children]) context) .nil)
  | thisExpression => exact .nil
  | _ => exact hvisitedAll rfl rfl _ fun _ hc => hc

theorem isReexported_of_child (h : t.IsReexported n) (hkind : t.kind? n = some kind)
    (hc : c ∈ kind.children) : t.IsReexported c := by
  obtain ⟨e, kindOf, he, hkindOf, hreexport, hbelow⟩ := h
  exact ⟨e, kindOf, he, hkindOf, hreexport, .head (mem_childrenOf_iff.2 ⟨kind, hkind, hc⟩) hbelow⟩

/-- The children of a skipped node are names again. -/
theorem allCast_skipped (h : t.shaped kind) (hkind : t.kind? n = some kind)
    (hsuits : t.Suits n kind .skipped) : t.AllCast (Role.skipAll kind.children) := by
  refine .map fun c hc => ?_
  rcases hsuits with ⟨hname, -⟩ | hspecifier | ⟨hspecifier, hreexported⟩
  · have hleaf : kind.children = [] := by
      cases kind <;> first | rfl | cases hname
    rw [hleaf] at hc
    cases hc
  · have hc : c ∈ kind.names := by
      cases kind <;> first | exact hc | cases hspecifier
    exact isCast_skipped (admits_name h hc) (.inl ⟨n, kind, hkind, hc⟩)
  · have hadmits : t.admits isName c := by
      cases kind with
      | exportSpecifier localName exported =>
        rcases List.mem_cons.1 hc with rfl | hc
        · exact admits_name h (List.mem_singleton_self _)
        · exact List.mem_singleton.1 hc ▸ shaped_rest h
      | _ => cases hspecifier
    exact isCast_skipped hadmits (.inr (isReexported_of_child hreexported hkind hc))

/-- The children of a node in a pattern have roles that suit them. -/
theorem allCast_targetLayout (h : t.shaped kind) (hkind : t.kind? n = some kind) {k : Nat}
    (hwritten : t.Written n k)
    (htarget : kind.isTarget ∨ ∃ p, kind = .property p ∧ t.admits isTarget p.value)
    (context : Context) (use : PatternUse) (root : NodeId) (s : Pattern.Surroundings) :
    t.AllCast (targetLayout context use root s n kind).slots := by
  have hvisited {c : NodeId} := isCast_visited (t := t) (c := c) h hkind
  have hkey (key : NodeId) (computed : Bool) (hc : computed = false → key ∈ kind.names)
      (hvisited : t.IsCast key (.visited context)) : t.IsCast key (.key context computed) := by
    cases computed with
    | true => exact hvisited
    | false => exact isCast_skipped (admits_name h (hc rfl)) (.inl ⟨n, kind, hkind, hc rfl⟩)
  cases kind with
  | identifier name => exact .nil
  | memberExpression object key computed _ =>
    refine .cons (hvisited rfl rfl (by simp [NodeKind.children]) context) (.cons ?_ .nil)
    exact hkey key computed (by simp [NodeKind.names])
      (hvisited rfl rfl (by simp [NodeKind.children]) context)
  | property p =>
    obtain ⟨p', hp, hvalue⟩ := htarget.resolve_left Bool.false_ne_true
    obtain rfl := NodeKind.property.inj hp
    refine .cons ?_ (.cons (isCast_target hvalue (.value hwritten hkind) _ _ _ _) .nil)
    exact hkey p.key p.computed (by simp +contextual [NodeKind.names])
      (hvisited rfl rfl (by simp [NodeKind.children]) context)
  | objectPattern properties =>
    refine .map fun c hc => ?_
    have hmember := List.all_eq_true.1 (shaped_rest h) c hc
    unfold isPatternMember at hmember
    split at hmember
    · next p hp =>
      exact ⟨_, hp, ⟨k, .member hwritten hkind hc⟩, .inr ⟨p, rfl, hmember⟩⟩
    · next argument hrest => exact ⟨_, hrest, ⟨k, .member hwritten hkind hc⟩, .inl rfl⟩
    · cases hmember
  | arrayPattern elements =>
    refine .map fun c hc => ?_
    obtain ⟨element, helement, rfl⟩ := List.mem_filterMap.1 hc
    exact isCast_target (admits_target h hc) (.element hwritten hkind helement) _ _ _ _
  | restElement argument =>
    exact .cons (isCast_target (admits_target h (List.mem_singleton_self _))
      (.rest hwritten hkind) _ _ _ _) .nil
  | assignmentPattern left right =>
    exact .cons (isCast_target (admits_target h (List.mem_singleton_self _))
      (.default hwritten hkind) _ _ _ _)
      (.cons (hvisited rfl rfl (by simp [NodeKind.children]) context) .nil)
  | _ =>
    rcases htarget with htarget | ⟨p, hp, -⟩
    · cases htarget
    · cases hp

/-- In every role the children have roles that suit them. -/
theorem allCast_layout (h : t.shaped kind) (hkind : t.kind? n = some kind)
    (hn : t.Below n t.root) (hsuits : t.Suits n kind role) :
    t.AllCast (t.layoutOfKind n kind role).slots := by
  cases role with
  | program o =>
    cases kind with
    | program body sourceType => exact .map fun c hc => isCast_visited h hkind rfl rfl hc _
    | _ => cases hsuits
  | skipped => exact allCast_skipped h hkind hsuits
  | visited c | fieldValue c => exact allCast_visitedLayout h hkind hn hsuits c
  | functionBody c =>
    cases kind with
    | blockStatement statements =>
      exact .map fun _ hc => isCast_visited h hkind rfl rfl hc _
    | _ => exact allCast_visitedLayout h hkind hn hsuits c
  | updated writeExpr =>
    cases kind with
    | identifier name => exact .nil
    | _ => cases hsuits.1
  | target c use root s =>
    obtain ⟨⟨k, hwritten⟩, htarget⟩ := hsuits
    exact allCast_targetLayout h hkind hwritten htarget c use root s
  | declarator c declaration variableKind index right =>
    cases kind with
    | variableDeclarator id init =>
      have hid : t.admits isTarget id := admits_target h (List.mem_singleton_self _)
      refine .cons ?_ (.map fun e he => isCast_visited h hkind rfl rfl ?_ _)
      · by_cases hloop : t.IsLoopDeclarator n
        · exact isCast_target hid (.loopDeclarator hkind hloop) _ _ _ _
        · exact isCast_target hid (.declarator hkind hloop) _ _ _ _
      · exact List.mem_cons_of_mem _ he
    | _ => cases hsuits.1
  | loopHead c right =>
    obtain ⟨⟨variableKind, declarations, rfl⟩, loop, hloop⟩ := hsuits
    refine .map ?_
    rintro ⟨d, index⟩ hmem
    have hd : declarations[index]? = some d := List.mem_zipIdx_iff_getElem?.1 hmem
    have hadmits := List.all_eq_true.1 (shaped_rest h) d (List.mem_of_getElem? hd)
    obtain ⟨kind', hkind', hdeclarator⟩ := admits_iff.1 hadmits
    refine ⟨kind', hkind', hdeclarator, fun hright => ?_⟩
    have hindex : index = 0 := by
      by_contra hne
      simp [hne] at hright
    subst hindex
    cases declarations with
    | nil => cases hd
    | cons d' rest =>
      obtain rfl := Option.some.inj hd
      exact ⟨loop, n, variableKind, rest, hloop, hkind⟩

/-- In a tree of the right shape every visited node has a role that suits it. -/
theorem isCast_of_mem_visits (hshape : t.ESTreeShaped) (hroot : t.rootKind.isProgram)
    {o : LanguageOptions} {v : Visit} (hv : v ∈ t.visits (t.rootVisit o)) :
    t.IsCast v.node v.role := by
  refine visits_down (t := t) (v := t.rootVisit o) (motive := fun v => t.IsCast v.node v.role)
    ?_ ?_ v hv
  · exact ⟨t.rootKind, kind?_eq_some_iff.2 ⟨t.root_lt, rfl⟩, hroot⟩
  · rintro u hu ⟨kind, hkind, hsuits⟩ w hw
    have hbelow : t.Below u.node t.root := below_of_mem_visits hu
    have hcast := allCast_layout (hshape _ _ hbelow hkind) hkind hbelow hsuits
    rw [← layout_of_kind? hkind] at hcast
    exact hcast _ (slot_of_mem_inner hw)

end Cast

end Tree

end LexicalScope
