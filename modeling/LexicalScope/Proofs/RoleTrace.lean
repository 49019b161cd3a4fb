import LexicalScope.Proofs.Marks

/-!
The steps of an outline follow the roles. For every kind of node the steps are those of its
layout, with the steps of the children in between, so the trace of a whole program lists the marks
of all its nodes, each in its role.
-/
namespace LexicalScope

/-- Steps inside `n` with the given marks, up to their order. -/
structure Covers (t : Tree) (n : NodeId) (steps : Outline)
    (marks : List NodeId → List (Located String)) : Prop extends Inside t n steps where
  trace_perm : ∀ blocks, Above n blocks → (Step.trace blocks steps).Perm (marks blocks)

/-- All steps at a node in its role. -/
structure Plays (t : Tree) (n : NodeId) (role : Role) (steps : Outline) : Prop
    extends Whole t n steps where
  trace_perm : ∀ blocks, Above n blocks →
    (Step.trace blocks steps).Perm (t.marksFrom ⟨n, role, blocks⟩)

variable {t : Tree} {c : Context} {n m : NodeId} {steps steps' : Outline}

namespace Covers

variable {marks marks' : List NodeId → List (Located String)}

theorem congr (h : Covers t n steps marks)
    (hmarks : ∀ blocks, (marks blocks).Perm (marks' blocks)) : Covers t n steps marks' where
  toInside := h.toInside
  trace_perm blocks hblocks := (h.trace_perm blocks hblocks).trans (hmarks blocks)

theorem nil : Covers t n [] fun _ => [] where
  toInside := .nil
  trace_perm _ _ := .refl _

theorem append (h : Covers t n steps marks) (h' : Covers t n steps' marks') :
    Covers t n (steps ++ steps') fun blocks => marks blocks ++ marks' blocks where
  toInside := h.toInside.append h'.toInside
  trace_perm blocks hblocks := by
    rw [Step.trace_append, h.blocks_eq blocks hblocks]
    exact (h.trace_perm blocks hblocks).append (h'.trace_perm blocks hblocks)

theorem flatMap {α : Type} {l : List α} {f : α → Outline}
    {marks : α → List NodeId → List (Located String)}
    (h : ∀ x ∈ l, Covers t n (f x) (marks x)) :
    Covers t n (l.flatMap f) fun blocks => l.flatMap (marks · blocks) := by
  induction l with
  | nil => exact nil
  | cons x l ih =>
    rw [List.flatMap_cons]
    exact (h x (List.mem_cons_self ..)).append (ih fun y hy => h y (List.mem_cons_of_mem _ hy))

theorem still (h : Inside t n steps) (hstill : ∀ step ∈ steps, step.IsStill) :
    Covers t n steps (Outline.located steps) where
  toInside := h
  trace_perm blocks _ := by rw [Step.trace_of_isStill hstill]

section Slots

variable {slots slots' : List (NodeId × Role)}

theorem appendSlots (h : Covers t n steps (t.marksOf slots))
    (h' : Covers t n steps' (t.marksOf slots')) :
    Covers t n (steps ++ steps') (t.marksOf (slots ++ slots')) :=
  (h.append h').congr fun blocks => .of_eq (t.marksOf_append slots slots' blocks).symm

theorem skipAll (nodes : List NodeId) : Covers t n [] (t.marksOf (Role.skipAll nodes)) :=
  nil.congr fun blocks => .of_eq (t.marksOf_skipAll nodes blocks).symm

theorem appendSkipped (h : Covers t n steps (t.marksOf slots)) (nodes : List NodeId) :
    Covers t n steps (t.marksOf (slots ++ Role.skipAll nodes)) :=
  List.append_nil steps ▸ h.appendSlots (skipAll nodes)

theorem flatMapSlots {α : Type} {l : List α} {f : α → Outline} {slot : α → NodeId × Role}
    (h : ∀ x ∈ l, Covers t n (f x) (t.marksOf [slot x])) :
    Covers t n (l.flatMap f) (t.marksOf (l.map slot)) := by
  refine (flatMap h).congr fun blocks => .of_eq ?_
  simp [Tree.marksOf, List.flatMap_map]

end Slots

end Covers

theorem inside_useSteps (use : PatternUse) (x : PatternTarget) : Inside t n (use.steps x) := by
  cases use with
  | parameter function index => exact inside_declareTarget x _ _
  | catchParameter clause => exact inside_declareTarget x _ _
  | declarator declaration node kind index init right =>
    exact ((inside_declareTarget x _ _).append (.map fun _ => .refer _)).append
      (.map fun _ => .refer _)
  | assignment node right whole => exact (inside_defaultWrites x _ _).append (.refer _)

theorem Plays.covers {role : Role} (h : Plays t m role steps) (hlt : m.index < n.index) :
    Covers t n steps (t.marksOf [(m, role)]) where
  toInside := h.toWhole.inside hlt
  trace_perm blocks hblocks := by
    have habove : Above m blocks := fun b hb => Nat.le_trans (Nat.le_of_lt hlt) (hblocks b hb)
    refine (h.trace_perm blocks habove).trans (.of_eq ?_)
    simp [Tree.marksOf]

section Children

variable {visit : NodeId → Outline}
  (hvisit : ∀ m : NodeId, m.index < n.index → Plays t m (.visited c) (visit m))
include hvisit

theorem covers_visit (hlt : m.index < n.index) :
    Covers t n (visit m) (t.marksOf [(m, .visited c)]) :=
  (hvisit m hlt).covers hlt

theorem covers_visitAll {nodes : List NodeId} (hlt : ∀ m ∈ nodes, m.index < n.index) :
    Covers t n (nodes.flatMap visit) (t.marksOf (Role.visitAll c nodes)) :=
  .flatMapSlots fun m hm => covers_visit hvisit (hlt m hm)

theorem covers_key {key : NodeId} (hlt : key.index < n.index) (computed : Bool) :
    Covers t n (if computed then visit key else []) (t.marksOf [(key, .key c computed)]) := by
  cases computed with
  | true => exact covers_visit hvisit hlt
  | false => exact .skipAll [key]

/-- The steps of a pattern are those of its parts in their roles, in some order. -/
theorem covers_patternSteps {pattern : NodeId} (hlt : pattern.index < n.index)
    (use : PatternUse) :
    Covers t n (t.patternSteps visit pattern use.steps)
      (t.marksOf [(pattern, .target c use pattern {})]) := by
  have htargets : Covers t n ((t.pattern pattern).targets.flatMap use.steps)
      (Outline.located ((t.pattern pattern).targets.flatMap use.steps)) := by
    refine .still (.flatMap fun x _ => inside_useSteps use x) fun step hstep => ?_
    obtain ⟨x, -, hx⟩ := List.mem_flatMap.1 hstep
    exact use.isStill_steps x step hx
  have hrightHand : Covers t n ((t.pattern pattern).rightHand.flatMap visit)
      (t.marksOf (Role.visitAll c (t.pattern pattern).rightHand)) :=
    covers_visitAll hvisit fun m hm => Nat.lt_trans (Pattern.index_lt_of_mem_rightHand hm) hlt
  refine (htargets.append hrightHand).congr fun blocks => ?_
  refine (Tree.perm_walkWithin use pattern (Nat.lt_succ_self pattern.index)).trans (.of_eq ?_)
  simp [Tree.marksOf]

theorem covers_declaratorSteps {d : NodeId} (hlt : d.index < n.index) (declaration : NodeId)
    (kind : VariableKind) (index : Nat) :
    Covers t n (t.declaratorSteps visit declaration d kind index)
      (t.marksOf [(d, .declarator c declaration kind index none)]) := by
  have hmarks (blocks : List NodeId) :
      t.marksFrom ⟨d, .declarator c declaration kind index none, blocks⟩ =
        t.marksOf [(d, .declarator c declaration kind index none)] blocks := by
    simp [Tree.marksOf]
  cases hkind : t.kind? d with
  | none =>
    rw [Tree.declaratorSteps, hkind]
    refine Covers.nil.congr fun blocks => .of_eq ?_
    rw [← hmarks, Tree.marksFrom_of_kind?_eq_none hkind]
  | some nodeKind =>
    suffices h : Covers t n (t.declaratorSteps visit declaration d kind index)
        (t.marksOf (t.layoutOfKind d nodeKind
          (.declarator c declaration kind index none)).late) by
      refine h.congr fun blocks => .of_eq ?_
      rw [← hmarks, Tree.marksFrom_declarator _ _ _ hkind]
    unfold Tree.declaratorSteps Tree.layoutOfKind
    rw [hkind]
    dsimp only
    split
    case h_1 id init heq =>
      obtain rfl := Option.some.inj heq
      have hchild (m : NodeId) (hm : m ∈ id :: init.toList) : m.index < n.index :=
        Nat.lt_trans (Tree.index_lt_of_mem_children hkind hm) hlt
      have hpattern := covers_patternSteps hvisit (hchild id (List.mem_cons_self ..))
        (.declarator declaration d kind index init none)
      simp only [PatternUse.steps, Option.toList_none, List.map_nil, List.append_nil] at hpattern
      exact hpattern.appendSlots
        (covers_visitAll hvisit fun m hm => hchild m (List.mem_cons_of_mem _ hm))
    case h_2 hne =>
      split
      · next id init => exact absurd rfl (hne id init)
      · exact .skipAll _

/-- A block as the body of a function has no steps of its own. -/
theorem covers_functionBody {body : NodeId} (hlt : body.index < n.index) :
    Covers t n
      (match t.kind? body with
      | some (.blockStatement statements) => statements.flatMap visit
      | _ => visit body)
      (t.marksOf [(body, .functionBody c)]) := by
  split
  · next statements hkind =>
    have hlayout : t.layout (.functionBody c) body = { late := Role.visitAll c statements } :=
      Tree.layout_of_kind? hkind _
    have hstatements : ∀ m ∈ statements, m.index < n.index := fun m hm =>
      Nat.lt_trans (Tree.index_lt_of_mem_children hkind hm) hlt
    refine (covers_visitAll hvisit hstatements).congr fun blocks => .of_eq ?_
    rw [Tree.marksOf_cons, Tree.marksFrom_of_isStill] <;> simp [hlayout, Outline.located]
  · next hne =>
    refine (covers_visit hvisit hlt).congr fun blocks => .of_eq ?_
    rw [Tree.marksOf_cons, Tree.marksOf_cons]
    refine congrArg (· ++ _) (Tree.marksFrom_congr ?_)
    cases hkind : t.kind? body with
    | none => rw [Tree.layout_of_kind?_eq_none hkind, Tree.layout_of_kind?_eq_none hkind]
    | some kind =>
      rw [Tree.layout_of_kind? hkind, Tree.layout_of_kind? hkind]
      unfold Tree.layoutOfKind
      dsimp only
      split
      · next statements => exact absurd hkind (hne statements)
      · rfl

/-- A declaration in the head of a loop is written by the loop. -/
theorem covers_loopHead {left right : NodeId} (hleft : left.index < n.index) {kind : VariableKind}
    {declarations : List NodeId}
    (hkind : t.kind? left = some (.variableDeclaration kind declarations)) :
    Covers t n (visit left ++ t.loopDeclarationWrites declarations right)
      (t.marksOf [(left, .loopHead c right)]) := by
  have hwrites : Covers t n (t.loopDeclarationWrites declarations right)
      (Outline.located (t.loopDeclarationWrites declarations right)) := by
    unfold Tree.loopDeclarationWrites
    split
    · refine .still (.map fun _ => .refer _) fun step hstep => ?_
      obtain ⟨x, -, rfl⟩ := List.mem_map.1 hstep
      trivial
    · exact .still .nil fun step hstep => nomatch hstep
  refine ((covers_visit hvisit hleft).append hwrites).congr fun blocks => ?_
  simp only [Tree.marksOf_cons, Tree.marksOf_nil, List.append_nil]
  exact (Tree.marksFrom_loopHead kind right hkind).symm

end Children

theorem covers_updateAt (m : NodeId) (writeExpr : Option NodeId) :
    Covers t n (t.updateAt m writeExpr) (t.marksOf [(m, .updated writeExpr)]) := by
  have hstill := t.isStill_updateAt m writeExpr
  refine (Covers.still (inside_updateAt m writeExpr) hstill).congr fun blocks => .of_eq ?_
  rw [Tree.marksOf_cons, Tree.marksFrom_updated, Tree.marksOf_nil, List.append_nil]

/-- A field initializer has the marks of its value, with one scope more around them. -/
theorem covers_fieldValue (h : Plays t m (.visited c) steps) {kind : NodeKind}
    (hkind : t.kind? m = some kind) (hm : m ≠ t.root) (hlt : m.index < n.index) :
    Covers t n (.enter .fieldInitializer m false :: steps ++ [.leave m])
      (t.marksOf [(m, .fieldValue c)]) where
  toInside := h.toWhole.scoped (by decide) (by decide) hm hlt
  trace_perm blocks hblocks := by
    have habove : Above m (m :: blocks) := by
      intro b hb
      rcases List.mem_cons.1 hb with rfl | hb
      · exact Nat.le_refl _
      · exact Nat.le_trans (Nat.le_of_lt hlt) (hblocks b hb)
    have hmarks : t.marksFrom ⟨m, .fieldValue c, blocks⟩ =
        ⟨blocks, .enter .fieldInitializer m false⟩ ::
          t.marksFrom ⟨m, .visited c, m :: blocks⟩ := by
      have hvalue := Tree.layout_of_kind? hkind (.fieldValue c)
      have hvisited := Tree.layout_of_kind? hkind (.visited c)
      simp only [Tree.marksFrom_eq, Tree.marks, Tree.inside, Tree.outside, hvalue, hvisited,
        Tree.layoutOfKind, Tree.first_visitedLayout]
      rfl
    rw [Tree.marksOf_cons, hmarks, Tree.marksOf_nil, List.append_nil, List.cons_append, Step.trace,
      Step.trace_append]
    refine .cons _ (.trans (.of_eq ?_) (h.trace_perm _ habove))
    simp [Step.trace, Step.mark, Step.blocksAfter]

/-- The steps at `n` follow a layout, with the steps of the children in between. -/
structure Follows (t : Tree) (n : NodeId) (l : Layout) (steps : Outline) : Prop where
  exists_steps : ∃ early late tail, steps = early ++ (l.own ++ (late ++ tail)) ∧
    (tail = [] ∨ tail = [.leave n]) ∧ Covers t n early (t.marksOf l.early) ∧
    Covers t n late (t.marksOf l.late)
  above : ∀ blocks, Above n blocks → Above n (l.own.foldl Step.blocksAfter blocks)

theorem Opens.above (h : Opens t n steps) {blocks : List NodeId} (hblocks : Above n blocks) :
    Above n (steps.foldl Step.blocksAfter blocks) := by
  obtain ⟨k, hk⟩ := h.blocks_eq blocks hblocks
  rw [hk]
  exact hblocks.replicate k

namespace Follows

variable {l : Layout} {early late : Outline}

/-- Nothing but the steps of children. -/
theorem children (hlate : Covers t n steps (t.marksOf l.late)) (hearly : l.early = [])
    (hown : l.own = []) : Follows t n l steps where
  exists_steps := by
    refine ⟨[], steps, [], by simp [hown], .inl rfl, ?_, hlate⟩
    rw [hearly]
    exact .nil
  above _ hblocks := hown ▸ hblocks

/-- Steps of the node itself, and none of its children. -/
theorem own (hown : Inside t n l.own) (hlate : Covers t n [] (t.marksOf l.late))
    (hearly : l.early = []) : Follows t n l l.own where
  exists_steps := by
    refine ⟨[], [], [], by simp, .inl rfl, ?_, hlate⟩
    rw [hearly]
    exact .nil
  above _ := hown.opens.above

/-- Scopes around all steps of children. -/
theorem around (hown : Opens t n l.own) (hlate : Covers t n late (t.marksOf l.late))
    (hearly : l.early = []) (hsteps : steps = l.own ++ (late ++ [.leave n])) :
    Follows t n l steps where
  exists_steps := by
    refine ⟨[], late, [.leave n], hsteps, .inr rfl, ?_, hlate⟩
    rw [hearly]
    exact .nil
  above _ := hown.above

/-- A scope around some of the children. -/
theorem aroundLate (hearly : Covers t n early (t.marksOf l.early)) (hown : Opens t n l.own)
    (hlate : Covers t n late (t.marksOf l.late))
    (hsteps : steps = early ++ (l.own ++ (late ++ [.leave n]))) : Follows t n l steps where
  exists_steps := ⟨early, late, [.leave n], hsteps, .inr rfl, hearly, hlate⟩
  above _ := hown.above

end Follows

section Kinds

variable {visitIn : Context → NodeId → Outline}
  (hplays : ∀ c (m : NodeId), m.index < n.index → Plays t m (.visited c) (visitIn c m))
include hplays

/-- A function takes the steps that its layout gives to its parts. -/
theorem follows_functionSteps {kind : NodeKind} (hkind : t.kind? n = some kind)
    (c : Context) (id : Option NodeId) (params : List NodeId) (body : Option NodeId)
    (hparams : kind.functionParams? = some params) (hbody : kind.functionBody? = body) :
    Follows t n (t.functionLayout c n kind id params body)
      (t.functionSteps (visitIn c) c n kind) := by
  have hparam (param : NodeId × Nat) (hmem : param ∈ params.zipIdx) :
      param.1 ∈ kind.functionParams?.getD [] := by
    rw [hparams]
    exact (List.mem_zipIdx' hmem).2 ▸ List.getElem_mem _
  have hpatterns (param : NodeId × Nat) (hmem : param ∈ params.zipIdx) :=
    covers_patternSteps (hplays c) (Tree.index_lt_of_mem_children hkind
      (NodeKind.mem_children_of_functionParams? (hparam param hmem)))
      (PatternUse.parameter n param.2)
  have hstatements (m : NodeId) (hmem : m ∈ body.toList) :=
    covers_functionBody (hplays c) (Tree.index_lt_of_mem_children hkind
      (NodeKind.mem_children_of_functionBody? (hbody.trans (Option.mem_toList.1 hmem))))
  have hlate := ((Covers.skipAll id.toList).appendSlots (.flatMapSlots hpatterns)).appendSlots
    (.flatMapSlots hstatements)
  have hown : Opens t n (t.functionLayout c n kind id params body).own := by
    refine (opens_functionNameSteps kind).append (.enterFunction _ fun h => ?_)
    rw [Tree.isArrow, hkind]
    cases kind <;> simp_all
  refine .around hown hlate rfl ?_
  simp only [Tree.functionSteps, Tree.functionLayout, hparams, hbody, Option.getD_some,
    List.append_assoc]
  rfl

/-- A loop takes the steps that its layout gives to its parts. -/
theorem follows_loopSteps {left right body : NodeId} (hleft : left.index < n.index)
    (hright : right.index < n.index) (hbody : body.index < n.index) (c : Context) :
    Follows t n (t.loopLayout c n left right body)
      (t.loopSteps (visitIn c) n left right body) := by
  have hrest := (covers_visit (hplays c) hright).appendSlots (covers_visit (hplays c) hbody)
  have hown : Opens t n (t.loopLayout c n left right body).own :=
    .ite (.enter (by decide) (by decide) false) Inside.nil.opens
  by_cases hdeclaration : ∃ kind declarations,
    t.kind? left = some (.variableDeclaration kind declarations)
  · obtain ⟨kind, declarations, hkind⟩ := hdeclaration
    have hhead : Covers t n (visitIn c left ++ t.loopDeclarationWrites declarations right)
        (t.marksOf [(left, .loopHead c right)]) := covers_loopHead (hplays c) hleft hkind
    refine .around hown (?_ : Covers t n (visitIn c left ++
      t.loopDeclarationWrites declarations right ++ (visitIn c right ++ visitIn c body)) _) rfl ?_
    · simpa [Tree.loopLayout, Tree.isDeclaration, hkind] using hhead.appendSlots hrest
    · simp [Tree.loopSteps, Tree.loopLayout, Tree.declaresLexically, hkind]
  · have hne (kind : VariableKind) (declarations : List NodeId) :
        t.kind? left ≠ some (.variableDeclaration kind declarations) :=
      fun h => hdeclaration ⟨kind, declarations, h⟩
    have hleft : Covers t n (t.assignSteps (visitIn c) n left right false)
        (t.marksOf [(left, .target c (.assignment n right false) left {})]) :=
      covers_patternSteps (hplays c) hleft (.assignment n right false)
    have hnot : t.isDeclaration left = false := by
      unfold Tree.isDeclaration
      cases hkind : t.kind? left with
      | none => rfl
      | some kind => cases kind <;> first | rfl | exact absurd hkind (hne _ _)
    have hlexical : t.declaresLexically (some left) = false := by
      unfold Tree.declaresLexically
      split
      · next heq => exact absurd heq (hne _ _)
      · rfl
    refine .around hown (?_ : Covers t n (t.assignSteps (visitIn c) n left right false ++
      (visitIn c right ++ visitIn c body)) _) rfl ?_
    · simpa [Tree.loopLayout, hnot] using hleft.appendSlots hrest
    · simp only [Tree.loopSteps, Tree.loopLayout, hlexical]
      simp

/-- A class takes the steps that its layout gives to its parts. -/
theorem follows_classSteps {parts : Class} (hsuper : ∀ m ∈ parts.superClass, m.index < n.index)
    (hbody : parts.body.index < n.index) (isDeclaration : Bool) (c : Context) :
    Follows t n (t.classLayout c n isDeclaration parts)
      (t.classSteps (visitIn c) n isDeclaration parts) := by
  have hnamed : Inside t n (parts.id.toList.flatMap fun id =>
      t.declareAt .current id { kind := .className, name := id, node := n }) :=
    .flatMap fun _ _ => inside_declareAt _ _ _
  have henter : Opens t n [.enter .classBody n true] := .enter (by decide) (by decide) true
  have houter : Inside t n (if isDeclaration then parts.id.toList.flatMap fun id =>
      t.declareAt .current id { kind := .className, name := id, node := n } else []) :=
    .ite hnamed .nil
  have hown : Opens t n (t.classLayout c n isDeclaration parts).own :=
    houter.opens.append (henter.append hnamed.opens)
  have hlate : Covers t n (parts.superClass.toList.flatMap (visitIn c) ++ visitIn c parts.body)
      (t.marksOf (t.classLayout c n isDeclaration parts).late) := by
    have hrest : Covers t n ((parts.superClass.toList ++ [parts.body]).flatMap (visitIn c))
        (t.marksOf (Role.visitAll c (parts.superClass.toList ++ [parts.body]))) := by
      refine covers_visitAll (hplays c) fun m hm => ?_
      rcases List.mem_append.1 hm with hm | hm
      · exact hsuper m (Option.mem_toList.1 hm)
      · exact List.mem_singleton.1 hm ▸ hbody
    rw [List.flatMap_append, List.flatMap_singleton] at hrest
    exact (Covers.skipAll parts.id.toList).appendSlots hrest
  exact .around hown hlate rfl (by simp [Tree.classSteps, Tree.classLayout])

/-- The steps at a node, one case for each kind of node with rules of its own. -/
theorem follows_stepsOfKind {kind : NodeKind} (hkind : t.kind? n = some kind)
    (hn : n.index < t.root.index) (c : Context) :
    Follows t n (t.visitedLayout c n kind) (t.stepsOfKind visitIn c n kind) := by
  have hchild (m : NodeId) (hm : m ∈ kind.children) : m.index < n.index :=
    Tree.index_lt_of_mem_children hkind hm
  have hvisit (c : Context) (m : NodeId) (hm : m ∈ kind.children) :
      Covers t n (visitIn c m) (t.marksOf [(m, .visited c)]) :=
    covers_visit (hplays c) (hchild m hm)
  have hvisitAll (l : List NodeId) (hl : ∀ m ∈ l, m ∈ kind.children) :
      Covers t n (l.flatMap (visitIn c)) (t.marksOf (Role.visitAll c l)) :=
    covers_visitAll (hplays c) fun m hm => hchild m (hl m hm)
  have hkey (key : NodeId) (computed : Bool) (hkey : key ∈ kind.children) :
      Covers t n (if computed then visitIn c key else []) (t.marksOf [(key, .key c computed)]) :=
    covers_key (hplays c) (hchild key hkey) computed
  have henter {kind : ScopeKind} (hglobal : kind ≠ .global) (hfunction : kind ≠ .function)
      (strict : Bool) : Opens t n [.enter kind n strict] := .enter hglobal hfunction strict
  cases kind with
  | identifier name => exact .own (.refer _) .nil rfl
  | thisExpression => exact .own .this .nil rfl
  | privateIdentifier name | superExpression => exact .children .nil rfl rfl
  | metaProperty object key => exact .children (.skipAll _) rfl rfl
  | breakStatement label | continueStatement label => exact .children (.skipAll _) rfl rfl
  | exportAllDeclaration exported source => exact .children (.skipAll _) rfl rfl
  | assignmentExpression operator left right =>
    have hleft : left ∈ (NodeKind.assignmentExpression operator left right).children :=
      List.mem_cons_self ..
    have htarget : Covers t n
        (if t.isPattern left then
          if operator = .assign then t.assignSteps (visitIn c) n left right true
          else t.updateAt left (some right)
        else visitIn c left)
        (t.marksOf [(left, t.assignedRole c n operator left right)]) := by
      unfold Tree.assignedRole
      split
      · split
        · exact covers_patternSteps (hplays c) (hchild left hleft) (.assignment n right true)
        · exact covers_updateAt left (some right)
      · exact hvisit c left hleft
    exact .children (htarget.appendSlots (hvisit c right (by simp [NodeKind.children]))) rfl rfl
  | updateExpression operator isPrefix argument =>
    refine .children ?_ rfl rfl
    unfold Tree.stepsOfKind Tree.visitedLayout
    dsimp only
    split
    · exact covers_updateAt argument none
    · exact hvisit c argument (by simp [NodeKind.children])
  | memberExpression object key computed _ =>
    exact .children ((hvisit c object (by simp [NodeKind.children])).appendSlots
      (hkey key computed (by simp [NodeKind.children]))) rfl rfl
  | property p =>
    exact .children ((hkey p.key p.computed (by simp [NodeKind.children])).appendSlots
      (hvisit c p.value (by simp [NodeKind.children]))) rfl rfl
  | methodDefinition m =>
    exact .children ((hkey m.key m.computed (by simp [NodeKind.children])).appendSlots
      (hvisit _ m.value (by simp [NodeKind.children]))) rfl rfl
  | propertyDefinition p =>
    refine .children ((hkey p.key p.computed (by simp [NodeKind.children])).appendSlots
      (.flatMapSlots fun value hvalue => ?_)) rfl rfl
    have hlt := hchild value (List.mem_cons_of_mem _ hvalue)
    have hroot : value ≠ t.root := by
      rintro rfl
      omega
    obtain ⟨valueKind, hvalueKind⟩ := t.exists_kind?_of_lt (n := value) (by
      have hsize := t.root_lt
      rw [Tree.size]
      omega)
    exact covers_fieldValue (hplays c value hlt) hvalueKind hroot hlt
  | staticBlock body =>
    exact .around (henter (by decide) (by decide) false) (hvisitAll body fun _ hm => hm) rfl rfl
  | labeledStatement label body =>
    exact .children ((Covers.skipAll [label]).appendSlots
      (hvisit c body (by simp [NodeKind.children]))) rfl rfl
  | blockStatement body =>
    exact .around (henter (by decide) (by decide) false) (hvisitAll body fun _ hm => hm) rfl rfl
  | forStatement start test update body =>
    have hown : Opens t n (if t.declaresLexically start then [.enter .forLoop n false] else []) :=
      .ite (henter (by decide) (by decide) false) Inside.nil.opens
    exact .around hown (hvisitAll _ fun _ hm => hm) rfl (List.append_assoc ..)
  | forInStatement left right body | forOfStatement left right body _ =>
    exact follows_loopSteps hplays (hchild left (by simp [NodeKind.children]))
      (hchild right (by simp [NodeKind.children])) (hchild body (by simp [NodeKind.children])) c
  | switchStatement discriminant cases =>
    exact .aroundLate (hvisit c discriminant (List.mem_cons_self ..))
      (henter (by decide) (by decide) false)
      (hvisitAll cases fun m hm => List.mem_cons_of_mem _ hm) (List.append_assoc ..)
  | withStatement object body =>
    exact .aroundLate (hvisit c object (List.mem_cons_self ..))
      (henter (by decide) (by decide) false) (hvisit c body (by simp [NodeKind.children]))
      (List.append_assoc ..)
  | catchClause param body =>
    have hlate := Covers.appendSlots
      (.flatMapSlots (l := param.toList) (f := fun p =>
        t.patternSteps (visitIn c) p (PatternUse.catchParameter n).steps) fun p hp =>
          covers_patternSteps (hplays c) (hchild p (List.mem_append_left _ hp)) _)
      (hvisit c body (by simp [NodeKind.children]))
    exact .around (henter (by decide) (by decide) false) hlate rfl rfl
  | variableDeclaration kind declarations =>
    refine .children (.flatMapSlots ?_) rfl rfl
    rintro ⟨declarator, index⟩ hmem
    have hmem : declarator ∈ declarations := (List.mem_zipIdx' hmem).2 ▸ List.getElem_mem _
    exact covers_declaratorSteps (hplays c) (hchild declarator hmem) n kind index
  | functionDeclaration f => exact follows_functionSteps hplays hkind c f.id f.params f.body rfl rfl
  | functionExpression f => exact follows_functionSteps hplays hkind c f.id f.params f.body rfl rfl
  | arrowFunctionExpression f =>
    exact follows_functionSteps hplays hkind c none f.params (some f.body) rfl rfl
  | classDeclaration parts =>
    exact follows_classSteps hplays
      (fun m hm => hchild m (by simp [NodeKind.children, Option.mem_def.1 hm]))
      (hchild parts.body (by simp [NodeKind.children])) true c
  | classExpression parts =>
    exact follows_classSteps hplays
      (fun m hm => hchild m (by simp [NodeKind.children, Option.mem_def.1 hm]))
      (hchild parts.body (by simp [NodeKind.children])) false c
  | importDeclaration specifiers source kind =>
    refine .own ?_ (.skipAll _) rfl
    exact .ite (inside_importSteps _ _ _) (.misplacedImport n)
  | exportNamedDeclaration declaration specifiers source =>
    cases source with
    | some source => exact .children (.skipAll _) rfl rfl
    | none =>
      cases declaration with
      | none => exact .children (hvisitAll _ fun _ hm => hm) rfl rfl
      | some declaration =>
        exact .children ((hvisit c declaration (by simp [NodeKind.children])).appendSkipped
          specifiers) rfl rfl
  | exportSpecifier localName exported =>
    exact .children ((Covers.skipAll [exported]).appendSlots
      (hvisit c localName (by simp [NodeKind.children]))) rfl rfl
  | _ => exact .children (hvisitAll _ fun _ hm => hm) rfl rfl

end Kinds

/-- What a layout says is the trace of the steps that follow it. -/
theorem Follows.trace_perm {role : Role} (h : Follows t n (t.layout role n) steps)
    (hfirst : (t.layout role n).first = []) {blocks : List NodeId} (hblocks : Above n blocks) :
    (Step.trace blocks steps).Perm (t.marksFrom ⟨n, role, blocks⟩) := by
  obtain ⟨early, late, tail, rfl, htail, hearly, hlate⟩ := h.exists_steps
  have houtside : t.outside ⟨n, role, blocks⟩ = blocks := by
    rw [Tree.outside, hfirst, List.foldl_nil]
  have hinside : t.inside ⟨n, role, blocks⟩ =
      (t.layout role n).own.foldl Step.blocksAfter blocks := by
    rw [Tree.inside, houtside]
  have hend (blocks : List NodeId) : Step.trace blocks tail = [] := by
    rcases htail with rfl | rfl <;> rfl
  rw [Tree.marksFrom_eq, Tree.marks, houtside, hinside, hfirst, Step.trace_append,
    Step.trace_append, Step.trace_append, hearly.blocks_eq blocks hblocks, hend, List.append_nil,
    ← List.append_assoc]
  have hall := (hearly.trace_perm blocks hblocks).append
    (hlate.trace_perm _ (h.above blocks hblocks))
  refine (List.perm_append_comm.append_right _).trans ?_
  rw [List.append_assoc]
  exact (hall.append_left _)

/-- The steps of a visited node are those of its role. -/
theorem plays_stepsWithin {fuel : Nat} (c : Context) (hn : n.index < t.root.index)
    (hfuel : n.index < fuel) : Plays t n (.visited c) (t.stepsWithin fuel c n) := by
  induction fuel generalizing c n with
  | zero => omega
  | succ fuel ih =>
    refine ⟨whole_stepsWithin _ c hn, fun blocks hblocks => ?_⟩
    obtain ⟨kind, hkind⟩ := t.exists_kind?_of_lt (Nat.lt_trans hn t.root_lt)
    rw [Tree.stepsWithin, hkind, Option.elim_some]
    have hlayout : t.layout (.visited c) n = t.visitedLayout c n kind :=
      Tree.layout_of_kind? hkind _
    refine Follows.trace_perm ?_ ?_ hblocks
    · rw [hlayout]
      exact follows_stepsOfKind (fun c m hm => ih c (by omega) (by omega)) hkind hn c
    · rw [hlayout]
      exact t.first_visitedLayout c n kind

def Tree.rootVisit (t : Tree) (o : LanguageOptions) : Visit :=
  ⟨t.root, .program o, []⟩

/-- The trace of a program has the marks of all its nodes. -/
theorem perm_trace_outline {o : LanguageOptions} {outline : Outline}
    (h : t.outline? o = some outline) :
    (Step.trace [] outline).Perm (t.marksFrom (t.rootVisit o)) := by
  obtain ⟨body, sourceType, hroot, rfl⟩ := Tree.exists_program_of_outline? h
  have hkind := Tree.kind?_root_of_program hroot
  have hlayout : t.layout (.program o) t.root = {
      own := t.enterProgram o sourceType
      late := Role.visitAll { isModule := o.isModuleFor sourceType } body } :=
    Tree.layout_of_kind? hkind _
  have hbody : Covers t t.root (body.flatMap (t.steps { isModule := o.isModuleFor sourceType }))
      (t.marksOf (Role.visitAll { isModule := o.isModuleFor sourceType } body)) := by
    refine .flatMapSlots fun m hm => ?_
    have hlt : m.index < t.root.index := Tree.index_lt_of_mem_children hkind hm
    exact (plays_stepsWithin _ hlt (Nat.lt_succ_self _)).covers hlt
  obtain ⟨strict, steps, henter, hopens⟩ := t.enterProgram_eq o sourceType
  have hfollows : Follows t t.root (t.layout (.program o) t.root)
      (t.enterProgram o sourceType ++
        body.flatMap (t.steps { isModule := o.isModuleFor sourceType }) ++ [.leave t.root]) := by
    rw [hlayout]
    refine ⟨⟨[], _, [.leave t.root], List.append_assoc .., .inr rfl, .nil, hbody⟩, ?_⟩
    intro blocks hblocks
    rw [henter]
    exact hopens.above fun b hb => (List.mem_cons.1 hb).elim (fun h => h ▸ Nat.le_refl _)
      (hblocks b)
  refine hfollows.trace_perm ?_ fun b hb => nomatch hb
  rw [hlayout]

end LexicalScope
