import LexicalScope.Proofs.Roles
import Mathlib.Data.List.Perm.Basic

/-!
The trace of a walk, node by node. Up to their order, the marks of a walk are those of the nodes
in their roles. A pattern is why the order differs: it takes the steps of all its targets first.
-/
namespace LexicalScope

/-- Steps that neither open nor close a scope. -/
def Step.IsStill {ν : Type} : Step ν → Prop
  | enter .. | leave _ => False
  | _ => True

def Outline.located (steps : Outline) (blocks : List NodeId) : List (Located String) :=
  steps.map (⟨blocks, ·⟩)

theorem Step.foldl_blocksAfter_of_isStill {ν : Type} {steps : List (Step ν)}
    (h : ∀ step ∈ steps, step.IsStill) (blocks : List NodeId) :
    steps.foldl blocksAfter blocks = blocks := by
  induction steps with
  | nil => rfl
  | cons step steps ih =>
    have hstep := h step (List.mem_cons_self ..)
    have hsame : step.blocksAfter blocks = blocks := by
      cases step <;> first | rfl | exact hstep.elim
    rw [List.foldl_cons, hsame]
    exact ih fun x hx => h x (List.mem_cons_of_mem _ hx)

/-- Still steps all have the same blocks around them. -/
theorem Step.trace_of_isStill {steps : Outline} (h : ∀ step ∈ steps, step.IsStill)
    (blocks : List NodeId) : trace blocks steps = Outline.located steps blocks := by
  induction steps with
  | nil => rfl
  | cons step steps ih =>
    have hstep := h step (List.mem_cons_self ..)
    have ih := ih fun x hx => h x (List.mem_cons_of_mem _ hx)
    rw [trace, Outline.located, List.map_cons]
    cases step <;> first | exact congrArg _ ih | exact hstep.elim

theorem Step.isStill_defaultWrites (x : PatternTarget) (init : Bool)
    (assignment : Option NodeId) :
    ∀ step ∈ x.defaultWrites init assignment, step.IsStill := by
  intro step hstep
  obtain ⟨d, -, rfl⟩ := List.mem_map.1 hstep
  trivial

/-- Using a target opens no scope. -/
theorem PatternUse.isStill_steps (use : PatternUse) (x : PatternTarget) :
    ∀ step ∈ use.steps x, step.IsStill := by
  have hdeclare (place : Place) (d : Definition) :
      ∀ step ∈ x.declare place d, step.IsStill := by
    intro step hstep
    rcases List.mem_cons.1 hstep with rfl | hstep
    · trivial
    · exact Step.isStill_defaultWrites x _ _ step hstep
  intro step hstep
  cases use with
  | parameter function index => exact hdeclare _ _ step hstep
  | catchParameter clause => exact hdeclare _ _ step hstep
  | declarator declaration node kind index init right =>
    rcases List.mem_append.1 hstep with hstep | hstep
    · rcases List.mem_append.1 hstep with hstep | hstep
      · exact hdeclare _ _ step hstep
      · obtain ⟨e, -, rfl⟩ := List.mem_map.1 hstep
        trivial
    · obtain ⟨e, -, rfl⟩ := List.mem_map.1 hstep
      trivial
  | assignment node right whole =>
    rcases List.mem_append.1 hstep with hstep | hstep
    · exact Step.isStill_defaultWrites x _ _ step hstep
    · rw [List.mem_singleton.1 hstep]
      trivial

namespace Tree

variable {t : Tree} {c : Context} {n m : NodeId} {blocks : List NodeId}

def marksOf (t : Tree) (slots : List (NodeId × Role)) (blocks : List NodeId) :
    List (Located String) :=
  slots.flatMap fun x => t.marksFrom ⟨x.1, x.2, blocks⟩

@[simp] theorem marksOf_nil (t : Tree) (blocks : List NodeId) : t.marksOf [] blocks = [] :=
  rfl

theorem marksOf_append (t : Tree) (slots slots' : List (NodeId × Role)) (blocks : List NodeId) :
    t.marksOf (slots ++ slots') blocks = t.marksOf slots blocks ++ t.marksOf slots' blocks :=
  List.flatMap_append

theorem marksOf_cons (t : Tree) (slot : NodeId × Role) (slots : List (NodeId × Role))
    (blocks : List NodeId) :
    t.marksOf (slot :: slots) blocks =
      t.marksFrom ⟨slot.1, slot.2, blocks⟩ ++ t.marksOf slots blocks :=
  rfl

theorem marksFrom_eq (t : Tree) (v : Visit) :
    t.marksFrom v = t.marks v ++ (t.marksOf (t.layout v.role v.node).early (t.outside v) ++
      t.marksOf (t.layout v.role v.node).late (t.inside v)) := by
  rw [marksFrom, visits_eq, List.flatMap_cons, List.flatMap_assoc, inner, List.flatMap_append,
    List.flatMap_map, List.flatMap_map]
  rfl

/-- A role that opens no scope and has no early children. -/
theorem marksFrom_of_isStill {role : Role} (hfirst : (t.layout role n).first = [])
    (hearly : (t.layout role n).early = [])
    (hown : ∀ step ∈ (t.layout role n).own, step.IsStill) :
    t.marksFrom ⟨n, role, blocks⟩ =
      Outline.located (t.layout role n).own blocks ++ t.marksOf (t.layout role n).late blocks := by
  have houtside : t.outside ⟨n, role, blocks⟩ = blocks := by
    rw [outside, hfirst, List.foldl_nil]
  have hinside : t.inside ⟨n, role, blocks⟩ = blocks := by
    rw [inside, houtside, Step.foldl_blocksAfter_of_isStill hown]
  rw [marksFrom_eq, marks, houtside, hinside, hfirst, hearly, Step.trace_of_isStill hown]
  rfl

theorem layout_of_kind? {kind : NodeKind} (hkind : t.kind? n = some kind) (role : Role) :
    t.layout role n = t.layoutOfKind n kind role := by
  rw [layout, hkind, Option.elim_some]

theorem layout_of_kind?_eq_none (hkind : t.kind? n = none) (role : Role) :
    t.layout role n = {} := by
  rw [layout, hkind, Option.elim_none]

theorem marksFrom_congr {role role' : Role} (h : t.layout role n = t.layout role' n) :
    t.marksFrom ⟨n, role, blocks⟩ = t.marksFrom ⟨n, role', blocks⟩ := by
  simp only [marksFrom_eq, marks, inside, outside, h]

theorem marksFrom_of_kind?_eq_none (hkind : t.kind? n = none) (role : Role) :
    t.marksFrom ⟨n, role, blocks⟩ = [] := by
  rw [marksFrom_of_isStill] <;> simp [layout_of_kind?_eq_none hkind, Outline.located]

theorem marksFrom_skipped (t : Tree) (n : NodeId) (blocks : List NodeId) :
    t.marksFrom ⟨n, .skipped, blocks⟩ = [] := by
  have hskipped (v : Visit) (hv : v.role = .skipped) : t.marksFrom v = [] := by
    induction v using visits_induction (t := t) with
    | h v ih =>
      have hlayout : (t.layout .skipped v.node) =
          { late := Role.skipAll (t.childrenOf v.node) } := by
        cases hkind : t.kind? v.node with
        | none => simp [layout_of_kind?_eq_none hkind, childrenOf, hkind, Role.skipAll]
        | some kind => simp [layout_of_kind? hkind, childrenOf, hkind, layoutOfKind]
      obtain ⟨node, role, blocks⟩ := v
      obtain rfl : role = .skipped := hv
      rw [marksFrom_of_isStill] <;> simp only [hlayout]
      · refine List.flatMap_eq_nil_iff.2 fun x hx => ?_
        obtain ⟨child, hchild, rfl⟩ := List.mem_map.1 hx
        refine ih ⟨child, .skipped, blocks⟩ ?_ rfl
        rw [inner, outside, inside, outside]
        simp only [hlayout]
        exact List.mem_map.2 ⟨_, List.mem_map.2 ⟨child, hchild, rfl⟩, rfl⟩
      · simp
  exact hskipped _ rfl

theorem marksOf_skipAll (t : Tree) (nodes : List NodeId) (blocks : List NodeId) :
    t.marksOf (Role.skipAll nodes) blocks = [] := by
  rw [marksOf, List.flatMap_eq_nil_iff]
  intro x hx
  obtain ⟨node, -, rfl⟩ := List.mem_map.1 hx
  exact marksFrom_skipped t node blocks

theorem isStill_updateAt (t : Tree) (n : NodeId) (writeExpr : Option NodeId) :
    ∀ step ∈ t.updateAt n writeExpr, step.IsStill := by
  intro step hstep
  cases hname : t.identifierName? n with
  | none => simp [updateAt, hname] at hstep
  | some name =>
    simp only [updateAt, hname, Option.elim_some, List.mem_singleton] at hstep
    rw [hstep]
    trivial

theorem marksFrom_updated (t : Tree) (n : NodeId) (writeExpr : Option NodeId)
    (blocks : List NodeId) :
    t.marksFrom ⟨n, .updated writeExpr, blocks⟩ =
      Outline.located (t.updateAt n writeExpr) blocks := by
  cases hkind : t.kind? n with
  | none =>
    rw [marksFrom_of_kind?_eq_none hkind]
    simp [updateAt, identifierName?, hkind, Outline.located]
  | some kind =>
    have hlayout : t.layout (.updated writeExpr) n =
        { own := t.updateAt n writeExpr, late := Role.skipAll kind.children } := by
      rw [layout_of_kind? hkind]
      rfl
    rw [marksFrom_of_isStill] <;> simp only [hlayout]
    · rw [marksOf_skipAll, List.append_nil]
    · exact t.isStill_updateAt n writeExpr

section Pattern

variable (use : PatternUse) (root : NodeId)

/-- The marks of a pattern: those of its targets and those of the nodes set aside. -/
def marksOfPattern (t : Tree) (c : Context) (use : PatternUse) (p : Pattern)
    (blocks : List NodeId) : List (Located String) :=
  Outline.located (p.targets.flatMap use.steps) blocks ++
    t.marksOf (Role.visitAll c p.rightHand) blocks

/-- The marks of two patterns are those of the pattern that they form. -/
theorem marksOfPattern_append (p q : Pattern) :
    (t.marksOfPattern c use (p ++ q) blocks).Perm
      (t.marksOfPattern c use p blocks ++ t.marksOfPattern c use q blocks) := by
  have htargets : (p ++ q).targets = p.targets ++ q.targets := rfl
  have hrightHand : (p ++ q).rightHand = p.rightHand ++ q.rightHand := rfl
  simp only [marksOfPattern, htargets, hrightHand, Outline.located, Role.visitAll,
    List.flatMap_append, List.map_append, marksOf_append, List.append_assoc]
  apply List.Perm.append_left
  rw [← List.append_assoc, ← List.append_assoc]
  exact List.perm_append_comm.append_right _

theorem marksOfPattern_join (ps : List Pattern) :
    (t.marksOfPattern c use (.join ps) blocks).Perm
      (ps.flatMap fun p => t.marksOfPattern c use p blocks) := by
  induction ps with
  | nil => exact .nil
  | cons p ps ih =>
    have hjoin : Pattern.join (p :: ps) = p ++ Pattern.join ps := by
      rfl
    rw [hjoin, List.flatMap_cons]
    exact (marksOfPattern_append use p _).trans (ih.append_left _)

theorem marksOfPattern_rightHand (nodes : List NodeId) :
    t.marksOfPattern c use { rightHand := nodes } blocks =
      t.marksOf (Role.visitAll c nodes) blocks :=
  rfl

theorem marksFrom_key (t : Tree) (c : Context) (key : NodeId) (computed : Bool)
    (blocks : List NodeId) :
    t.marksFrom ⟨key, .key c computed, blocks⟩ =
      t.marksOf (Role.visitAll c (if computed then [key] else [])) blocks := by
  cases computed with
  | true => simp [Role.key, Role.visitAll, marksOf_cons]
  | false => simp [Role.key, Role.visitAll, marksFrom_skipped]

theorem early_targetLayout (s : Pattern.Surroundings) (n : NodeId) (kind : NodeKind) :
    (targetLayout c use root s n kind).first = [] ∧
      (targetLayout c use root s n kind).early = [] := by
  unfold targetLayout
  dsimp only
  split <;> exact ⟨rfl, rfl⟩

theorem isStill_targetLayout (s : Pattern.Surroundings) (n : NodeId) (kind : NodeKind) :
    ∀ step ∈ (targetLayout c use root s n kind).own, step.IsStill := by
  unfold targetLayout
  dsimp only
  split
  case h_1 => exact use.isStill_steps _
  all_goals exact fun _ h => nomatch h

/-- The marks of a pattern are, in some order, those of its layout. -/
theorem perm_ofKind {s : Pattern.Surroundings} {kind : NodeKind}
    {walk : Pattern.Surroundings → NodeId → Pattern}
    (hwalk : ∀ s, ∀ m ∈ kind.children, (t.marksOfPattern c use (walk s m) blocks).Perm
      (t.marksFrom ⟨m, .target c use root s, blocks⟩)) :
    (t.marksOfPattern c use (Pattern.ofKind root walk s n kind) blocks).Perm
      (Outline.located (targetLayout c use root s n kind).own blocks ++
        t.marksOf (targetLayout c use root s n kind).late blocks) := by
  have hjoin : (t.marksOfPattern c use (Pattern.join (kind.children.map (walk s))) blocks).Perm
      (t.marksOf (kind.children.map (·, Role.target c use root s)) blocks) := by
    refine (marksOfPattern_join use _).trans ?_
    rw [List.flatMap_map]
    refine (List.Perm.flatMap_left _ fun m hm => hwalk s m hm).trans (.of_eq ?_)
    rw [marksOf, List.flatMap_map]
  cases kind with
  | identifier name =>
    simp [Pattern.ofKind, targetLayout, marksOfPattern, Role.visitAll]
  | property p =>
    refine (marksOfPattern_append use _ _).trans ?_
    refine ((hwalk s p.value (by simp [NodeKind.children])).append_left _).trans (.of_eq ?_)
    rw [marksOfPattern_rightHand, ← marksFrom_key]
    simp [targetLayout, marksOf_cons, Outline.located]
  | assignmentPattern left right | assignmentExpression _ left right =>
    refine (marksOfPattern_append use _ _).trans ?_
    refine ((hwalk _ left (by simp [NodeKind.children])).append_right _).trans (.of_eq ?_)
    simp [targetLayout, marksOfPattern_rightHand, marksOf_cons, Role.visitAll, Outline.located]
  | restElement argument =>
    refine (hwalk _ argument (by simp [NodeKind.children])).trans (.of_eq ?_)
    simp [targetLayout, marksOf_cons, Outline.located]
  | memberExpression object key computed _ =>
    have hkey : Role.visitAll c (if computed then [key, object] else [object]) =
        Role.visitAll c (if computed then [key] else []) ++ Role.visitAll c [object] := by
      cases computed <;> rfl
    rw [Pattern.ofKind, marksOfPattern_rightHand, hkey, marksOf_append, ← marksFrom_key]
    refine List.perm_append_comm.trans (.of_eq ?_)
    simp [targetLayout, marksOf_cons, Role.visitAll, Outline.located]
  | callExpression callee arguments _ =>
    refine (marksOfPattern_append use _ _).trans (List.perm_append_comm.trans ?_)
    exact (hwalk s callee (by simp [NodeKind.children])).append_right _
  | _ => exact hjoin

/-- A walk over a pattern finds what the roles say. -/
theorem perm_walkWithin {fuel : Nat} {s : Pattern.Surroundings} (hfuel : n.index < fuel) :
    (t.marksOfPattern c use (Pattern.walkWithin t root fuel s n) blocks).Perm
      (t.marksFrom ⟨n, .target c use root s, blocks⟩) := by
  induction fuel generalizing s n with
  | zero => omega
  | succ fuel ih =>
    rw [Pattern.walkWithin]
    cases hkind : t.kind? n with
    | none =>
      rw [marksFrom_of_kind?_eq_none hkind]
      exact .refl _
    | some kind =>
      have hlayout : t.layout (.target c use root s) n = targetLayout c use root s n kind :=
        layout_of_kind? hkind _
      rw [Option.elim_some, marksFrom_of_isStill] <;> rw [hlayout]
      · refine perm_ofKind use root fun s m hm => ih ?_
        have hlt := index_lt_of_mem_children hkind hm
        omega
      · exact (early_targetLayout use root s n kind).1
      · exact (early_targetLayout use root s n kind).2
      · exact isStill_targetLayout use root s n kind

end Pattern

section Declarator

variable (declaration : NodeId) (kind : VariableKind) (index : Nat) (right : NodeId)

def loopWrites (t : Tree) (declarator right : NodeId) : Outline :=
  match t.kind? declarator with
  | some (.variableDeclarator id _) => (t.pattern id).targets.map (·.write right false true none)
  | _ => []

theorem marksFrom_declarator {d : NodeId} {nodeKind : NodeKind} (hkind : t.kind? d = some nodeKind)
    (right : Option NodeId) :
    t.marksFrom ⟨d, .declarator c declaration kind index right, blocks⟩ =
      t.marksOf (t.layoutOfKind d nodeKind (.declarator c declaration kind index right)).late
        blocks := by
  rw [marksFrom_of_isStill] <;> rw [layout_of_kind? hkind] <;> unfold layoutOfKind <;>
    dsimp only <;> split <;> simp [Outline.located]

/-- A declarator that a loop writes has all its other marks too. -/
theorem marksFrom_declarator_right (d : NodeId) :
    (t.marksFrom ⟨d, .declarator c declaration kind index (some right), blocks⟩).Perm
      (t.marksFrom ⟨d, .declarator c declaration kind index none, blocks⟩ ++
        Outline.located (t.loopWrites d right) blocks) := by
  cases hkind : t.kind? d with
  | none => simp [marksFrom_of_kind?_eq_none hkind, loopWrites, hkind, Outline.located]
  | some nodeKind =>
    rw [marksFrom_declarator _ _ _ hkind, marksFrom_declarator _ _ _ hkind]
    unfold layoutOfKind loopWrites
    rw [hkind]
    dsimp only
    split
    case h_2 hne =>
      split
      · next id init heq => exact absurd (Option.some.inj heq) (hne id init)
      · simp [marksOf_skipAll, Outline.located]
    case h_1 id init =>
      have hpattern (use : PatternUse) : (t.marksFrom ⟨id, .target c use id {}, blocks⟩).Perm
          (t.marksOfPattern c use (t.pattern id) blocks) :=
        (perm_walkWithin use id (Nat.lt_succ_self id.index)).symm
      rw [marksOf_cons, marksOf_cons]
      refine ((hpattern _).append_right _).trans (.trans ?_
        (((hpattern _).symm.append_right _).append_right _))
      have htargets (targets : List PatternTarget) :
          (Outline.located (targets.flatMap (PatternUse.declarator declaration d kind index init
            (some right)).steps) blocks).Perm
          (Outline.located (targets.flatMap (PatternUse.declarator declaration d kind index init
            none).steps) blocks ++
              Outline.located (targets.map (·.write right false true none)) blocks) := by
        rw [Outline.located, Outline.located, Outline.located, ← List.map_append,
          List.map_eq_flatMap (l := targets)]
        refine .map _ (.trans (.of_eq ?_) (List.flatMap_append_perm ..).symm)
        simp [PatternUse.steps]
      refine (((htargets _).append_right _).append_right _).trans ?_
      simp only [marksOfPattern, List.append_assoc]
      refine .append_left _ ?_
      rw [← List.append_assoc (t.marksOf _ blocks)]
      exact List.perm_append_comm

omit index in
/-- The same for the head of a loop; only its first declarator is written. -/
theorem marksFrom_loopHead {head : NodeId} {declarations : List NodeId}
    (hkind : t.kind? head = some (.variableDeclaration kind declarations)) :
    (t.marksFrom ⟨head, .loopHead c right, blocks⟩).Perm
      (t.marksFrom ⟨head, .visited c, blocks⟩ ++
        Outline.located (t.loopDeclarationWrites declarations right) blocks) := by
  have hhead : t.layout (.loopHead c right) head = { late := declarations.zipIdx.map fun d =>
      (d.1, .declarator c head kind d.2 (if d.2 = 0 then some right else none)) } :=
    layout_of_kind? hkind _
  have hvisited : t.layout (.visited c) head = { late := declarations.zipIdx.map fun d =>
      (d.1, .declarator c head kind d.2 none) } :=
    layout_of_kind? hkind _
  rw [marksFrom_of_isStill, marksFrom_of_isStill] <;> simp only [hhead, hvisited]
  · cases declarations with
    | nil => exact .refl _
    | cons d ds =>
      have hlater : ((ds.zipIdx 1).map fun d =>
            (d.1, Role.declarator c head kind d.2 (if d.2 = 0 then some right else none))) =
          (ds.zipIdx 1).map fun d => (d.1, .declarator c head kind d.2 none) := by
        apply List.map_congr_left
        rintro ⟨d, i⟩ hmem
        have hi : i ≠ 0 := Nat.ne_of_gt (List.mem_zipIdx hmem).1
        simp only [if_neg hi]
      have hwrites : t.loopDeclarationWrites (d :: ds) right = t.loopWrites d right := rfl
      rw [hwrites, List.zipIdx_cons, List.map_cons, List.map_cons, hlater, marksOf_cons,
        marksOf_cons]
      simp only [Outline.located, List.map_nil, List.nil_append, if_true]
      refine ((marksFrom_declarator_right head kind 0 right d).append_right _).trans ?_
      simp only [List.append_assoc]
      exact List.perm_append_comm.append_left _
  all_goals simp

end Declarator

end Tree

end LexicalScope
