import LexicalScope.Analysis
import LexicalScope.Proofs.CheckedOutline

/-!
Comments beside a program. A walk and the closing of its scopes read a tree through the kinds of
its nodes and through what stands below what, never through its comments. Comments come in with
the directives that they hold, and one that holds none makes no difference.
-/
namespace LexicalScope

/-- Whether a comment holds a directive, be it one without entries. -/
def Comment.isDirective (c : Comment) : Bool :=
  c.isBlock && (Directive.ofComment? c.text).isSome

namespace Tree

def withComments (t : Tree) (comments : Array Comment) : Tree :=
  { t with comments }

/-- One more comment in place `i`, or behind all others if they are fewer. -/
def insertComment (t : Tree) (i : Nat) (c : Comment) : Tree :=
  t.withComments (t.comments.toList.take i ++ c :: t.comments.toList.drop i).toArray

variable (t : Tree) (comments : Array Comment)

theorem ancestorsWithin_withComments (fuel : Nat) (n : NodeId) :
    (t.withComments comments).ancestorsWithin fuel n = t.ancestorsWithin fuel n := by
  induction fuel generalizing n with
  | zero => rfl
  | succ fuel ih =>
    have hparent : (t.withComments comments).parent? n = t.parent? n := rfl
    rw [ancestorsWithin, ancestorsWithin, hparent]
    cases t.parent? n with
    | none => rfl
    | some p => exact congrArg (p :: ·) (ih p)

theorem isWithin_withComments (top n : NodeId) :
    (t.withComments comments).isWithin top n = t.isWithin top n := by
  rw [isWithin, ancestors, ancestorsWithin_withComments]
  rfl

/-- The walk does not see comments. -/
theorem outline?_withComments (o : LanguageOptions) :
    (t.withComments comments).outline? o = t.outline? o := by
  have hroot : (t.withComments comments).root = t.root := rfl
  have hkind : (t.withComments comments).kind? = t.kind? := rfl
  exact Checked.outline?_congr hroot hkind o

end Tree

section Closing

variable {ν : Type} [DecidableEq ν] (t : Tree) (comments : Array Comment)

namespace ScopeGraph

variable (g : ScopeGraph ν) (s : ScopeId)

omit [DecidableEq ν] in
theorem isVisible_withComments (r : Reference ν) (v : VariableId) :
    g.isVisible (t.withComments comments) s r v = g.isVisible t s r v := by
  have hbody : g.functionBody? (t.withComments comments) s = g.functionBody? t s := rfl
  unfold isVisible
  simp only [hbody, Tree.isWithin_withComments]

theorem settle_withComments (r : ReferenceId) :
    settle (t.withComments comments) s g r = settle t s g r := by
  unfold settle resolution?
  simp only [isVisible_withComments]

theorem settleGlobal_withComments (r : ReferenceId) :
    settleGlobal (t.withComments comments) s g r = settleGlobal t s g r := by
  unfold settleGlobal
  rw [settle_withComments]

/-- Closing a scope does not see comments. -/
theorem closeScope_withComments :
    g.closeScope (t.withComments comments) s = g.closeScope t s := by
  have hsettle : settle (ν := ν) (t.withComments comments) s = settle t s :=
    funext fun g => funext (g.settle_withComments t comments s)
  have hglobal : settleGlobal (ν := ν) (t.withComments comments) s = settleGlobal t s :=
    funext fun g => funext (g.settleGlobal_withComments t comments s)
  unfold closeScope closeGlobal
  rw [hsettle, hglobal]

end ScopeGraph

namespace Cursor

theorem leaveAll_withComments (block : NodeId) (g : ScopeGraph ν) (opened : List ScopeId) :
    leaveAll (t.withComments comments) block g opened = leaveAll t block g opened := by
  induction opened generalizing g with
  | nil => rfl
  | cons s outer ih => rw [leaveAll, leaveAll, ScopeGraph.closeScope_withComments, ih]

theorem step_withComments (c : Cursor ν) (step : Step ν) :
    c.step (t.withComments comments) step = c.step t step := by
  cases step with
  | leave block => exact leaveAll_withComments t comments block c.graph c.opened
  | _ => rfl

theorem run_withComments (c : Cursor ν) (steps : List (Step ν)) :
    c.run (t.withComments comments) steps = c.run t steps := by
  have hstep : step (ν := ν) (t.withComments comments) = step t :=
    funext fun c => funext (c.step_withComments t comments)
  rw [run, hstep, run]

end Cursor

theorem ScopeGraph.ofOutline_withComments (outline : List (Step ν))
    (settings : GlobalSettings ν) :
    ofOutline (t.withComments comments) outline settings = ofOutline t outline settings := by
  rw [ofOutline, ofSteps, Cursor.run_withComments, ofOutline, ofSteps]

end Closing

namespace DirectiveTable

theorem addComment_of_not_isDirective {c : Comment} (hc : c.isDirective = false)
    (d : DirectiveTable) (index : Nat) : d.addComment (c, index) = d := by
  unfold addComment
  dsimp only
  split
  · next hblock =>
    rw [Comment.isDirective, hblock, Bool.true_and, Option.isSome_eq_false_iff,
      Option.isNone_iff_eq_none] at hc
    rw [hc]
    rfl
  · rfl

/-- A block comment adds its directive under its own number. -/
theorem addComment_of_ofComment? {c : Comment} (hblock : c.isBlock) {directive : Directive}
    (hc : Directive.ofComment? c.text = some directive) (d : DirectiveTable) (index : Nat) :
    d.addComment (c, index) = d.add ⟨index⟩ directive := by
  rw [addComment, if_pos hblock, hc]
  rfl

/-- Comments without directives add nothing. -/
theorem foldl_addComment {comments : List Comment}
    (hcomments : ∀ c ∈ comments, c.isDirective = false) (d : DirectiveTable) (start : Nat) :
    (comments.zipIdx start).foldl addComment d = d := by
  induction comments generalizing start with
  | nil => rfl
  | cons c comments ih =>
    obtain ⟨hc, hcomments⟩ := List.forall_mem_cons.1 hcomments
    rw [List.zipIdx_cons, List.foldl_cons, addComment_of_not_isDirective hc, ih hcomments]

variable {t : Tree} (ht : ∀ c ∈ t.comments, c.isDirective = false)
include ht

theorem ofComments_eq_empty : ofComments t.comments = {} :=
  foldl_addComment (fun c hc => ht c (Array.mem_toList_iff.1 hc)) {} 0

/-- If an added comment is the only one with a directive, this directive makes the table. -/
theorem ofComments_insertComment (i : Nat) {c : Comment} (hblock : c.isBlock)
    {directive : Directive} (hc : Directive.ofComment? c.text = some directive) :
    ofComments (t.insertComment i c).comments =
      ({} : DirectiveTable).add ⟨min i t.comments.size⟩ directive := by
  have hbefore : ∀ c ∈ t.comments.toList.take i, c.isDirective = false := fun c hc =>
    ht c (Array.mem_toList_iff.1 (List.mem_of_mem_take hc))
  have hafter : ∀ c ∈ t.comments.toList.drop i, c.isDirective = false := fun c hc =>
    ht c (Array.mem_toList_iff.1 (List.mem_of_mem_drop hc))
  rw [Tree.insertComment, Tree.withComments, ofComments, List.zipIdx_append, List.foldl_append,
    foldl_addComment hbefore, List.zipIdx_cons, List.foldl_cons, addComment_of_ofComment? hblock hc,
    foldl_addComment hafter, List.length_take, Array.length_toList, Nat.zero_add]

end DirectiveTable

end LexicalScope
