import LexicalScope.Proofs.Closing
import LexicalScope.Proofs.Walked
import LexicalScope.Scope.Cursor

/-!
Walks. The open scopes of a cursor are the chain of the innermost one, and the blocks at which
they are anchored follow the steps alone. Every step inside the global scope keeps this together
with the picture of where references are.
-/
namespace LexicalScope

variable {ν : Type}

def Step.blocksAfter (blocks : List NodeId) : Step ν → List NodeId
  | enter _ block _ => block :: blocks
  | leave block => blocks.dropWhile (· = block)
  | _ => blocks

/-- Steps inside the global scope. They never leave the root, and only the `arguments` of a
function are declared without a definition, right behind its opening. -/
inductive Regular (t : Tree) (arguments : ν) : List (Step ν) → Prop
  | nil : Regular t arguments []
  | enter {kind : ScopeKind} {block : NodeId} {strict : Bool} {steps : List (Step ν)}
      (hglobal : kind ≠ .global) (hfunction : kind = .function → t.isArrow block)
      (hsteps : Regular t arguments steps) :
      Regular t arguments (.enter kind block strict :: steps)
  | enterFunction {block : NodeId} {strict : Bool} {steps : List (Step ν)}
      (hsteps : Regular t arguments steps) :
      Regular t arguments
        (.enter .function block strict :: .declare .current arguments none :: steps)
  | leave {block : NodeId} {steps : List (Step ν)} (hblock : block ≠ t.root)
      (hsteps : Regular t arguments steps) : Regular t arguments (.leave block :: steps)
  | declare {place : Place} {name : ν} {d : Definition} {steps : List (Step ν)}
      (hsteps : Regular t arguments steps) :
      Regular t arguments (.declare place name (some d) :: steps)
  | refer {o : Occurrence ν} {steps : List (Step ν)} (hsteps : Regular t arguments steps) :
      Regular t arguments (.refer o :: steps)
  | this {steps : List (Step ν)} (hsteps : Regular t arguments steps) :
      Regular t arguments (.this :: steps)
  | misplacedImport {n : NodeId} {steps : List (Step ν)} (hsteps : Regular t arguments steps) :
      Regular t arguments (.misplacedImport n :: steps)

namespace ScopeGraph

theorem implicit_delegate (g : ScopeGraph ν) (s : ScopeId) (r : ReferenceId) :
    (g.delegate s r).implicit = g.implicit := by
  unfold delegate
  cases (g.getScope? s).bind (·.upper) <;> rfl

variable [DecidableEq ν]

theorem implicit_settle (t : Tree) (s : ScopeId) (g : ScopeGraph ν) (r : ReferenceId) :
    (settle t s g r).implicit = g.implicit := by
  unfold settle
  split
  · rfl
  · exact implicit_delegate g s r

omit [DecidableEq ν] in
theorem implicit_foldl {α : Type} {step : ScopeGraph ν → α → ScopeGraph ν}
    (hstep : ∀ g x, (step g x).implicit = g.implicit) (l : List α) (g : ScopeGraph ν) :
    (l.foldl step g).implicit = g.implicit := by
  induction l generalizing g with
  | nil => rfl
  | cons x l ih => exact (ih (step g x)).trans (hstep g x)

/-- Only the global scope makes implicit globals as it closes. -/
theorem implicit_closeScope (t : Tree) {g : ScopeGraph ν} {s : ScopeId} {scope : Scope ν}
    (hs : g.getScope? s = some scope) (hkind : scope.kind ≠ .global) :
    (g.closeScope t s).implicit = g.implicit := by
  unfold closeScope
  rw [hs]
  have hdelegate (ids : List ReferenceId) (g : ScopeGraph ν) :
      (ids.foldl (fun g r => (g.taint r).delegate s r) g).implicit = g.implicit :=
    implicit_foldl (fun g r => implicit_delegate (g.taint r) s r) ids g
  have hsettle (ids : List ReferenceId) (g : ScopeGraph ν) :
      (ids.foldl (settle t s) g).implicit = g.implicit :=
    implicit_foldl (implicit_settle t s) ids g
  simp only [← Array.foldl_toList]
  split
  · contradiction
  · exact hdelegate _ _
  · exact hsettle _ _

end ScopeGraph

variable [DecidableEq ν]

structure Walking (t : Tree) (c : Cursor ν) (blocks : List NodeId) : Prop where
  walked : c.graph.Walked t
  lt_size : c.current.index < c.graph.scopes.size
  opened_eq : c.opened = c.graph.chain c.current
  blocks_eq : c.opened.map c.graph.blockOf = blocks.map some
  settled : c.graph.Settled t c.opened

namespace Walking

variable {t : Tree} {c : Cursor ν} {blocks : List NodeId} (h : Walking t c blocks)
include h

theorem exists_opened_eq : ∃ outer, c.opened = c.current :: outer :=
  ⟨_, h.opened_eq.trans (h.walked.chain_eq h.lt_size)⟩

theorem head?_opened : c.opened.head? = some c.current := by
  obtain ⟨outer, houter⟩ := h.exists_opened_eq
  rw [houter]
  rfl

/-- A walk may go on in a new scope. -/
theorem enter {kind : ScopeKind} (hkind : kind ≠ .global) (block : NodeId) (strict : Bool) :
    Walking t (c.enter kind block strict) (block :: blocks) := by
  have hg := h.walked.toRooted
  have hgraph : (c.enter kind block strict).graph =
      c.graph.openScope kind block strict (some c.current) := by
    rw [Cursor.enter, h.head?_opened]
  have hold (s : ScopeId) (hs : s ∈ c.opened) :
      (c.graph.openScope kind block strict (some c.current)).blockOf s = c.graph.blockOf s := by
    have hlt : s.index < c.graph.scopes.size :=
      hg.size_of_mem_chain h.lt_size (h.opened_eq ▸ hs)
    have hblock := congrArg (Option.map (·.2.2.2))
      (ScopeGraph.position_openScope kind block strict (some c.current)
        (ScopeGraph.ne_nextScope_of_lt hlt))
    simp only [Option.map_map] at hblock
    exact hblock
  have hnew : (c.graph.openScope kind block strict (some c.current)).blockOf c.graph.nextScope =
      some block := by
    rw [ScopeGraph.blockOf, ScopeGraph.getScope?_openScope, if_pos rfl]
    rfl
  exact {
    walked := by
      rw [hgraph]
      exact h.walked.openScope hkind h.lt_size block strict
    lt_size := by
      rw [hgraph, ScopeGraph.size_scopes_openScope]
      exact Nat.lt_succ_self _
    opened_eq := by
      rw [hgraph]
      show c.graph.nextScope :: c.opened = ScopeGraph.chain _ c.graph.nextScope
      rw [hg.chain_nextScope _ _ _ h.lt_size, ← h.opened_eq]
    blocks_eq := by
      rw [hgraph]
      show List.map _ (c.graph.nextScope :: c.opened) = _
      rw [List.map_cons, hnew, List.map_congr_left hold, h.blocks_eq, List.map_cons]
    settled := by
      rw [hgraph]
      exact h.settled.openScope h.walked.toWellFormed h.lt_size h.opened_eq }

theorem size_of_mem_opened {s : ScopeId} (hs : s ∈ c.opened) : s.index < c.graph.scopes.size :=
  h.walked.size_of_mem_chain h.lt_size (h.opened_eq ▸ hs)

theorem chain_subset_opened (s : ScopeId) (hs : s ∈ c.opened) :
    ∀ x ∈ c.graph.chain s, x ∈ c.opened := by
  intro x hx
  rw [h.opened_eq] at hs ⊢
  exact h.walked.mem_chain_trans h.lt_size hs hx

theorem place_mem_opened (place : Place) : c.place place ∈ c.opened := by
  rw [h.opened_eq]
  cases place with
  | current => exact h.walked.mem_chain_self h.lt_size
  | variableScope => exact h.walked.variableScope_mem h.lt_size

/-- Steps that keep all scopes where they are. -/
theorem of_positions {g : ScopeGraph ν} (hpositions : c.graph.SamePositions g) (hg : g.Walked t)
    (hsettled : g.Settled t c.opened) : Walking t { c with graph := g } blocks where
  walked := hg
  lt_size := (hpositions.lt_size_iff _).2 h.lt_size
  opened_eq := h.opened_eq.trans (hpositions.chain _).symm
  blocks_eq := by
    rw [← h.blocks_eq]
    exact List.map_congr_left fun s _ => hpositions.blockOf s
  settled := hsettled

theorem declare (place : Place) (name : ν) (d : Option Definition)
    (hd : c.place place = .global → d.isSome) :
    Walking t { c with graph := c.graph.declare (c.place place) name d } blocks := by
  have hmem := h.place_mem_opened place
  have hlt := h.size_of_mem_opened hmem
  refine h.of_positions (ScopeGraph.revises_declare _ _ name d).samePositions
    (h.walked.declare hlt name d hd) ?_
  exact h.settled.declare h.walked.toWellFormed h.chain_subset_opened hmem name d

theorem refer (o : Occurrence ν) :
    Walking t { c with graph := c.graph.addReference (c.reference o) } blocks :=
  h.of_positions (c.graph.samePositions_addReference _) (h.walked.addReference h.lt_size)
    (h.settled.addReference h.walked.toWellFormed h.lt_size h.opened_eq rfl)

theorem this (s : ScopeId) :
    Walking t { c with graph := c.graph.modifyScope s fun s => { s with thisFound := true } }
      blocks := by
  have hframe : ScopeGraph.Frame [] c.graph
      (c.graph.modifyScope s fun s => { s with thisFound := true }) :=
    .modifyScope (by exact fun _ => rfl) (by exact fun _ => rfl) (by exact fun _ => rfl) s
  have hlinks : ScopeGraph.SameLinks c.graph
      (c.graph.modifyScope s fun s => { s with thisFound := true }) := {
    resolvedOf := fun _ => rfl
    linksOf := fun _ => rfl
    pendingOf := ScopeGraph.listOf_modifyScope (by exact fun _ => rfl) s
    throughOf := ScopeGraph.listOf_modifyScope (by exact fun _ => rfl) s }
  exact h.of_positions hframe.positions (h.walked.links hframe rfl)
    (h.settled.frame h.chain_subset_opened (hframe.mono (List.nil_subset _)) hlinks)

section Close

omit h

variable {g : ScopeGraph ν} {s : ScopeId} {outer : List ScopeId} {b : NodeId}

theorem frame_close (h : Walking t ⟨g, s :: outer⟩ blocks) (hs : s ≠ .global) :
    g.Frame [] (g.closeScope t s) :=
  ScopeGraph.frame_closeScope h.walked.toWellFormed h.settled h.lt_size hs

/-- Closing the innermost scope, unless it is the global one. -/
theorem close (h : Walking t ⟨g, s :: outer⟩ (b :: blocks)) (hs : s ≠ .global) :
    Walking t ⟨g.closeScope t s, outer⟩ blocks := by
  have hlt : s.index < g.scopes.size := h.lt_size
  have hchain : g.chain s = s :: outer := h.opened_eq.symm
  have hclosing := ScopeGraph.closing_closeScope h.walked.toWellFormed h.settled hlt hs hchain
  have hframe := h.frame_close hs
  have himplicit : (g.closeScope t s).implicit = g.implicit := by
    obtain ⟨scope, hscope⟩ := ScopeGraph.getScope?_of_lt hlt
    exact ScopeGraph.implicit_closeScope t hscope fun hkind =>
      hs ((h.walked.kind_global hscope).1 hkind)
  obtain ⟨u, hu⟩ : ∃ u, g.upper? s = some u := by
    cases hu : g.upper? s with
    | none => exact absurd (h.walked.isGlobal hlt hu) hs
    | some u => exact ⟨u, rfl⟩
  have husize := h.walked.upper_size hlt hu
  have houter : outer = g.chain u := by rw [hclosing.outer_eq, hu, Option.elim_some]
  have hcurrent : Cursor.current ⟨g.closeScope t s, outer⟩ = u := by
    rw [Cursor.current, houter, h.walked.chain_eq husize]
    rfl
  exact {
    walked := h.walked.links hframe himplicit
    lt_size := by
      rw [hcurrent]
      exact (hframe.positions.lt_size_iff u).2 husize
    opened_eq := by
      rw [hcurrent, hframe.positions.chain]
      exact houter
    blocks_eq := by
      have hblocks := h.blocks_eq
      rw [List.map_cons, List.map_cons] at hblocks
      rw [← (List.cons.inj hblocks).2]
      exact List.map_congr_left fun x _ => hframe.positions.blockOf x
    settled := hclosing.settled_closed }

/-- Leaving a block other than the root. -/
theorem leaveAll {block : NodeId} (hblock : block ≠ t.root) {opened : List ScopeId}
    (h : Walking t ⟨g, opened⟩ blocks) :
    Walking t (Cursor.leaveAll t block g opened) (blocks.dropWhile (· = block)) ∧
      g.Frame [] (Cursor.leaveAll t block g opened).graph := by
  induction opened generalizing g blocks with
  | nil =>
    obtain ⟨outer, houter⟩ := h.exists_opened_eq
    cases houter
  | cons s outer ih =>
    have hblocks := h.blocks_eq
    cases blocks with
    | nil => cases hblocks
    | cons b blocks =>
      rw [List.map_cons, List.map_cons, List.cons.injEq] at hblocks
      have hblockOf : g.blockOf s = some b := hblocks.1
      have hcond : (g.getScope? s).any (·.block = block) = decide (b = block) := by
        rw [ScopeGraph.blockOf, Option.map_eq_some_iff] at hblockOf
        obtain ⟨scope, hscope, rfl⟩ := hblockOf
        rw [hscope, Option.any_some]
      rw [Cursor.leaveAll, hcond]
      by_cases hb : b = block
      · have hs : s ≠ .global := by
          rintro rfl
          rw [h.walked.block_global] at hblockOf
          exact hblock (hb.symm.trans (Option.some.inj hblockOf).symm)
        obtain ⟨hwalking, hframe⟩ := ih (h.close hs)
        simp only [hb, decide_true, if_true, List.dropWhile_cons]
        exact ⟨hwalking, (h.frame_close hs).trans hframe⟩
      · simp only [hb, decide_false, List.dropWhile_cons]
        exact ⟨h, .refl [] g⟩

end Close

/-- The scope of a function opens, with its `arguments`. -/
theorem enterFunction {arguments : ν}
    (harguments : ∀ s, c.graph.BindsArguments t arguments s) (block : NodeId) (strict : Bool) :
    let c' := (c.enter .function block strict).step t (.declare .current arguments none)
    Walking t c' (block :: blocks) ∧ ∀ s, c'.graph.BindsArguments t arguments s := by
  have hkind : ScopeKind.function ≠ .global := by decide
  have hopen := h.enter hkind block strict
  have hne : c.graph.nextScope ≠ .global := by
    intro heq
    have hsize : c.graph.scopes.size = 0 := congrArg ScopeId.index heq
    have hlt := h.lt_size
    omega
  refine ⟨hopen.declare .current arguments none fun heq => absurd heq hne, ?_⟩
  intro s
  have hlt : c.graph.nextScope.index < (c.enter .function block strict).graph.scopes.size :=
    hopen.lt_size
  show ((c.enter .function block strict).graph.declare c.graph.nextScope arguments none
    ).BindsArguments t arguments s
  by_cases hs : s = c.graph.nextScope
  · intro _ _ _ _
    rw [(ScopeGraph.revises_declare ..).inTable?_eq hlt, if_pos ⟨hs, rfl⟩]
    rfl
  · exact ((harguments s).openScope_of_ne _ _ _ _ hs).declare hlt arguments none

end Walking

end LexicalScope
