import LexicalScope.Proofs.Walk

/-!
Traces. The trace of a walk lists its steps, each with the blocks of the scopes that are open
before it; leaving a scope leaves no mark. What every step keeps while it adds itself to the trace
holds of the whole walk and of the trace of all its steps.
-/
namespace LexicalScope

variable {ν : Type}

/-- A step and the blocks of the scopes open before it, innermost first. -/
structure Located (ν : Type) where
  blocks : List NodeId
  step : Step ν

namespace Step

def mark (blocks : List NodeId) : Step ν → List (Located ν)
  | leave _ => []
  | step => [⟨blocks, step⟩]

def trace (blocks : List NodeId) : List (Step ν) → List (Located ν)
  | [] => []
  | step :: steps => step.mark blocks ++ trace (step.blocksAfter blocks) steps

theorem trace_append (blocks : List NodeId) (steps steps' : List (Step ν)) :
    trace blocks (steps ++ steps') =
      trace blocks steps ++ trace (steps.foldl blocksAfter blocks) steps' := by
  induction steps generalizing blocks with
  | nil => rfl
  | cons step steps ih =>
    rw [List.cons_append, trace, ih, trace, List.foldl_cons, List.append_assoc]

/-- A trace has the steps of the walk. -/
theorem mem_of_mem_trace {blocks : List NodeId} {steps : List (Step ν)} {l : Located ν}
    (h : l ∈ trace blocks steps) : l.step ∈ steps := by
  induction steps generalizing blocks with
  | nil => cases h
  | cons step steps ih =>
    rw [trace] at h
    rcases List.mem_append.1 h with h | h
    · cases step with
      | leave => cases h
      | _ =>
        rw [List.mem_singleton.1 h]
        exact List.mem_cons_self ..
    · exact List.mem_cons_of_mem _ (ih h)

end Step

def Located.mapName {μ : Type} (f : ν → μ) (l : Located ν) : Located μ :=
  ⟨l.blocks, l.step.mapName f⟩

theorem Step.trace_mapName {μ : Type} (f : ν → μ) (blocks : List NodeId)
    (steps : List (Step ν)) :
    trace blocks (steps.map (.mapName f)) = (trace blocks steps).map (.mapName f) := by
  induction steps generalizing blocks with
  | nil => rfl
  | cons step steps ih =>
    rw [List.map_cons, trace, ih, trace, List.map_append]
    cases step <;> rfl

variable [DecidableEq ν]

/-- A property of traces and cursors that every step of a walk inside the global scope keeps. -/
structure WalkInvariant (t : Tree) (P : List (Located ν) → Cursor ν → Prop) : Prop where
  enter : ∀ {trace c blocks kind}, Walking t c blocks → P trace c → kind ≠ .global →
    ∀ block strict, P (trace ++ [⟨blocks, .enter kind block strict⟩]) (c.enter kind block strict)
  close : ∀ {trace g s outer b blocks}, Walking t ⟨g, s :: outer⟩ (b :: blocks) →
    P trace ⟨g, s :: outer⟩ → s ≠ .global → P trace ⟨g.closeScope t s, outer⟩
  declare : ∀ {trace c blocks}, Walking t c blocks → P trace c → ∀ place name d,
    P (trace ++ [⟨blocks, .declare place name d⟩])
      { c with graph := c.graph.declare (c.place place) name d }
  refer : ∀ {trace c blocks}, Walking t c blocks → P trace c → ∀ o,
    P (trace ++ [⟨blocks, .refer o⟩]) { c with graph := c.graph.addReference (c.reference o) }
  this : ∀ {trace c blocks}, Walking t c blocks → P trace c →
    P (trace ++ [⟨blocks, .this⟩])
      { c with
        graph := c.graph.modifyScope (c.graph.variableScope c.current)
          fun s => { s with thisFound := true } }
  misplacedImport : ∀ {trace c blocks}, Walking t c blocks → P trace c → ∀ n,
    P (trace ++ [⟨blocks, .misplacedImport n⟩]) c

namespace WalkInvariant

variable {t : Tree} {P : List (Located ν) → Cursor ν → Prop} (hP : WalkInvariant t P)
include hP

/-- Leaving a node closes the scopes anchored there. -/
theorem leaveAll {block : NodeId} (hblock : block ≠ t.root) {trace : List (Located ν)}
    {g : ScopeGraph ν} {opened : List ScopeId} {blocks : List NodeId}
    (h : Walking t ⟨g, opened⟩ blocks) (htrace : P trace ⟨g, opened⟩) :
    P trace (Cursor.leaveAll t block g opened) := by
  induction opened generalizing g blocks with
  | nil => exact htrace
  | cons s outer ih =>
    have hblocks := h.blocks_eq
    cases blocks with
    | nil => cases hblocks
    | cons b blocks =>
      rw [List.map_cons, List.map_cons, List.cons.injEq] at hblocks
      obtain ⟨scope, hscope, hb⟩ := Option.map_eq_some_iff.1 hblocks.1
      rw [Cursor.leaveAll, hscope, Option.any_some, hb]
      by_cases heq : b = block
      · have hs : s ≠ .global := by
          rintro rfl
          have hroot := h.walked.block_global
          rw [hblocks.1] at hroot
          exact hblock (heq.symm.trans (Option.some.inj hroot))
        rw [decide_eq_true heq, if_pos rfl]
        exact ih (h.close hs) (hP.close h htrace hs)
      · rw [decide_eq_false heq, if_neg Bool.false_ne_true]
        exact htrace

/-- A walk inside the global scope. -/
theorem run {arguments : ν} {steps : List (Step ν)} (hsteps : Regular t arguments steps)
    {trace : List (Located ν)} {c : Cursor ν} {blocks : List NodeId} (h : Walking t c blocks)
    (harguments : ∀ s, c.graph.BindsArguments t arguments s) (htrace : P trace c) :
    Walking t (c.run t steps) (steps.foldl Step.blocksAfter blocks) ∧
      (∀ s, (c.run t steps).graph.BindsArguments t arguments s) ∧
      P (trace ++ Step.trace blocks steps) (c.run t steps) := by
  induction hsteps generalizing trace c blocks with
  | nil => exact ⟨h, harguments, (List.append_nil trace).symm ▸ htrace⟩
  | enter hglobal hfunction _ ih =>
    rw [Step.trace, ← List.append_assoc]
    exact ih (h.enter hglobal _ _) (.openScope harguments hfunction _ _)
      (hP.enter h htrace hglobal _ _)
  | enterFunction _ ih =>
    obtain ⟨hwalking, hbinds⟩ := h.enterFunction harguments _ _
    have hkind : ScopeKind.function ≠ .global := by decide
    rw [Step.trace, Step.trace, ← List.append_assoc, ← List.append_assoc]
    exact ih hwalking hbinds
      (hP.declare (h.enter hkind _ _) (hP.enter h htrace hkind _ _) .current arguments none)
  | leave hblock _ ih =>
    obtain ⟨hwalking, hframe⟩ := h.leaveAll hblock
    exact ih hwalking (.frame harguments hframe) (hP.leaveAll hblock h htrace)
  | @declare place name d _ _ ih =>
    have hlt := h.size_of_mem_opened (h.place_mem_opened place)
    rw [Step.trace, ← List.append_assoc]
    exact ih (h.declare place name (some d) fun _ => rfl)
      (fun s => (harguments s).declare hlt _ _) (hP.declare h htrace place name (some d))
  | refer _ ih =>
    rw [Step.trace, ← List.append_assoc]
    exact ih (h.refer _) (.addReference harguments _) (hP.refer h htrace _)
  | this _ ih =>
    rw [Step.trace, ← List.append_assoc]
    exact ih (h.this _) (.frame harguments
      (.modifyScope (by exact fun _ => rfl) (by exact fun _ => rfl) (by exact fun _ => rfl) _))
      (hP.this h htrace)
  | misplacedImport _ ih =>
    rw [Step.trace, ← List.append_assoc]
    exact ih h harguments (hP.misplacedImport h htrace _)

/-- When a walk leaves the root, all scopes inside the global one are closed first. -/
theorem leaveAll_root {arguments : ν} {trace : List (Located ν)} {g : ScopeGraph ν}
    {opened : List ScopeId} {blocks : List NodeId} (h : Walking t ⟨g, opened⟩ blocks)
    (hblocks : ∀ b ∈ blocks, b = t.root) (harguments : ∀ s, g.BindsArguments t arguments s)
    (htrace : P trace ⟨g, opened⟩) :
    ∃ g', Walking t ⟨g', [.global]⟩ [t.root] ∧ (∀ s, g'.BindsArguments t arguments s) ∧
      P trace ⟨g', [.global]⟩ ∧
      Cursor.leaveAll t t.root g opened = ⟨g'.closeScope t .global, []⟩ := by
  induction opened generalizing g blocks with
  | nil =>
    obtain ⟨outer, houter⟩ := h.exists_opened_eq
    cases houter
  | cons s outer ih =>
    have hmap := h.blocks_eq
    cases blocks with
    | nil => cases hmap
    | cons b blocks =>
      obtain rfl : b = t.root := hblocks b (List.mem_cons_self ..)
      rw [List.map_cons, List.map_cons, List.cons.injEq] at hmap
      obtain ⟨scope, hscope, hblock⟩ := Option.map_eq_some_iff.1 hmap.1
      have hleave : Cursor.leaveAll t t.root g (s :: outer) =
          Cursor.leaveAll t t.root (g.closeScope t s) outer := by
        simp [Cursor.leaveAll, hscope, hblock]
      by_cases hs : s = .global
      · subst hs
        have houter : outer = [] := by
          have hopened : ScopeId.global :: outer = g.chain .global := h.opened_eq
          cases hu : g.upper? .global with
          | none =>
            have hchain : g.chain .global = [.global] := h.walked.chain_outermost h.lt_size hu
            rw [hchain] at hopened
            exact (List.cons.inj hopened).2
          | some u => exact absurd (h.walked.upper_lt hu) (Nat.not_lt_zero _)
        subst houter
        obtain rfl : blocks = [] := by simpa using hmap.2.symm
        exact ⟨g, h, harguments, htrace, hleave⟩
      · rw [hleave]
        exact ih (h.close hs) (fun b hb => hblocks b (List.mem_cons_of_mem _ hb))
          (.frame harguments (h.frame_close hs)) (hP.close h htrace hs)

end WalkInvariant

end LexicalScope
