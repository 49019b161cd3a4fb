import LexicalScope.Proofs.Strictness
import LexicalScope.Proofs.Visitor

/-!
What a visitor may do to the scopes that it finds. On its way it opens scopes and closes those
that are open, and whatever it does, one relation holds between before and after: a scope that is
open no more has been closed once and has nothing pending, and nothing waits anew in a scope above
the innermost one that stays open.
-/
namespace LexicalScope

variable {ν : Type}

section Pending

variable [DecidableEq ν] {g : ScopeGraph ν} {t : Tree} {s x : ScopeId}

namespace ScopeGraph

omit [DecidableEq ν] in
theorem pendingOf_modifyScope_of_ne (hx : x ≠ s) (f : Scope ν → Scope ν) :
    (g.modifyScope s f).pendingOf x = g.pendingOf x := by
  rw [pendingOf, listOf, getScope?_modifyScope, if_neg hx]
  rfl

omit [DecidableEq ν] in
theorem pendingOf_delegate_of_ne (hx : g.upper? s ≠ some x) (r : ReferenceId) :
    (g.delegate s r).pendingOf x = g.pendingOf x := by
  have hhanded : ((g.upper? s).elim g
      (g.modifyScope · fun u => { u with pending := u.pending.push r })).pendingOf x =
      g.pendingOf x := by
    cases hu : g.upper? s with
    | none => rfl
    | some u =>
      rw [hu] at hx
      exact pendingOf_modifyScope_of_ne (fun heq => hx (congrArg some heq.symm)) _
  exact (listOf_modifyScope (by exact fun _ => rfl) s x).trans hhanded

theorem pendingOf_settle_of_ne (hx : g.upper? s ≠ some x) (r : ReferenceId) :
    (settle t s g r).pendingOf x = g.pendingOf x := by
  unfold settle
  split
  · rfl
  · exact pendingOf_delegate_of_ne hx r

theorem pendingOf_settleGlobal_of_ne (hx : g.upper? s ≠ some x) (r : ReferenceId) :
    (settleGlobal t s g r).pendingOf x = g.pendingOf x := by
  unfold settleGlobal
  split
  · exact pendingOf_settle_of_ne hx r
  · exact listOf_modifyScope (by exact fun _ => rfl) s x

theorem pendingOf_declareImplicit (name : ν) (d : Definition) :
    (g.declareImplicit name d).pendingOf x = g.pendingOf x := by
  unfold declareImplicit bindImplicit
  cases g.implicit.table.get? name <;> rfl

theorem pendingOf_declareSite (r : ReferenceId) :
    (declareSite s g r).pendingOf x = g.pendingOf x := by
  unfold declareSite
  split
  · split
    · rfl
    · exact pendingOf_declareImplicit _ _
  · rfl

/-- Closing a scope empties it and adds to the scope around it only. -/
theorem pendingOf_closeScope (hx : g.upper? s ≠ some x) :
    (g.closeScope t s).pendingOf x = if x = s then [] else g.pendingOf x := by
  cases hs : g.getScope? s with
  | none =>
    have hclose : g.closeScope t s = g := by
      unfold closeScope
      rw [hs]
    rw [hclose]
    split
    · next heq => rw [heq, pendingOf, listOf, hs, Option.elim_none]
    · rfl
  | some scope =>
    have hempty : (g.emptied s).pendingOf x = if x = s then [] else g.pendingOf x :=
      pendingOf_emptied x
    let Q : ScopeGraph ν → Prop := fun g' =>
      g.SameTree g' ∧ g'.pendingOf x = if x = s then [] else g.pendingOf x
    have hsteady := (SameTree.stable g).steady
    have hne {g' : ScopeGraph ν} (h : g.SameTree g') : g'.upper? s ≠ some x := by
      rwa [h.samePositions.upper?]
    have hstart : Q (g.emptied s) := ⟨.modifyScope (by exact fun _ => rfl) s, hempty⟩
    suffices hend : Q (g.closeScope t s) from hend.2
    unfold closeScope closeGlobal
    rw [hs]
    simp only [← Array.foldl_toList]
    split
    · refine foldl_induction (Q := Q) (fun r h => ?_) _ ?_
      · exact ⟨hsteady.settleGlobal t s r h.1, (pendingOf_settleGlobal_of_ne (hne h.1) r).trans h.2⟩
      · have hdeclared : Q (scope.pending.toList.foldl (declareSite s) (g.emptied s)) :=
          foldl_induction (Q := Q) (fun r h =>
            ⟨hsteady.declareSite s r h.1, (pendingOf_declareSite r).trans h.2⟩) _ hstart
        exact ⟨hdeclared.1.trans ⟨fun _ => rfl, rfl⟩, hdeclared.2⟩
    · refine foldl_induction (Q := Q) (fun r h => ?_) _ hstart
      have htaint : g.SameTree (ScopeGraph.taint _ r) := h.1.trans ⟨fun _ => rfl, rfl⟩
      exact ⟨hsteady.delegate s r htaint, (pendingOf_delegate_of_ne (hne htaint) r).trans h.2⟩
    · refine foldl_induction (Q := Q) (fun r h => ?_) _ hstart
      exact ⟨hsteady.settle t s r h.1, (pendingOf_settle_of_ne (hne h.1) r).trans h.2⟩

end ScopeGraph

end Pending

/-- What opening decides about a scope once and for all. -/
def Scope.frame (s : Scope ν) : Bool × ScopeKind × Option ScopeId × ScopeId × NodeId :=
  (s.isStrict, s.position)

theorem ScopeGraph.SameTree.map_frame {g g' : ScopeGraph ν} (h : g.SameTree g') (s : ScopeId) :
    (g'.getScope? s).map Scope.frame = (g.getScope? s).map Scope.frame := by
  have hframe := congrArg (Option.map fun x => (x.2.1, x.2.2.2)) (h.treeNode_eq s)
  simp only [Option.map_map] at hframe
  exact hframe

/-- A way up is no longer than the fuel. -/
theorem ScopeGraph.length_chainWithin_le (g : ScopeGraph ν) (fuel : Nat) (s : ScopeId) :
    (g.chainWithin fuel s).length ≤ fuel := by
  induction fuel generalizing s with
  | zero => exact Nat.le_refl 0
  | succ fuel ih =>
    rw [chainWithin, List.length_cons]
    cases (g.getScope? s).bind (·.upper) with
    | none => exact Nat.succ_le_succ (Nat.zero_le fuel)
    | some u => exact Nat.succ_le_succ (ih u)

namespace Visitor

def opened (v : Visitor ν) : List ScopeId :=
  v.current.elim [] v.graph.chain

def cursor (v : Visitor ν) : Cursor ν where
  graph := v.graph
  opened := v.opened

def context (v : Visitor ν) : Context where
  isModule := v.isModule
  inMethod := v.inMethod

/-- The states of a visitor inside a program: the scopes form a tree, the current one is among
them, and the global scope is anchored at a program. -/
structure Sound (t : Tree) (v : Visitor ν) : Prop where
  rooted : v.graph.Rooted
  current_lt : ∀ s ∈ v.current, s.index < v.graph.scopes.size
  program : ∃ b, v.graph.blockOf .global = some b ∧ t.isProgram b

namespace Sound

variable {t : Tree} {v : Visitor ν} {c s : ScopeId}

theorem opened_eq (h : v.Sound t) (hc : v.current = some c) :
    v.opened = c :: (v.graph.upper? c).elim [] v.graph.chain := by
  rw [opened, hc, Option.elim_some, h.rooted.chain_eq (h.current_lt c hc)]

theorem head?_opened (h : v.Sound t) : v.opened.head? = v.current := by
  cases hc : v.current with
  | none => rw [opened, hc, Option.elim_none, List.head?_nil]
  | some c => rw [h.opened_eq hc, List.head?_cons]

theorem lt_of_mem_opened (h : v.Sound t) (hs : s ∈ v.opened) : s.index < v.graph.scopes.size := by
  cases hc : v.current with
  | none =>
    rw [opened, hc] at hs
    cases hs
  | some c =>
    rw [opened, hc] at hs
    exact h.rooted.size_of_mem_chain (h.current_lt c hc) hs

theorem index_le_of_mem_opened (h : v.Sound t) (hc : v.current = some c) (hs : s ∈ v.opened) :
    s.index ≤ c.index := by
  rw [opened, hc] at hs
  exact h.rooted.index_le_of_mem_chain (h.current_lt c hc) hs

theorem nodup_opened (h : v.Sound t) : v.opened.Nodup := by
  cases hc : v.current with
  | none =>
    rw [opened, hc]
    exact List.nodup_nil
  | some c =>
    rw [opened, hc]
    exact h.rooted.nodup_chain (h.current_lt c hc)

theorem mem_opened (h : v.Sound t) (hc : v.current = some c) : c ∈ v.opened := by
  rw [h.opened_eq hc]
  exact List.mem_cons_self ..

theorem global_mem_opened (h : v.Sound t) (hc : v.current = some c) : .global ∈ v.opened := by
  obtain ⟨l, hl⟩ := h.rooted.exists_chain_eq_append_global (h.current_lt c hc)
  rw [opened, hc, Option.elim_some, hl]
  exact List.mem_append_right _ (List.mem_singleton_self _)

end Sound

/-- `v'` comes from `v` by opening scopes and closing open ones. -/
structure Moves (t : Tree) (v v' : Visitor ν) : Prop where
  sound : v.Sound t
  sound' : v'.Sound t
  context_eq : v'.context = v.context
  size_le : v.graph.scopes.size ≤ v'.graph.scopes.size
  frame_eq : ∀ s : ScopeId, s.index < v.graph.scopes.size →
    (v'.graph.getScope? s).map Scope.frame = (v.graph.getScope? s).map Scope.frame
  /-- Only new scopes can be open that were not. -/
  opened_subset : ∀ s ∈ v'.opened, s ∈ v.opened ∨ v.graph.scopes.size ≤ s.index
  /-- What is open no more has been closed, once, and nothing else has. -/
  closed : ∃ gone, v'.closed = gone ++ v.closed ∧ gone.Nodup ∧ ∀ s, s ∈ gone ↔
    (s ∈ v.opened ∨ v.graph.scopes.size ≤ s.index ∧ s.index < v'.graph.scopes.size) ∧
      s ∉ v'.opened
  emptied : ∀ s, s ∈ v.opened ∨ v.graph.scopes.size ≤ s.index → s ∉ v'.opened →
    v'.graph.pendingOf s = []
  /-- Nothing waits anew in a scope that was not open or lies around one that stays open. -/
  kept : ∀ s : ScopeId, s.index < v.graph.scopes.size →
    (s ∉ v.opened ∨ ∃ x ∈ v.opened, x ∈ v'.opened ∧ s.index < x.index) →
    v'.graph.pendingOf s = v.graph.pendingOf s

namespace Moves

variable {t : Tree} {v v' v'' : Visitor ν} {s : ScopeId}

theorem refl (h : v.Sound t) : v.Moves t v where
  sound := h
  sound' := h
  context_eq := rfl
  size_le := Nat.le_refl _
  frame_eq _ _ := rfl
  opened_subset _ hs := .inl hs
  closed := by
    refine ⟨[], rfl, .nil, fun s => ⟨nofun, ?_⟩⟩
    rintro ⟨hs | ⟨hle, hlt⟩, hnot⟩
    · exact absurd hs hnot
    · omega
  emptied s hs hnot := by
    rcases hs with hs | hle
    · exact absurd hs hnot
    · have hnone : v.graph.getScope? s = none := Array.getElem?_eq_none hle
      rw [ScopeGraph.pendingOf, ScopeGraph.listOf, hnone, Option.elim_none]
  kept _ _ _ := rfl

/-- A scope that was there and is open has been open all the time. -/
theorem mem_opened_of_lt (h : v.Moves t v') (hs : s.index < v.graph.scopes.size)
    (hmem : s ∈ v'.opened) : s ∈ v.opened :=
  (h.opened_subset s hmem).resolve_right (Nat.not_le.2 hs)

/-- A scope that is closed on the way as a whole is closed in one of its parts. -/
theorem closed_trans_iff (h : v.Moves t v') (h' : v'.Moves t v'') (s : ScopeId) :
    ((s ∈ v'.opened ∨ v'.graph.scopes.size ≤ s.index ∧ s.index < v''.graph.scopes.size) ∧
        s ∉ v''.opened ∨
      (s ∈ v.opened ∨ v.graph.scopes.size ≤ s.index ∧ s.index < v'.graph.scopes.size) ∧
        s ∉ v'.opened) ↔
      (s ∈ v.opened ∨ v.graph.scopes.size ≤ s.index ∧ s.index < v''.graph.scopes.size) ∧
        s ∉ v''.opened := by
  have hle := h.size_le
  have hle' := h'.size_le
  have hlt' (hs : s ∈ v'.opened) := h'.sound.lt_of_mem_opened hs
  have hlt (hs : s ∈ v.opened) : s.index < v'.graph.scopes.size :=
    Nat.lt_of_lt_of_le (h.sound.lt_of_mem_opened hs) hle
  constructor
  · rintro (⟨hs | ⟨hge, hlt''⟩, hnot⟩ | ⟨hs, hnot⟩)
    · exact ⟨(h.opened_subset s hs).imp_right fun hge =>
        ⟨hge, Nat.lt_of_lt_of_le (hlt' hs) hle'⟩, hnot⟩
    · exact ⟨.inr ⟨Nat.le_trans hle hge, hlt''⟩, hnot⟩
    · have hthere : s.index < v'.graph.scopes.size := hs.elim hlt And.right
      exact ⟨hs.imp_right fun hnew => ⟨hnew.1, Nat.lt_of_lt_of_le hthere hle'⟩,
        fun hmem => hnot (h'.mem_opened_of_lt hthere hmem)⟩
  · rintro ⟨hs, hnot⟩
    by_cases hmem : s ∈ v'.opened
    · exact .inl ⟨.inl hmem, hnot⟩
    · by_cases hthere : s.index < v'.graph.scopes.size
      · exact .inr ⟨hs.imp_right fun hnew => ⟨hnew.1, hthere⟩, hmem⟩
      · have hge := Nat.not_lt.1 hthere
        exact .inl ⟨.inr ⟨hge, hs.elim (fun hs => absurd (hlt hs) hthere) And.right⟩, hnot⟩

/-- Moves may follow each other. -/
theorem trans (h : v.Moves t v') (h' : v'.Moves t v'') : v.Moves t v'' where
  sound := h.sound
  sound' := h'.sound'
  context_eq := h'.context_eq.trans h.context_eq
  size_le := Nat.le_trans h.size_le h'.size_le
  frame_eq s hs := (h'.frame_eq s (Nat.lt_of_lt_of_le hs h.size_le)).trans (h.frame_eq s hs)
  opened_subset s hs := (h'.opened_subset s hs).elim (h.opened_subset s) fun hge =>
    .inr (Nat.le_trans h.size_le hge)
  closed := by
    obtain ⟨gone, heq, hnodup, hgone⟩ := h.closed
    obtain ⟨gone', heq', hnodup', hgone'⟩ := h'.closed
    refine ⟨gone' ++ gone, by rw [heq', heq, List.append_assoc], ?_, fun s => ?_⟩
    · refine List.nodup_append.2 ⟨hnodup', hnodup, ?_⟩
      rintro s hs' _ hs rfl
      obtain ⟨hopened, hnot⟩ := (hgone s).1 hs
      have hthere : s.index < v'.graph.scopes.size := hopened.elim
        (fun hs => Nat.lt_of_lt_of_le (h.sound.lt_of_mem_opened hs) h.size_le) And.right
      exact ((hgone' s).1 hs').1.elim hnot fun hnew => Nat.not_le.2 hthere hnew.1
    · rw [List.mem_append, hgone, hgone']
      exact h.closed_trans_iff h' s
  emptied s hs hnot := by
    by_cases hmem : s ∈ v'.opened
    · exact h'.emptied s (.inl hmem) hnot
    · by_cases hge : v'.graph.scopes.size ≤ s.index
      · exact h'.emptied s (.inr hge) hnot
      · rw [h'.kept s (Nat.not_le.1 hge) (.inl hmem)]
        exact h.emptied s hs hmem
  kept s hs hcase := by
    have hlt : s.index < v'.graph.scopes.size := Nat.lt_of_lt_of_le hs h.size_le
    rcases hcase with hnot | ⟨x, hx, hx', hsx⟩
    · have hnot' : s ∉ v'.opened := fun hmem => hnot (h.mem_opened_of_lt hs hmem)
      rw [h'.kept s hlt (.inl hnot'), h.kept s hs (.inl hnot)]
    · have hmem : x ∈ v'.opened := h'.mem_opened_of_lt
        (Nat.lt_of_lt_of_le (h.sound.lt_of_mem_opened hx) h.size_le) hx'
      rw [h'.kept s hlt (.inr ⟨x, hmem, hx', hsx⟩), h.kept s hs (.inr ⟨x, hx, hmem, hsx⟩)]

theorem blockOf_eq (h : v.Moves t v') (hs : s.index < v.graph.scopes.size) :
    v'.graph.blockOf s = v.graph.blockOf s := by
  have hblock := congrArg (Option.map (·.2.2.2.2)) (h.frame_eq s hs)
  simp only [Option.map_map] at hblock
  exact hblock

theorem isStrict_eq (h : v.Moves t v') (hs : s.index < v.graph.scopes.size) :
    v'.graph.isStrict s = v.graph.isStrict s := by
  have hstrict := congrArg (Option.any (·.1)) (h.frame_eq s hs)
  simp only [Option.any_map] at hstrict
  exact hstrict

theorem variableScope_eq (h : v.Moves t v') (hs : s.index < v.graph.scopes.size) :
    v'.graph.variableScope s = v.graph.variableScope s := by
  have hscope := congrArg (Option.elim · s (·.2.2.2.1)) (h.frame_eq s hs)
  simp only [Option.elim_map] at hscope
  exact hscope

end Moves

section Parts

variable {t : Tree} {v : Visitor ν} {c : ScopeId} {g : ScopeGraph ν}

theorem pendingOf_of_size_le {s : ScopeId} (hs : g.scopes.size ≤ s.index) : g.pendingOf s = [] := by
  have hnone : g.getScope? s = none := Array.getElem?_eq_none hs
  rw [ScopeGraph.pendingOf, ScopeGraph.listOf, hnone, Option.elim_none]

/-- A state over the same scopes has the same way up. -/
theorem opened_of_samePositions (hsame : v.graph.SamePositions g) :
    opened { v with graph := g } = v.opened := by
  cases hc : v.current with
  | none => simp only [opened, hc, Option.elim_none]
  | some c =>
    simp only [opened, hc, Option.elim_some]
    exact hsame.chain c

/-- A change that moves no scope and lets references wait in the current one only. -/
theorem Moves.of_sameTree (h : v.Sound t) (hsame : v.graph.SameTree g)
    (hpending : ∀ s, some s ≠ v.current → g.pendingOf s = v.graph.pendingOf s) :
    v.Moves t { v with graph := g } := by
  have hpositions := hsame.samePositions
  have hsize := hpositions.size_scopes
  have hopened := opened_of_samePositions hpositions
  have hsound : Sound t { v with graph := g } := {
    rooted := hpositions.rooted h.rooted
    current_lt := fun s hs => hsize ▸ h.current_lt s hs
    program := by
      obtain ⟨b, hb, hprogram⟩ := h.program
      exact ⟨b, (hpositions.blockOf _).trans hb, hprogram⟩ }
  exact {
    sound := h
    sound' := hsound
    context_eq := rfl
    size_le := Nat.le_of_eq hsize.symm
    frame_eq := fun s _ => hsame.map_frame s
    opened_subset := fun s hs => .inl (hopened ▸ hs)
    closed := by
      refine ⟨[], rfl, .nil, fun s => ⟨nofun, ?_⟩⟩
      rintro ⟨hs | ⟨hge, hlt⟩, hnot⟩
      · exact absurd (hopened ▸ hs) hnot
      · have hlt : s.index < g.scopes.size := hlt
        omega
    emptied := fun s hs hnot => by
      rcases hs with hs | hge
      · exact absurd (hopened ▸ hs) hnot
      · exact pendingOf_of_size_le (g := g) (by omega)
    kept := fun s _ hcase => by
      refine hpending s fun hs => ?_
      rcases hcase with hnot | ⟨x, hx, -, hsx⟩
      · exact hnot (h.mem_opened hs.symm)
      · have hle := h.index_le_of_mem_opened hs.symm hx
        omega }

section Nest

variable (kind : ScopeKind) (block : NodeId) (strict : Bool)

theorem opened_nest (h : v.Sound t) (hc : v.current = some c) :
    (v.nest kind block strict).opened = v.graph.nextScope :: v.opened := by
  have hlt := h.current_lt c hc
  simp only [opened, nest, hc, Option.elim_some]
  exact h.rooted.chain_nextScope kind block strict hlt

theorem blockOf_nest :
    (v.nest kind block strict).graph.blockOf v.graph.nextScope = some block := by
  rw [nest, ScopeGraph.blockOf, ScopeGraph.getScope?_openScope, if_pos rfl]
  rfl

theorem map_frame_nest {s : ScopeId} (hs : s.index < v.graph.scopes.size) :
    ((v.nest kind block strict).graph.getScope? s).map Scope.frame =
      (v.graph.getScope? s).map Scope.frame := by
  rw [nest, ScopeGraph.getScope?_openScope, if_neg (ScopeGraph.ne_nextScope_of_lt hs)]
  split <;> cases v.graph.getScope? s <;> rfl

theorem Sound.nest (h : v.Sound t) (hc : v.current = some c) :
    (v.nest kind block strict).Sound t where
  rooted := by
    rw [Visitor.nest, hc]
    exact h.rooted.openScope kind block strict (h.current_lt c hc)
  current_lt s hs := by
    rw [← Option.some.inj hs, Visitor.nest, v.graph.size_scopes_openScope]
    exact Nat.lt_succ_self _
  program := by
    obtain ⟨b, hb, hprogram⟩ := h.program
    have hframe := map_frame_nest kind block strict (Nat.zero_lt_of_lt (h.current_lt c hc))
    have hblock := congrArg (Option.map (·.2.2.2.2)) hframe
    simp only [Option.map_map] at hblock
    exact ⟨b, hblock.trans hb, hprogram⟩

/-- A scope opened inside the current one becomes the current one. -/
theorem Moves.nest (h : v.Sound t) (hc : v.current = some c) :
    v.Moves t (v.nest kind block strict) := by
  have hopened := opened_nest kind block strict h hc
  have hsize := v.graph.size_scopes_openScope kind block strict v.current
  exact {
    sound := h
    sound' := h.nest kind block strict hc
    context_eq := rfl
    size_le := by
      rw [Visitor.nest, hsize]
      exact Nat.le_succ _
    frame_eq := fun _ hs => map_frame_nest kind block strict hs
    opened_subset := fun s hs => by
      rcases List.mem_cons.1 (hopened ▸ hs) with rfl | hs
      · exact .inr (Nat.le_refl _)
      · exact .inl hs
    closed := by
      refine ⟨[], rfl, .nil, fun s => ⟨nofun, ?_⟩⟩
      rw [hopened, List.mem_cons, not_or]
      rintro ⟨hs | ⟨hge, hlt⟩, hne, hnot⟩
      · exact absurd hs hnot
      · have heq := (ScopeGraph.lt_or_eq_nextScope hsize hlt).resolve_left (Nat.not_lt.2 hge)
        exact absurd heq hne
    emptied := fun s hs hnot => by
      rw [hopened, List.mem_cons, not_or] at hnot
      rw [Visitor.nest, ScopeGraph.pendingOf_openScope]
      exact pendingOf_of_size_le (hs.resolve_left hnot.2)
    kept := fun s _ _ => ScopeGraph.pendingOf_openScope _ _ }

end Nest

section Close

variable [DecidableEq ν] {n : NodeId}

theorem opened_eq_closeScope (h : v.Sound t) (hc : v.current = some c) :
    v.opened = c :: (v.closeScope t c).opened := by
  have hsame := (ScopeGraph.SameTree.closeScope t v.graph c).samePositions
  rw [h.opened_eq hc, opened, closeScope]
  simp only [hsame.upper?]
  cases v.graph.upper? c with
  | none => rfl
  | some u => rw [Option.elim_some, Option.elim_some, hsame.chain]

theorem size_closeScope (v : Visitor ν) (c : ScopeId) :
    (v.closeScope t c).graph.scopes.size = v.graph.scopes.size :=
  (ScopeGraph.SameTree.closeScope t v.graph c).samePositions.size_scopes

theorem current_closeScope (v : Visitor ν) (c : ScopeId) :
    (v.closeScope t c).current = v.graph.upper? c :=
  (ScopeGraph.SameTree.closeScope t v.graph c).samePositions.upper? c

theorem Sound.closeScope (h : v.Sound t) (hc : v.current = some c) :
    (v.closeScope t c).Sound t where
  rooted := (ScopeGraph.SameTree.closeScope t v.graph c).samePositions.rooted h.rooted
  current_lt u hu := by
    rw [size_closeScope]
    exact h.rooted.upper_size (h.current_lt c hc) (current_closeScope (t := t) v c ▸ hu)
  program := by
    have hblock := (ScopeGraph.SameTree.closeScope t v.graph c).samePositions.blockOf
    obtain ⟨b, hb, hprogram⟩ := h.program
    exact ⟨b, (hblock _).trans hb, hprogram⟩

theorem not_mem_opened_closeScope (h : v.Sound t) (hc : v.current = some c) :
    c ∉ (v.closeScope t c).opened := by
  have hnodup := h.nodup_opened
  rw [opened_eq_closeScope h hc] at hnodup
  exact (List.nodup_cons.1 hnodup).1

/-- No more than the current scope has been closed. -/
theorem mem_closed_closeScope_iff (h : v.Sound t) (hc : v.current = some c) (s : ScopeId) :
    s ∈ [c] ↔ (s ∈ v.opened ∨ v.graph.scopes.size ≤ s.index ∧
      s.index < (v.closeScope t c).graph.scopes.size) ∧ s ∉ (v.closeScope t c).opened := by
  rw [List.mem_singleton, opened_eq_closeScope h hc, List.mem_cons, size_closeScope]
  constructor
  · rintro rfl
    exact ⟨.inl (.inl rfl), not_mem_opened_closeScope h hc⟩
  · rintro ⟨(rfl | hs) | ⟨hge, hlt⟩, hs'⟩
    · rfl
    · exact absurd hs hs'
    · omega

theorem pendingOf_closeScope_eq_nil (h : v.Sound t) (hc : v.current = some c) {s : ScopeId}
    (hs : s ∈ v.opened ∨ v.graph.scopes.size ≤ s.index)
    (hs' : s ∉ (v.closeScope t c).opened) : (v.closeScope t c).graph.pendingOf s = [] := by
  rcases hs with hs | hge
  · rw [opened_eq_closeScope h hc] at hs
    obtain rfl := (List.mem_cons.1 hs).resolve_right hs'
    have hne : v.graph.upper? s ≠ some s := fun hu => Nat.lt_irrefl _ (h.rooted.upper_lt hu)
    exact (ScopeGraph.pendingOf_closeScope hne).trans (if_pos rfl)
  · exact pendingOf_of_size_le (by rwa [size_closeScope])

/-- Only the scope right around the current one receives references. -/
theorem pendingOf_closeScope_of_kept (h : v.Sound t) (hc : v.current = some c) {s : ScopeId}
    (hs : s ∉ v.opened ∨ ∃ x ∈ v.opened, x ∈ (v.closeScope t c).opened ∧ s.index < x.index) :
    (v.closeScope t c).graph.pendingOf s = v.graph.pendingOf s := by
  have hsound := h.closeScope hc
  have hup : v.graph.upper? c ≠ some s ∧ s ≠ c := by
    rw [← current_closeScope (t := t)]
    rcases hs with hs | ⟨x, hx, hx', hsx⟩
    · rw [opened_eq_closeScope h hc, List.mem_cons, not_or] at hs
      exact ⟨fun hu => hs.2 (hsound.mem_opened hu), hs.1⟩
    · constructor
      · intro hu
        have hle := hsound.index_le_of_mem_opened hu hx'
        omega
      · rintro rfl
        have hle := h.index_le_of_mem_opened hc hx
        omega
  exact (ScopeGraph.pendingOf_closeScope hup.1).trans (if_neg hup.2)

/-- Closing the current scope makes the scope around it current. -/
theorem Moves.closeScope (h : v.Sound t) (hc : v.current = some c) :
    v.Moves t (v.closeScope t c) where
  sound := h
  sound' := h.closeScope hc
  context_eq := rfl
  size_le := Nat.le_of_eq (size_closeScope v c).symm
  frame_eq s _ := (ScopeGraph.SameTree.closeScope t v.graph c).map_frame s
  opened_subset s hs := by
    rw [opened_eq_closeScope h hc]
    exact .inl (List.mem_cons_of_mem _ hs)
  closed := ⟨[c], rfl, List.nodup_singleton c, mem_closed_closeScope_iff h hc⟩
  emptied _ hs hs' := pendingOf_closeScope_eq_nil h hc hs hs'
  kept _ _ hs := pendingOf_closeScope_of_kept h hc hs

omit [DecidableEq ν] in
theorem any_block_eq (g : ScopeGraph ν) (n : NodeId) (s : ScopeId) :
    (g.getScope? s).any (·.block = n) = decide (g.blockOf s = some n) := by
  rw [ScopeGraph.blockOf]
  cases g.getScope? s <;> simp

/-- All current scopes anchored at the node are closed, and no others. -/
theorem closeWithin_moves {fuel : Nat} (h : v.Sound t) (hfuel : v.opened.length ≤ fuel) :
    v.Moves t (closeWithin t n fuel v) ∧
      (closeWithin t n fuel v).opened = v.opened.dropWhile (v.graph.blockOf · = some n) ∧
      (closeWithin t n fuel v).cursor = v.cursor.leave t n := by
  induction fuel generalizing v with
  | zero =>
    have hnil : v.opened = [] := List.length_eq_zero_iff.1 (Nat.le_zero.1 hfuel)
    refine ⟨.refl h, ?_, ?_⟩
    · rw [closeWithin, hnil]
      rfl
    · simp only [closeWithin, cursor, Cursor.leave, hnil, Cursor.leaveAll]
  | succ fuel ih =>
    rw [closeWithin]
    cases hc : v.current with
    | none =>
      have hnil : v.opened = [] := by rw [opened, hc, Option.elim_none]
      refine ⟨.refl h, ?_, ?_⟩
      · rw [hnil, List.dropWhile_nil]
      · simp only [cursor, Cursor.leave, hnil, Cursor.leaveAll]
    | some c =>
      have hopened := opened_eq_closeScope h hc
      have hleave : v.cursor.leave t n =
          Cursor.leaveAll t n v.graph (c :: (v.closeScope t c).opened) := by
        rw [Cursor.leave, cursor, hopened]
      dsimp only
      rw [hleave, Cursor.leaveAll, any_block_eq, hopened, List.dropWhile_cons]
      by_cases hblock : v.graph.blockOf c = some n
      · have hmoves := Moves.closeScope h hc
        have hsame := (ScopeGraph.SameTree.closeScope t v.graph c).samePositions
        have hlength : (v.closeScope t c).opened.length ≤ fuel := by
          rw [hopened, List.length_cons] at hfuel
          omega
        obtain ⟨hrest, hrest_opened, hrest_cursor⟩ := ih hmoves.sound' hlength
        simp only [hblock, decide_true, if_true]
        refine ⟨hmoves.trans hrest, hrest_opened.trans ?_, hrest_cursor⟩
        simp only [closeScope, hsame.blockOf]
      · simp only [hblock, decide_false, Bool.false_eq_true, if_false]
        exact ⟨.refl h, hopened, by rw [cursor, hopened]⟩

omit [DecidableEq ν] in
theorem length_opened_le : v.opened.length ≤ v.graph.scopes.size := by
  cases hc : v.current with
  | none =>
    rw [opened, hc]
    exact Nat.zero_le _
  | some c =>
    rw [opened, hc]
    exact v.graph.length_chainWithin_le _ c

/-- Closing a node closes the scopes anchored at it, as far as they are innermost. -/
theorem Moves.close (h : v.Sound t) : v.Moves t (v.close t n) :=
  (closeWithin_moves h length_opened_le).1

theorem opened_close (h : v.Sound t) :
    (v.close t n).opened = v.opened.dropWhile (v.graph.blockOf · = some n) :=
  (closeWithin_moves h length_opened_le).2.1

theorem cursor_close (h : v.Sound t) : (v.close t n).cursor = v.cursor.leave t n :=
  (closeWithin_moves h length_opened_le).2.2

end Close

end Parts

end Visitor

end LexicalScope
