import LexicalScope.Proofs.Entered
import LexicalScope.Proofs.Occurrences
import LexicalScope.Proofs.Spelling

/-!
Where references stand. A reference is made where the walk comes to its identifier, and it belongs
to the scope that is innermost there. Linking it later changes neither, so the blocks around its
scope are those around its identifier.
-/
namespace LexicalScope

variable {ν : Type}

namespace ScopeGraph

/-- Every reference belongs to a scope and stems from a step with the same blocks around it. -/
def Stands (g : ScopeGraph ν) (trace : List (Located ν)) : Prop :=
  ∀ id r, g.getReference? id = some r → r.origin.index < g.scopes.size ∧
    ∃ o : Occurrence ν, ⟨g.blocksOf r.origin, .refer o⟩ ∈ trace ∧
      o.identifier = r.identifier ∧ o.name = r.name ∧ o.init = r.init

namespace Stands

variable {g g' : ScopeGraph ν} {trace trace' : List (Located ν)}

theorem mono (h : g.Stands trace) (hsub : trace ⊆ trace') : g.Stands trace' := by
  intro id r hr
  obtain ⟨horigin, o, hmem, hfields⟩ := h id r hr
  exact ⟨horigin, o, hsub hmem, hfields⟩

/-- A new scope has no references. -/
theorem openScope (h : g.Stands trace) (hg : g.Rooted) {u : ScopeId}
    (hu : u.index < g.scopes.size) (kind : ScopeKind) (block : NodeId) (strict : Bool) :
    (g.openScope kind block strict (some u)).Stands trace := by
  intro id r hr
  rw [getReference?_openScope] at hr
  obtain ⟨horigin, o, hmem, hfields⟩ := h id r hr
  have hblocks : (g.openScope kind block strict (some u)).blocksOf r.origin =
      g.blocksOf r.origin := by
    rw [blocksOf, hg.chain_openScope _ _ _ hu horigin,
      filterMap_blockOf_openScope kind block strict hg _ horigin]
  refine ⟨?_, o, hblocks ▸ hmem, hfields⟩
  rw [size_scopes_openScope]
  exact Nat.lt_succ_of_lt horigin

variable [DecidableEq ν]

/-- Neither links nor tables matter. -/
theorem frame (h : g.Stands trace) {touched : List ScopeId} (hframe : Frame touched g g') :
    g'.Stands trace := by
  intro id r' hr'
  obtain ⟨r, hr, heq⟩ := hframe.exists_getReference? hr'
  obtain ⟨horigin, o, hmem, hidentifier, hname, hinit⟩ := h id r hr
  have hscope : r.origin = r'.origin := (congrArg Reference.origin heq :)
  rw [hscope] at horigin hmem
  exact ⟨(hframe.positions.lt_size_iff _).2 horigin, o,
    by rwa [hframe.positions.blocksOf],
    hidentifier.trans (congrArg Reference.identifier heq :),
    hname.trans (congrArg Reference.name heq :), hinit.trans (congrArg Reference.init heq :)⟩

end Stands

variable [DecidableEq ν]

/-- The references of a walk stand where their steps do. -/
theorem walkInvariant_stands (t : Tree) :
    WalkInvariant t fun (trace : List (Located ν)) c => c.graph.Stands trace where
  enter {trace c blocks kind} h hc _ block strict := by
    rw [Cursor.enter, h.head?_opened]
    exact (hc.openScope h.walked.toRooted h.lt_size kind block strict).mono
      (List.subset_append_left ..)
  close h hc hs := hc.frame (h.frame_close hs)
  declare {trace c blocks} h hc place name d :=
    (hc.frame (h.walked.frame_of_revises (revises_declare _ _ name d))).mono
      (List.subset_append_left ..)
  refer {trace c blocks} h hc o := by
    have hsame := samePositions_addReference c.graph (c.reference o)
    intro id r hr
    rw [hsame.blocksOf, hsame.lt_size_iff]
    rw [getReference?_addReference] at hr
    split at hr
    · obtain rfl := Option.some.inj hr
      refine ⟨h.lt_size, o, List.mem_append_right _ ?_, rfl, rfl, rfl⟩
      show (⟨c.graph.blocksOf c.current, .refer o⟩ : Located ν) ∈ _
      rw [Walking.blocksOf_current h]
      exact List.mem_singleton_self _
    · exact hc.mono (List.subset_append_left ..) id r hr
  this {trace c blocks} _ hc :=
    (hc.frame (.modifyScope (by exact fun _ => rfl) (by exact fun _ => rfl)
      (by exact fun _ => rfl) _ : Frame [] _ _)).mono (List.subset_append_left ..)
  misplacedImport _ hc _ := hc.mono (List.subset_append_left ..)

end ScopeGraph

namespace Tree

variable {t : Tree} {o : LanguageOptions} {v : Visit}

/-- An identifier opens no scope. -/
theorem isStill_own_of_identifier {name : String}
    (hkind : t.kind? v.node = some (.identifier name)) :
    ∀ step ∈ (t.layout v.role v.node).own, step.IsStill := by
  have hvisited (c : Context) : ∀ step ∈ (t.visitedLayout c v.node (.identifier name)).own,
      step.IsStill := by
    intro step hstep
    rw [List.mem_singleton.1 hstep]
    trivial
  rw [layout_of_kind? hkind]
  cases v.role with
  | program | skipped | declarator => exact fun _ hstep => nomatch hstep
  | visited c | fieldValue c | functionBody c | loopHead c => exact hvisited c
  | updated writeExpr => exact t.isStill_updateAt v.node writeExpr
  | target c use root s => exact isStill_targetLayout use root s v.node _

/-- What a visited node refers to is the identifier that it is, inside of the scope that it may
open as the initializer of a field. -/
theorem refer_of_mem_marks (hv : v ∈ t.visits (t.rootVisit o)) {blocks : List NodeId}
    {occurrence : Occurrence String} (h : ⟨blocks, .refer occurrence⟩ ∈ t.marks v) :
    t.kind? v.node = some (.identifier occurrence.name) ∧ occurrence.identifier = v.node ∧
      blocks = t.outside v ∧ .refer occurrence ∈ (t.layout v.role v.node).own := by
  obtain ⟨kind, hkind⟩ := exists_kind?_of_mem_visits hv
  have hspells : t.Spells occurrence.identifier occurrence.name := spelled_of_mem_marks h
  have hmem : (occurrence.identifier, occurrence.access) ∈ t.occurrencesAt v :=
    List.mem_filterMap.2 ⟨_, h, rfl⟩
  rw [occurrencesAt_eq hkind] at hmem
  cases kind with
  | identifier name =>
    obtain ⟨access, -, heq⟩ := List.mem_map.1 hmem
    have hnode : occurrence.identifier = v.node := (Prod.mk.inj heq).1.symm
    rw [hnode, Spells, identifierName?, hkind] at hspells
    obtain rfl : name = occurrence.name := Option.some.inj hspells
    refine ⟨hkind, hnode, ?_⟩
    rcases List.mem_append.1 h with h | h
    · rw [layout_of_kind? hkind, first_layoutOfKind] at h
      split at h
      · cases List.mem_singleton.1 h
      · cases h
    · rw [Step.trace_of_isStill (isStill_own_of_identifier hkind)] at h
      obtain ⟨step, hstep, heq⟩ := List.mem_map.1 h
      obtain ⟨rfl, rfl⟩ := Located.mk.inj heq
      exact ⟨rfl, hstep⟩
  | _ => cases hmem

end Tree

/-- The reference stems from an occurrence at a visited node. -/
structure ScopeGraph.StemsFrom (g : ScopeGraph Name) (t : Tree) (names : NameTable)
    (r : Reference Name) (v : Visit) (occurrence : Occurrence String) : Prop where
  identifier : r.identifier = v.node
  kind : t.kind? v.node = some (.identifier occurrence.name)
  blocks : g.blocksOf r.origin = t.outside v
  step : .refer occurrence ∈ (t.layout v.role v.node).own
  known : occurrence.name ∈ names.texts
  name : names.handle occurrence.name = r.name
  init : occurrence.init = r.init

section Analyze

variable {names names' : NameTable} {t : Tree} {o : LanguageOptions} {envs : Environments}
  {g : ScopeGraph Name}

/-- Every reference stems from the visit of its identifier. -/
theorem exists_visit_of_reference (h : analyze names t o envs = (names', .ok g))
    {id : ReferenceId} {r : Reference Name} (hr : g.getReference? id = some r) :
    ∃ v ∈ t.visits (t.rootVisit o), ∃ occurrence, g.StemsFrom t names' r v occurrence := by
  obtain ⟨outline, source, houtline, hwalking, -, hsource, hg⟩ :=
    (ScopeGraph.walkInvariant_stands (ν := Name) t).of_analyze
      (fun _ _ _ hr => nomatch hr) h
  have hclosing := ScopeGraph.closing_finalize hwalking.walked hwalking.settled hwalking.lt_size
    ((GlobalSettings.ofFile o envs t.comments).mapNames names'.handle)
  rw [← hg] at hclosing
  obtain ⟨-, occurrence, hmem, hidentifier, hname, hinit⟩ := hsource.frame hclosing.frame id r hr
  obtain ⟨⟨blocks, step⟩, hlocated, heq⟩ := List.mem_map.1 hmem
  have hmarks := (perm_trace_outline houtline).mem_iff.1 hlocated
  obtain ⟨v, hv, hmark⟩ := List.mem_flatMap.1 hmarks
  cases step with
  | refer original =>
    simp only [Located.mapName, Step.mapName, Located.mk.injEq, Step.refer.injEq] at heq
    obtain ⟨rfl, rfl⟩ := heq
    obtain ⟨hkind, hnode, hblocks, hown⟩ := Tree.refer_of_mem_marks hv hmark
    exact ⟨v, hv, original, {
      identifier := hidentifier.symm.trans hnode
      kind := hkind
      blocks := hblocks
      step := hown
      known := mem_texts_of_analyze h houtline (Step.mem_trace_of_name? hlocated rfl)
      name := hname
      init := hinit }⟩
  | _ => simp [Located.mapName, Step.mapName] at heq

end Analyze

end LexicalScope
