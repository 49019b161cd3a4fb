import LexicalScope.Proofs.Bracketing
import LexicalScope.Scope.Globals

/-!
Closing the global scope. Entering implicit globals leaves all tables as they are, since implicit
globals stand in no table. A pending reference is then bound if its name is bound lexically, and
is left to the configured globals otherwise.
-/
namespace LexicalScope.ScopeGraph

variable {ν : Type} [DecidableEq ν]

/-- Implicit globals stand in no table. -/
def ImplicitApart (g : ScopeGraph ν) : Prop :=
  ∀ s name v, g.inTable? s name = some v → ∀ m, g.implicit.table.get? m ≠ some v

section Implicit

variable (g : ScopeGraph ν) (name : ν)

theorem getVariable?_bindImplicit (x : VariableId) :
    (g.bindImplicit name).1.getVariable? x =
      if x = g.nextVariable ∧ g.implicit.table.get? name = none then
        some { id := g.nextVariable, name, scope := .global }
      else g.getVariable? x := by
  unfold bindImplicit
  split
  · next h => simp [h]
  · next h =>
    obtain ⟨x⟩ := x
    simp [h, getVariable?, addVariable, nextVariable, Array.getElem?_push]

/-- Only the given name gets an implicit global. -/
theorem get?_bindImplicit (m : ν) :
    (g.bindImplicit name).1.implicit.table.get? m =
      if m = name then some (g.bindImplicit name).2 else g.implicit.table.get? m := by
  unfold bindImplicit
  split
  · next v h =>
    split
    · next hm => rw [hm, h]
    · rfl
  · exact OrderedMap.get?_insert ..

theorem bindImplicit_snd :
    (g.bindImplicit name).2 = (g.implicit.table.get? name).getD g.nextVariable := by
  unfold bindImplicit
  split <;> simp [*]

theorem getScope?_declareImplicit (d : Definition) (s : ScopeId) :
    (g.declareImplicit name d).getScope? s = g.getScope? s := by
  show (g.bindImplicit name).1.getScope? s = _
  unfold bindImplicit
  split <;> rfl

theorem getReference?_declareImplicit (d : Definition) (r : ReferenceId) :
    (g.declareImplicit name d).getReference? r = g.getReference? r := by
  show (g.bindImplicit name).1.getReference? r = _
  unfold bindImplicit
  split <;> rfl

theorem getVariable?_declareImplicit (d : Definition) (x : VariableId) :
    (g.declareImplicit name d).getVariable? x =
      if x = (g.bindImplicit name).2 then
        ((g.bindImplicit name).1.getVariable? x).map (·.define d)
      else (g.bindImplicit name).1.getVariable? x :=
  getVariable?_define ..

theorem implicit_declareImplicit (d : Definition) :
    (g.declareImplicit name d).implicit = (g.bindImplicit name).1.implicit := rfl

variable {g}

/-- No table leads to an implicit global. -/
theorem WellFormed.ne_bindImplicit (hg : g.WellFormed) (hapart : g.ImplicitApart) {s : ScopeId}
    {m : ν} {v : VariableId} (hv : g.inTable? s m = some v) : v ≠ (g.bindImplicit name).2 := by
  rw [bindImplicit_snd]
  cases hname : g.implicit.table.get? name with
  | none => exact WellFormed.Owns.ne_nextVariable (hg.inTable hv)
  | some v' =>
    rintro rfl
    exact hapart s m _ hv name hname

theorem inTable?_declareImplicit (d : Definition) (s : ScopeId) (m : ν) :
    (g.declareImplicit name d).inTable? s m = g.inTable? s m := by
  rw [inTable?, getScope?_declareImplicit, inTable?]

/-- Declaring an implicit global leaves all tables alone. -/
theorem frame_declareImplicit (hg : g.WellFormed) (hapart : g.ImplicitApart) (d : Definition) :
    Frame [] g (g.declareImplicit name d) where
  positions s := by rw [getScope?_declareImplicit]
  referencesOf_eq s := by rw [referencesOf, listOf, getScope?_declareImplicit, referencesOf, listOf]
  reference_eq r := by rw [getReference?_declareImplicit]
  tableOf_eq s _ := by rw [tableOf, getScope?_declareImplicit, tableOf]
  variable_eq s _ m v hv := by
    have hnew : ¬(v = g.nextVariable ∧ g.implicit.table.get? name = none) :=
      fun h => WellFormed.Owns.ne_nextVariable (hg.inTable hv) h.1
    rw [getVariable?_declareImplicit, if_neg (hg.ne_bindImplicit name hapart hv),
      getVariable?_bindImplicit, if_neg hnew]

theorem linksOf_bindImplicit (v : VariableId) :
    (g.bindImplicit name).1.linksOf v = g.linksOf v := by
  rw [linksOf, getVariable?_bindImplicit, linksOf]
  split
  · next h =>
    rw [h.1, getVariable?_nextVariable]
    rfl
  · rfl

theorem sameLinks_declareImplicit (d : Definition) : SameLinks g (g.declareImplicit name d) where
  resolvedOf r := by rw [resolvedOf, getReference?_declareImplicit, resolvedOf]
  linksOf v := by
    rw [linksOf, getVariable?_declareImplicit, ← linksOf_bindImplicit name, linksOf]
    split
    · cases (g.bindImplicit name).1.getVariable? v <;> rfl
    · rfl
  pendingOf s := by rw [pendingOf, listOf, getScope?_declareImplicit, pendingOf, listOf]
  throughOf s := by rw [throughOf, listOf, getScope?_declareImplicit, throughOf, listOf]

/-- One more implicit global stands in no table either. -/
theorem implicitApart_declareImplicit (hg : g.WellFormed) (hapart : g.ImplicitApart)
    (d : Definition) : (g.declareImplicit name d).ImplicitApart := by
  intro s m v hv x hx
  rw [inTable?_declareImplicit] at hv
  rw [implicit_declareImplicit, get?_bindImplicit] at hx
  split at hx
  · exact hg.ne_bindImplicit name hapart hv (Option.some.inj hx).symm
  · exact hapart s m v hv x hx

end Implicit

section DeclareSites

variable {g : ScopeGraph ν}

/-- Entering the global of a reference leaves tables and links alone. -/
theorem declareSite_spec (hg : g.WellFormed) (hapart : g.ImplicitApart) (s : ScopeId)
    (r : ReferenceId) : Frame [] g (declareSite s g r) ∧ SameLinks g (declareSite s g r) ∧
      (declareSite s g r).ImplicitApart := by
  have hsame : Frame [] g g ∧ SameLinks g g ∧ g.ImplicitApart :=
    ⟨.refl [] g, .refl g, hapart⟩
  unfold declareSite
  split
  · split
    · exact hsame
    · exact ⟨frame_declareImplicit _ hg hapart _, sameLinks_declareImplicit _ _,
        implicitApart_declareImplicit _ hg hapart _⟩
  · exact hsame

/-- Entering the globals of all references leaves tables and links alone as well. -/
theorem foldl_declareSite_spec (hg : g.WellFormed) (hapart : g.ImplicitApart) (s : ScopeId)
    (ids : List ReferenceId) : Frame [] g (ids.foldl (declareSite s) g) ∧
      SameLinks g (ids.foldl (declareSite s) g) := by
  induction ids generalizing g with
  | nil => exact ⟨.refl [] g, .refl g⟩
  | cons r ids ih =>
    obtain ⟨hframe, hlinks, hapart'⟩ := declareSite_spec hg hapart s r
    obtain ⟨hframe', hlinks'⟩ := ih (hg.links hframe) hapart'
    exact ⟨hframe.trans hframe', hlinks.trans hlinks'⟩

end DeclareSites

section SettleGlobal

variable {g : ScopeGraph ν} {t : Tree}

def nameOffer? (g : ScopeGraph ν) (r : ReferenceId) : Option VariableId :=
  (g.getReference? r).bind (g.globalVariable? ·.name)

/-- What the global scope has for a reference before the configured globals are known. -/
def lexicalOffer? (g : ScopeGraph ν) (r : ReferenceId) : Option VariableId :=
  if (g.getReference? r).any (g.isBoundLexically .global ·.name) then g.nameOffer? r else none

omit [DecidableEq ν] in
theorem upper?_global (hg : g.Rooted) : g.upper? .global = none := by
  cases hu : g.upper? .global with
  | none => rfl
  | some u => exact absurd (hg.upper_lt hu) (Nat.not_lt_zero _)

/-- No declaration of the global scope is hidden. -/
theorem resolution?_global (hg : g.WellFormed) (r : ReferenceId) :
    g.resolution? t .global r = g.nameOffer? r := by
  have hbody : g.functionBody? t .global = none := by
    cases hs : g.getScope? .global with
    | none => simp [functionBody?, hs]
    | some scope => rw [functionBody?_eq g t hs, (hg.kind_global hs).2 rfl, if_neg (by decide)]
  have hvisible (reference : Reference ν) (v : VariableId) :
      g.isVisible t .global reference v = true := by
    rw [isVisible, hbody]
  unfold resolution? nameOffer?
  cases g.getReference? r with
  | none => rfl
  | some reference =>
    show (g.globalVariable? reference.name).bind _ = g.globalVariable? reference.name
    cases g.globalVariable? reference.name with
    | none => rfl
    | some v => simp [hvisible]

/-- In the global scope nothing but the name counts. -/
theorem offer?_global (hg : g.WellFormed) (r : ReferenceId) :
    g.offer? t r .global = g.nameOffer? r := by
  have hwith : (g.getScope? .global).any (·.kind = .withBody) = false := by
    cases hs : g.getScope? .global with
    | none => rfl
    | some scope =>
      rw [Option.any_some, (hg.kind_global hs).2 rfl]
      rfl
  rw [offer?, hwith, if_neg Bool.false_ne_true, resolution?_global hg]

theorem Frame.nameOffer? {g' : ScopeGraph ν} (h : Frame [] g g') (r : ReferenceId) :
    g'.nameOffer? r = g.nameOffer? r := by
  have hname := congrArg (Option.bind · (g.globalVariable? ·.name)) (h.reference_eq r)
  simp only [Option.bind_map] at hname
  simp only [ScopeGraph.nameOffer?, globalVariable?, h.inTable?_eq .global List.not_mem_nil]
  exact hname

theorem Frame.lexicalOffer? {g' : ScopeGraph ν} (h : Frame [] g g') (r : ReferenceId) :
    g'.lexicalOffer? r = g.lexicalOffer? r := by
  have hname := congrArg (Option.any (g.isBoundLexically .global ·.name)) (h.reference_eq r)
  simp only [Option.any_map] at hname
  simp only [ScopeGraph.lexicalOffer?, h.isBoundLexically List.not_mem_nil, h.nameOffer?]
  exact congrArg (fun b : Bool => if b then _ else none) hname

/-- A reference that stays in the global scope. -/
theorem Settles.stay (hg : g.Rooted) (hs : (g.getScope? .global).isSome) {r : ReferenceId}
    {meets : ReferenceId → Option VariableId} (hmeets : meets r = none) :
    Settles g (g.modifyScope .global fun s => { s with through := s.through.push r }) .global [r]
      meets where
  frame := .modifyScope (by exact fun _ => rfl) (by exact fun _ => rfl) (by exact fun _ => rfl) _
  resolvedOf_eq x := by
    show g.resolvedOf x = _
    split
    · next hx => rw [List.mem_singleton.1 hx, hmeets, Option.none_or]
    · rfl
  linksOf_eq v := by
    show g.linksOf v = _
    simp [hmeets]
  pendingOf_eq x := by
    rw [pendingOf, listOf_modifyScope (by exact fun _ => rfl), upper?_global hg]
    simp [pendingOf]
  throughOf_eq x := by
    refine (listOf_push hs (by exact fun _ => rfl) x).trans ?_
    simp [hmeets, throughOf]

/-- The global scope binds a reference to a lexical variable and keeps it otherwise. -/
theorem settles_settleGlobal (hg : g.WellFormed) (hs : (g.getScope? .global).isSome)
    {r : ReferenceId} (hr : (g.getReference? r).isSome) :
    Settles g (settleGlobal t .global g r) .global [r] g.lexicalOffer? := by
  unfold settleGlobal
  split
  · next hbound =>
    apply (settles_settle hg hs hr).congr
    intro x hx
    rw [List.mem_singleton.1 hx, lexicalOffer?, if_pos hbound, resolution?_global hg]
  · next hbound => exact .stay hg.toRooted hs (by rw [lexicalOffer?, if_neg hbound])

theorem settles_foldl_settleGlobal (hg : g.WellFormed) (hs : (g.getScope? .global).isSome)
    {ids : List ReferenceId} (hids : ∀ r ∈ ids, (g.getReference? r).isSome) :
    Settles g (ids.foldl (settleGlobal t .global) g) .global ids g.lexicalOffer? := by
  apply Settles.foldl
  intro g' hframe r hr
  have hmeets : g.lexicalOffer? = g'.lexicalOffer? :=
    funext fun r => (hframe.lexicalOffer? r).symm
  rw [hmeets]
  refine settles_settleGlobal (hg.links hframe) ?_ ?_
  · rw [hframe.positions.isSome_getScope?]
    exact hs
  · rw [hframe.isSome_getReference?]
    exact hids r hr

end SettleGlobal

section CloseGlobal

variable {g : ScopeGraph ν} {t : Tree}

/-- Operations on the implicit globals alone. -/
theorem frame_implicit (g : ScopeGraph ν) (implicit : ImplicitGlobals ν) :
    Frame [] g { g with implicit } :=
  ⟨fun _ => rfl, fun _ => rfl, fun _ => rfl, fun _ _ => rfl, fun _ _ _ _ _ => rfl⟩

omit [DecidableEq ν] in
theorem sameLinks_implicit (g : ScopeGraph ν) (implicit : ImplicitGlobals ν) :
    SameLinks g { g with implicit } :=
  ⟨fun _ => rfl, fun _ => rfl, fun _ => rfl, fun _ => rfl⟩

theorem Walked.implicitApart (hg : g.Walked t) : g.ImplicitApart := by
  intro s name v _ m hm
  rw [hg.implicit] at hm
  cases hm

def entered (g : ScopeGraph ν) : ScopeGraph ν :=
  let declared := (g.pendingOf .global).foldl (declareSite .global) (g.emptied .global)
  { declared with implicit := { declared.implicit with left := (g.pendingOf .global).toArray } }

/-- The global scope first enters implicit globals and then settles what waits. -/
theorem closeScope_global (hg : g.WellFormed) (hs : ScopeId.global.index < g.scopes.size) :
    g.closeScope t .global = (g.pendingOf .global).foldl (settleGlobal t .global) g.entered := by
  obtain ⟨scope, hscope⟩ := getScope?_of_lt hs
  have hkind : scope.kind = .global := (hg.kind_global hscope).2 rfl
  have hpending : g.pendingOf .global = scope.pending.toList := by
    rw [pendingOf, listOf, hscope]
    rfl
  rw [closeScope, hscope, entered, hpending]
  simp only [hkind, closeGlobal, ← Array.foldl_toList, Array.toArray_toList]
  rfl

theorem entered_spec (hg : g.Walked t) :
    Frame [] g g.entered ∧ SameLinks (g.emptied .global) g.entered := by
  have hempty : Frame [] g (g.emptied .global) := frame_emptied
  have hapart : (g.emptied .global).ImplicitApart := by
    intro s name v hv
    rw [hempty.inTable?_eq s List.not_mem_nil] at hv
    exact hg.implicitApart s name v hv
  obtain ⟨hframe, hlinks⟩ := foldl_declareSite_spec (hg.toWellFormed.links hempty) hapart .global
    (g.pendingOf .global)
  exact ⟨hempty.trans (hframe.trans (frame_implicit _ _)), hlinks.trans (sameLinks_implicit _ _)⟩

/-- What the global scope binds and what it leaves to the configured globals. -/
theorem settles_closeGlobal (hg : g.Walked t) (h : Settled g t [.global])
    (hs : ScopeId.global.index < g.scopes.size) :
    Settles g.entered (g.closeScope t .global) .global (g.pendingOf .global)
      g.lexicalOffer? := by
  have hframe := (entered_spec hg).1
  have hmeets : g.lexicalOffer? = g.entered.lexicalOffer? :=
    funext fun r => (hframe.lexicalOffer? r).symm
  rw [closeScope_global hg.toWellFormed hs, hmeets]
  apply settles_foldl_settleGlobal (hg.toWellFormed.links hframe)
  · rw [hframe.positions.isSome_getScope?]
    exact isSome_getScope?_iff.2 hs
  · intro r hr
    rw [hframe.isSome_getReference?]
    exact h.isSome_getReference? hg.toWellFormed hs (List.mem_singleton.2 rfl) hr

end CloseGlobal

end LexicalScope.ScopeGraph
