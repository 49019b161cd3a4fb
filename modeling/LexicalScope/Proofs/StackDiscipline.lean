import LexicalScope.Proofs.VisitorProgram

/-!
Stack discipline. The open scopes of a visitor are those on the chain of its current scope, and a
visit gives them back: it may close scopes anchored at the visited node, as the value of a field
closes the scope of its initializer, but it leaves the rest of the chain as it is. Every scope that
it opens it closes again. The whole pass ends with nothing open.
-/
namespace LexicalScope.Visitor

variable {ν : Type} {t : Tree} {v v' : Visitor ν} {A : List Anchored} {c : ScopeId} {n : NodeId}

/-- The open scopes of a state that has a current one are all anchored somewhere. -/
theorem exists_holds (h : v.Sound t) (hc : v.current = some c) : ∃ A, v.Holds t A := by
  refine ⟨v.opened.map fun s => (s, (v.graph.blockOf s).getD t.root), h, ?_, ?_, ?_⟩
  · rw [List.map_map]
    exact (List.map_id _).symm
  · intro p hp
    obtain ⟨s, hs, rfl⟩ := List.mem_map.1 hp
    obtain ⟨scope, hscope⟩ := ScopeGraph.getScope?_of_lt (h.lt_of_mem_opened hs)
    show v.graph.blockOf s = some ((v.graph.blockOf s).getD t.root)
    rw [ScopeGraph.blockOf, hscope]
    rfl
  · intro hnil
    have hmem := h.mem_opened hc
    rw [List.map_eq_nil_iff.1 hnil] at hmem
    cases hmem

theorem Holds.chain_eq (h : v.Holds t A) (hc : v.current = some c) :
    v.graph.chain c = A.map Prod.fst := by
  rw [← h.opened_eq, opened, hc, Option.elim_some]

/-- What a visitor that has left `n` holds open: its own current scope and those above, which
were open before. -/
theorem Left.exists_current (h : Left t n v A v') (hv : v.Holds t A) (hc : v.current = some c) :
    ∃ c' below above, v'.current = some c' ∧ v.graph.chain c = below ++ c' :: above ∧
      v'.graph.chain c' = c' :: above ∧ ∀ s ∈ below, v.graph.blockOf s = some n := by
  obtain ⟨popped, rest, rfl, hpopped, -, hholds⟩ := h
  cases rest with
  | nil => exact absurd rfl hholds.ne_nil
  | cons p rest =>
    have hcurrent : v'.current = some p.1 := by
      rw [← hholds.sound.head?_opened, hholds.opened_eq, List.map_cons, List.head?_cons]
    refine ⟨p.1, popped.map Prod.fst, rest.map Prod.fst, hcurrent, ?_, ?_, ?_⟩
    · rw [hv.chain_eq hc, List.map_append, List.map_cons]
    · rw [hholds.chain_eq hcurrent, List.map_cons]
    · intro s hs
      obtain ⟨q, hq, rfl⟩ := List.mem_map.1 hs
      rw [hv.blockOf_eq q (List.mem_append_left _ hq), hpopped q hq]

namespace Moves

variable {below above : List ScopeId} (h : v.Moves t v')
include h

/-- Where scopes at the inner end are open no more, these and the new ones have been closed. -/
theorem exists_gone (hopened : v.opened = below ++ v'.opened) :
    ∃ gone, v'.closed = gone ++ v.closed ∧ gone.Nodup ∧
      (∀ s : ScopeId, s ∈ gone ↔ s ∈ below ∨
        v.graph.scopes.size ≤ s.index ∧ s.index < v'.graph.scopes.size) ∧
      ∀ s ∈ gone, v'.graph.pendingOf s = [] := by
  obtain ⟨gone, hclosed, hnodup, hgone⟩ := h.closed
  have hapart := (List.nodup_append.1 (hopened ▸ h.sound.nodup_opened)).2.2
  have hold (s : ScopeId) (hs : s ∈ v'.opened) : s.index < v.graph.scopes.size :=
    h.sound.lt_of_mem_opened (hopened ▸ List.mem_append_right _ hs)
  refine ⟨gone, hclosed, hnodup, fun s => ?_, fun s hs => ?_⟩
  · rw [hgone, hopened, List.mem_append]
    constructor
    · rintro ⟨(hs | hs) | hnew, hnot⟩
      · exact .inl hs
      · exact absurd hs hnot
      · exact .inr hnew
    · rintro (hs | hnew)
      · exact ⟨.inl (.inl hs), fun hs' => hapart s hs s hs' rfl⟩
      · exact ⟨.inr hnew, fun hs' => Nat.not_lt.2 hnew.1 (hold s hs')⟩
  · obtain ⟨hs, hnot⟩ := (hgone s).1 hs
    exact h.emptied s (hs.imp_right And.left) hnot

/-- Scopes above one that stays open get nothing to wait for. -/
theorem pendingOf_eq (hc : v'.current = some c) (hchain : v'.graph.chain c = c :: above)
    (hopened : ∀ s ∈ c :: above, s ∈ v.opened) :
    ∀ s ∈ above, v'.graph.pendingOf s = v.graph.pendingOf s := by
  intro s hs
  obtain ⟨hc', habove⟩ := List.forall_mem_cons.1 hopened
  have hlt := h.sound'.current_lt c hc
  have hle : s.index ≤ c.index :=
    h.sound'.rooted.index_le_of_mem_chain hlt (hchain ▸ List.mem_cons_of_mem _ hs)
  have hne : s.index ≠ c.index := by
    intro heq
    have hnodup := h.sound'.rooted.nodup_chain hlt
    rw [hchain, List.nodup_cons] at hnodup
    obtain rfl : s = c := congrArg ScopeId.mk heq
    exact hnodup.1 hs
  have hbelow : s.index < c.index := by omega
  exact h.kept s (h.sound.lt_of_mem_opened (habove s hs))
    (.inr ⟨c, hc', h.sound'.mem_opened hc, hbelow⟩)

end Moves

variable [DecidableEq ν]

/-- Closing a node leads to the first scope on the way up that is anchored elsewhere. -/
theorem current_close (h : v.Sound t) (n : NodeId) :
    (v.close t n).current = v.opened.find? (v.graph.blockOf · ≠ some n) := by
  rw [← (Moves.close h).sound'.head?_opened, opened_close h, ← List.find?_not_eq_head?_dropWhile]
  simp only [decide_not]

/-- What a visit to `n` in scope `c` gives back: `c'` is the current scope now, and of the chain of
`c` the scopes `below` it are closed and those `above` it open as before. Here `gone` are the scopes
closed during the visit. -/
structure Returns (t : Tree) (n : NodeId) (c : ScopeId) (v v' : Visitor ν) (c' : ScopeId)
    (below above gone : List ScopeId) : Prop where
  sound : v'.Sound t
  current_eq : v'.current = some c'
  chain_eq : v.graph.chain c = below ++ c' :: above
  chain_eq' : v'.graph.chain c' = c' :: above
  /-- Only scopes anchored at `n` are closed of those that were open. -/
  blockOf_below : ∀ s ∈ below, v.graph.blockOf s = some n
  stays : v.graph.blockOf c ≠ some n → c' = c
  closed_eq : v'.closed = gone ++ v.closed
  nodup_gone : gone.Nodup
  mem_gone_iff : ∀ s : ScopeId, s ∈ gone ↔ s ∈ below ∨
    v.graph.scopes.size ≤ s.index ∧ s.index < v'.graph.scopes.size
  pendingOf_gone : ∀ s ∈ gone, v'.graph.pendingOf s = []
  pendingOf_above : ∀ s ∈ above, v'.graph.pendingOf s = v.graph.pendingOf s
  /-- Closing `n` afterwards closes what is left of it. -/
  current_close : (v'.close t n).current =
    (v.graph.chain c).find? (v.graph.blockOf · ≠ some n)
  inMethod_eq : v'.inMethod = v.inMethod

/-- A visitor comes back to the scope it came from, or to one around it if that was anchored at the
node. -/
theorem Left.exists_returns (h : Left t n v A v') (hv : v.Holds t A) (hc : v.current = some c) :
    ∃ c' below above gone, Returns t n c v v' c' below above gone := by
  have hsound := hv.sound
  have hmoves : v.Moves t v' := by
    obtain ⟨-, -, -, -, hmoves, -⟩ := h
    exact hmoves
  obtain ⟨c', below, above, hc', hchain, hchain', hbelow⟩ := h.exists_current hv hc
  have hopened : v.opened = v.graph.chain c := by rw [opened, hc, Option.elim_some]
  have hopened' : v'.opened = c' :: above := by rw [← hchain', opened, hc', Option.elim_some]
  have hsplit : v.opened = below ++ v'.opened := by rw [hopened, hchain, hopened']
  have hmem (s : ScopeId) (hs : s ∈ c' :: above) : s ∈ v.opened := by
    rw [hsplit, hopened']
    exact List.mem_append_right _ hs
  obtain ⟨gone, hclosed, hnodup, hgone, hemptied⟩ := hmoves.exists_gone hsplit
  refine ⟨c', below, above, gone, {
    sound := hmoves.sound'
    current_eq := hc'
    chain_eq := hchain
    chain_eq' := hchain'
    blockOf_below := hbelow
    stays := ?_
    closed_eq := hclosed
    nodup_gone := hnodup
    mem_gone_iff := hgone
    pendingOf_gone := hemptied
    pendingOf_above := hmoves.pendingOf_eq hc' hchain' hmem
    current_close := ?_
    inMethod_eq := congrArg Context.inMethod hmoves.context_eq }⟩
  · intro hblock
    have hhead : (below ++ c' :: above).head? = some c := by
      rw [← hchain, ← hopened, hsound.head?_opened, hc]
    cases below with
    | nil => exact Option.some.inj hhead
    | cons s below =>
      obtain rfl : s = c := Option.some.inj hhead
      exact absurd (hbelow s (List.mem_cons_self ..)) hblock
  · have hnone : below.find? (v.graph.blockOf · ≠ some n) = none :=
      List.find?_eq_none.2 fun s hs => by simp [hbelow s hs]
    rw [Visitor.current_close hmoves.sound', ← hopened, hsplit, List.find?_append, hnone,
      Option.none_or, hopened']
    refine List.find?_congr fun s hs => ?_
    rw [hmoves.blockOf_eq (hsound.lt_of_mem_opened (hmem s hs))]

/-- The visitor keeps a stack discipline. A visit that succeeds, from a state in which no scope on
the chain of the current one is anchored further down than at the node, gives the scopes back, and
a pass that succeeds ends with none open. Such a pass is what analysis is. -/
theorem visit_keeps_stack (t : Tree) (handle : String → ν) :
    (∀ (n : NodeId) (v v' : Visitor ν) (c : ScopeId), v.Sound t → v.current = some c →
      (∀ s ∈ v.graph.chain c, ∀ b, v.graph.blockOf s = some b → t.Below b n → b = n) →
      visit t handle n v = .ok v' →
      ∃ c' below above gone, Returns t n c v v' c' below above gone) ∧
    (∀ (o : LanguageOptions) (v : Visitor ν), visitProgram t handle o = .ok v → v.Ended) ∧
    ∀ (names names' : NameTable) (o : LanguageOptions) (envs : Environments)
      (result : Except ScopeError (ScopeGraph Name)), analyze names t o envs = (names', result) →
      result = (visitProgram t names'.handle o).map fun v =>
        v.graph.finalize ((GlobalSettings.ofFile o envs t.comments).mapNames names'.handle) := by
  refine ⟨fun n v v' c hsound hc hclear hvisit => ?_, fun o v => ended_visitProgram,
    fun names names' o envs result => eq_visitProgram_of_analyze⟩
  obtain ⟨A, hv⟩ := exists_holds hsound hc
  have hA : Clear t n A := by
    intro p hp hbelow
    refine hclear p.1 ?_ p.2 (hv.blockOf_eq p hp) hbelow
    rw [hv.chain_eq hc]
    exact List.mem_map_of_mem hp
  have hagrees : Agrees t handle v (t.steps v.context n) (Left t n v A) (visit t handle n v) :=
    agrees_visit hv hA
  rw [hvisit] at hagrees
  exact hagrees.2.2.exists_returns hv hc

theorem exists_tree (b : Build NodeId) (p : Tree → Prop) [DecidablePred p]
    (h : ((Build.tree b).toOption.any fun t => decide (p t)) = true) :
    ∃ t, Build.tree b = .ok t ∧ p t := by
  cases ht : Build.tree b with
  | error e =>
    rw [ht] at h
    cases h
  | ok t =>
    rw [ht] at h
    exact ⟨t, rfl, of_decide_eq_true h⟩

/-- `class C { x = () => null }` -/
def arrowInField : Build NodeId := do
  let value ← .arrow [] (← .null)
  let field ← .propertyDefinition "x" (some value) false
  let c ← .classDeclaration (some "C") none [field]
  .alloc (.program [c] .script)

/-- The arrow function closes the scope of the initializer that it finds open. -/
theorem returns_arrowInField : ∃ t v v' gone, Build.tree arrowInField = .ok t ∧
    v.current = some ⟨1⟩ ∧ visit t id ⟨1⟩ v = .ok v' ∧
    Returns t ⟨1⟩ ⟨1⟩ v v' .global [⟨1⟩] [] gone := by
  let inField (t : Tree) : Visitor String :=
    nest .fieldInitializer ⟨1⟩ false (nest .global t.root false {})
  obtain ⟨t, ht, hroot, hsize, hvisit⟩ := exists_tree arrowInField
    (fun t => t.isProgram t.root ∧ 1 < t.root.index ∧
      ((visit t id ⟨1⟩ (inField t)).toOption.any (·.current = some .global)) = true)
    (by decide +kernel)
  have hglobal : Begun t id _ (nest .global t.root false {}) _ := .root hroot false false
  have hholds := hglobal.holds.nest .fieldInitializer ⟨1⟩ false
  have hcurrent : (inField t).current = some ⟨1⟩ := rfl
  have hchain : (inField t).graph.chain ⟨1⟩ = [⟨1⟩, .global] := hholds.chain_eq hcurrent
  have hclear : ∀ s ∈ (inField t).graph.chain ⟨1⟩, ∀ b, (inField t).graph.blockOf s = some b →
      t.Below b ⟨1⟩ → b = ⟨1⟩ := by
    rw [hholds.chain_eq hcurrent, List.forall_mem_map]
    intro p hp b hb hbelow
    rw [hholds.blockOf_eq p hp, Option.some.injEq] at hb
    have hle := Tree.index_le_of_below hbelow
    rw [← hb] at hle ⊢
    rcases List.mem_cons.1 hp with rfl | hp
    · rfl
    · rw [List.mem_singleton.1 hp] at hle
      exact absurd hle (Nat.not_le.2 hsize)
  cases hend : visit t id ⟨1⟩ (inField t) with
  | error e =>
    rw [hend] at hvisit
    cases hvisit
  | ok v' =>
    rw [hend] at hvisit
    have hcurrent' : v'.current = some .global := of_decide_eq_true hvisit
    obtain ⟨c', below, above, gone, hreturns⟩ :=
      (visit_keeps_stack t id).1 ⟨1⟩ (inField t) v' ⟨1⟩ hholds.sound hcurrent hclear hend
    obtain rfl : c' = .global := Option.some.inj (hreturns.current_eq.symm.trans hcurrent')
    have hsplit := hreturns.chain_eq
    rw [hchain] at hsplit
    obtain ⟨rfl, rfl⟩ : below = [⟨1⟩] ∧ above = [] := by
      cases below with
      | nil => cases hsplit
      | cons s below =>
        obtain ⟨rfl, hrest⟩ := List.cons.inj hsplit
        cases below with
        | nil => exact ⟨rfl, (List.cons.inj hrest).2.symm⟩
        | cons s below =>
          have hlength := congrArg List.length hrest
          simp at hlength
    exact ⟨t, inField t, v', gone, ht, hcurrent, hend, hreturns⟩

end LexicalScope.Visitor
