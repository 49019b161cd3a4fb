import LexicalScope.Proofs.Composition
import LexicalScope.Proofs.VisitorMoves

/-!
Stages of a visit, each beside the steps of the outline that it takes. A stage inside a node finds
some open scopes and leaves them as they are. The stages at a node may open scopes anchored there,
and they close these again, together with scopes anchored at the node that were open before.
-/
namespace LexicalScope.Visitor

open Stage

variable {ν : Type} {t : Tree}

abbrev Anchored := ScopeId × NodeId

/-- The open scopes of a state with their nodes, innermost first. There is at least one. -/
structure Holds (t : Tree) (v : Visitor ν) (A : List Anchored) : Prop where
  sound : v.Sound t
  opened_eq : v.opened = A.map Prod.fst
  blockOf_eq : ∀ p ∈ A, v.graph.blockOf p.1 = some p.2
  ne_nil : A ≠ []

/-- No open scope is anchored further down than at `n`. -/
def Clear (t : Tree) (n : NodeId) (A : List Anchored) : Prop :=
  ∀ p ∈ A, t.Below p.2 n → p.2 = n

variable {v v' v₀ : Visitor ν} {A : List Anchored} {n m : NodeId}

namespace Holds

theorem exists_current (h : v.Holds t A) : ∃ c, v.current = some c ∧ c ∈ v.opened := by
  cases hc : v.current with
  | none =>
    have hnil : A.map Prod.fst = [] := by rw [← h.opened_eq, opened, hc, Option.elim_none]
    exact absurd (List.map_eq_nil_iff.1 hnil) h.ne_nil
  | some c => exact ⟨c, rfl, h.sound.mem_opened hc⟩

theorem current_eq (h : v.Holds t A) (h' : v'.Holds t A) : v'.current = v.current := by
  rw [← h.sound.head?_opened, ← h'.sound.head?_opened, h.opened_eq, h'.opened_eq]

theorem lt_of_mem (h : v.Holds t A) {p : Anchored} (hp : p ∈ A) :
    p.1.index < v.graph.scopes.size :=
  h.sound.lt_of_mem_opened (h.opened_eq ▸ List.mem_map_of_mem hp)

/-- What comes later with the same scopes open has them at the same nodes. -/
theorem of_moves (h : v.Holds t A) (hmoves : v.Moves t v') (hopened : v'.opened = v.opened) :
    v'.Holds t A where
  sound := hmoves.sound'
  opened_eq := hopened.trans h.opened_eq
  blockOf_eq p hp := (hmoves.blockOf_eq (h.lt_of_mem hp)).trans (h.blockOf_eq p hp)
  ne_nil := h.ne_nil

theorem nest (h : v.Holds t A) (kind : ScopeKind) (n : NodeId) (strict : Bool) :
    (v.nest kind n strict).Holds t ((v.graph.nextScope, n) :: A) := by
  obtain ⟨c, hc, -⟩ := h.exists_current
  have hmoves := Moves.nest kind n strict h.sound hc
  exact {
    sound := hmoves.sound'
    opened_eq := by rw [opened_nest kind n strict h.sound hc, h.opened_eq, List.map_cons]
    blockOf_eq := List.forall_mem_cons.2 ⟨blockOf_nest kind n strict, fun p hp =>
      (hmoves.blockOf_eq (h.lt_of_mem hp)).trans (h.blockOf_eq p hp)⟩
    ne_nil := List.cons_ne_nil _ _ }

theorem cursor_nest (h : v.Holds t A) (kind : ScopeKind) (n : NodeId) (strict : Bool) :
    (v.nest kind n strict).cursor = v.cursor.enter kind n strict := by
  obtain ⟨c, hc, -⟩ := h.exists_current
  rw [cursor, opened_nest kind n strict h.sound hc, Cursor.enter, cursor, h.sound.head?_opened]
  rfl

/-- The global scope stays open whatever is closed below the program. -/
theorem dropWhile_ne_nil (h : v.Holds t A) (hn : t.isProgram n = false) :
    A.dropWhile (·.2 = n) ≠ [] := by
  obtain ⟨c, hc, -⟩ := h.exists_current
  obtain ⟨b, hb, hprogram⟩ := h.sound.program
  have hglobal := h.sound.global_mem_opened hc
  rw [h.opened_eq, List.mem_map] at hglobal
  obtain ⟨p, hp, hp1⟩ := hglobal
  have hblock := h.blockOf_eq p hp
  rw [hp1, hb, Option.some.injEq] at hblock
  intro hnil
  have hpn := List.dropWhile_eq_nil_iff.1 hnil p hp
  rw [decide_eq_true_eq] at hpn
  rw [hblock, hpn, hn] at hprogram
  cases hprogram

end Holds

/-- A visitor that has come from `v₀` and holds these scopes open. -/
def Stands (t : Tree) (v₀ : Visitor ν) (A : List Anchored) (v : Visitor ν) : Prop :=
  v₀.Moves t v ∧ v.Holds t A

/-- A visitor that has come from `v₀` and has opened scopes anchored at `n`. -/
def Ahead (t : Tree) (n : NodeId) (v₀ : Visitor ν) (A : List Anchored) (v : Visitor ν) : Prop :=
  ∃ fresh : List ScopeId, Stands t v₀ (fresh.map (·, n) ++ A) v

/-- A visitor that has left `n`: open scopes anchored there may have been closed, other scopes
are open as before. -/
def Left (t : Tree) (n : NodeId) (v₀ : Visitor ν) (A : List Anchored) (v : Visitor ν) : Prop :=
  ∃ popped rest, A = popped ++ rest ∧ (∀ p ∈ popped, p.2 = n) ∧ Stands t v₀ rest v

theorem Holds.stands (h : v.Holds t A) : Stands t v A v :=
  ⟨.refl h.sound, h⟩

theorem Stands.ahead (h : Stands t v₀ A v) : Ahead t n v₀ A v :=
  ⟨[], h⟩

theorem Stands.left (h : Stands t v₀ A v) : Left t n v₀ A v :=
  ⟨[], A, rfl, List.forall_mem_nil _, h⟩

theorem Stands.trans {w : Visitor ν} (h : Stands t v₀ A v) {B : List Anchored}
    (h' : Stands t v B w) : Stands t v₀ B w :=
  ⟨h.1.trans h'.1, h'.2⟩

theorem Clear.append (h : Clear t n A) (fresh : List ScopeId) :
    Clear t n (fresh.map (·, n) ++ A) := by
  intro p hp hbelow
  rcases List.mem_append.1 hp with hp | hp
  · obtain ⟨s, -, rfl⟩ := List.mem_map.1 hp
    rfl
  · exact h p hp hbelow

/-- Nothing is anchored at or below a node that `n` reaches. -/
theorem Clear.not_below (h : Clear t n A) (hm : t.Reaches n m) : ∀ p ∈ A, ¬t.Below p.2 m := by
  intro p hp hbelow
  have heq := h p hp (hbelow.trans hm.below)
  have hle := Tree.index_le_of_below hbelow
  have hlt := hm.index_lt
  rw [heq] at hle
  omega

/-- What is closed at a node around which nothing is anchored there has been opened there. -/
theorem ahead_of_left {fresh : List ScopeId} (hapart : ∀ p ∈ A, p.2 ≠ m)
    (h : Left t m v (fresh.map (·, m) ++ A) v') : Ahead t m v A v' := by
  obtain ⟨popped, rest, heq, hpopped, hstands⟩ := h
  rcases List.append_eq_append_iff.1 heq with ⟨extra, rfl, hA⟩ | ⟨kept, hfresh, rfl⟩
  · cases extra with
    | nil => exact ⟨[], hA ▸ hstands⟩
    | cons p extra =>
      have hp : p.2 = m := hpopped p (List.mem_append_right _ (List.mem_cons_self ..))
      exact absurd hp (hapart p (hA ▸ List.mem_cons_self ..))
  · obtain ⟨-, open', -, -, rfl⟩ := List.map_eq_append_iff.1 hfresh
    exact ⟨open', hstands⟩

def place (v : Visitor ν) : Place → ScopeId
  | .current => v.scope
  | .variableScope => v.graph.variableScope v.scope

theorem Holds.cursor_current (h : v.Holds t A) : v.cursor.current = v.scope := by
  rw [Cursor.current, cursor, h.sound.head?_opened, scope]

theorem Holds.cursor_place (h : v.Holds t A) (p : Place) : v.cursor.place p = v.place p := by
  cases p with
  | current => exact h.cursor_current
  | variableScope => rw [Cursor.place, h.cursor_current]; rfl

theorem Stands.scope_eq (h : Stands t v₀ A v) (h₀ : v₀.Holds t A) : v.scope = v₀.scope := by
  rw [scope, h₀.current_eq h.2, scope]

theorem Holds.scope_lt (h : v.Holds t A) : v.scope.index < v.graph.scopes.size := by
  obtain ⟨c, hc, -⟩ := h.exists_current
  rw [scope, hc]
  exact h.sound.current_lt c hc

theorem Holds.ne_scope (h : v.Holds t A) {s : ScopeId} (hs : some s ≠ v.current) :
    s ≠ v.scope := by
  obtain ⟨c, hc, -⟩ := h.exists_current
  rw [hc] at hs
  rw [scope, hc]
  exact fun heq => hs (congrArg some heq)

/-- What goes to a certain place goes to the same scope until scopes open or close. -/
theorem Stands.place_eq (h : Stands t v₀ A v) (h₀ : v₀.Holds t A) (p : Place) :
    v.place p = v₀.place p := by
  cases p with
  | current => exact h.scope_eq h₀
  | variableScope =>
    rw [place, h.scope_eq h₀, h.1.variableScope_eq h₀.scope_lt]
    rfl

theorem Stands.isStrict_eq (h : Stands t v₀ A v) (h₀ : v₀.Holds t A) :
    v.isStrict = v₀.isStrict := by
  rw [isStrict, h.scope_eq h₀, h.1.isStrict_eq h₀.scope_lt, isStrict]

theorem site_none (v : Visitor ν) (_ : Stands t v₀ A v) :
    (none : Option NodeId) = if v.isStrict then none else none := by
  rw [ite_self]

variable [DecidableEq ν]

namespace Holds

/-- Leaving a node leaves the innermost scopes anchored there. -/
theorem opened_close (h : v.Holds t A) (n : NodeId) :
    (v.close t n).opened = (A.dropWhile (·.2 = n)).map Prod.fst := by
  have hblocks := h.blockOf_eq
  rw [Visitor.opened_close h.sound, h.opened_eq]
  clear h
  induction A with
  | nil => rfl
  | cons p A ih =>
    obtain ⟨hp, hA⟩ := List.forall_mem_cons.1 hblocks
    simp only [List.map_cons, List.dropWhile_cons, hp, Option.some.injEq, ih hA]
    split <;> rfl

theorem close (h : v.Holds t A) (hne : A.dropWhile (·.2 = n) ≠ []) :
    (v.close t n).Holds t (A.dropWhile (·.2 = n)) where
  sound := (Moves.close h.sound).sound'
  opened_eq := h.opened_close n
  blockOf_eq p hp := by
    have hmem := (List.dropWhile_suffix _).subset hp
    exact ((Moves.close h.sound).blockOf_eq (h.lt_of_mem hmem)).trans (h.blockOf_eq p hmem)
  ne_nil := hne

end Holds

section Rules

variable {handle : String → ν}

/-- A visitor ends as the outline has it: where the steps lead, or at the first misplaced import
among them. -/
def Agrees (t : Tree) (handle : String → ν) (v : Visitor ν) (steps : Outline)
    (Q : Visitor ν → Prop) : Except ScopeError (Visitor ν) → Prop
  | .ok v' => steps.findSome? Step.misplacedImport? = none ∧
      v'.cursor = v.cursor.run t (steps.map (.mapName handle)) ∧ Q v'
  | .error e => ∃ d, steps.findSome? Step.misplacedImport? = some d ∧ e = .importOutsideModule d

/-- From a state with `P` a stage takes the given steps, to a state with `Q`. -/
def Takes (t : Tree) (handle : String → ν) (P : Visitor ν → Prop) (stage : Stage ν)
    (steps : Outline) (Q : Visitor ν → Prop) : Prop :=
  ∀ v, P v → Agrees t handle v steps Q (stage v)

variable {P Q R : Visitor ν → Prop} {a b : Stage ν} {steps steps' : Outline} {v : Visitor ν}

theorem Agrees.mono {x : Except ScopeError (Visitor ν)} (h : Agrees t handle v steps Q x)
    (hQ : ∀ v', Q v' → R v') : Agrees t handle v steps R x := by
  cases x with
  | ok v' => exact ⟨h.1, h.2.1, hQ v' h.2.2⟩
  | error e => exact h

/-- Stages that agree with an outline may follow each other. -/
theorem Agrees.bind {x : Except ScopeError (Visitor ν)} (h : Agrees t handle v steps Q x)
    (h' : Takes t handle Q b steps' R) : Agrees t handle v (steps ++ steps') R (x >>= b) := by
  cases x with
  | error e =>
    obtain ⟨d, hd, he⟩ := h
    exact ⟨d, by rw [List.findSome?_append, hd, Option.some_or], he⟩
  | ok v' =>
    obtain ⟨hnone, hcursor, hQ⟩ := h
    have hrest := h' v' hQ
    have hfind : (steps ++ steps').findSome? Step.misplacedImport? =
        steps'.findSome? Step.misplacedImport? := by
      rw [List.findSome?_append, hnone, Option.none_or]
    show Agrees t handle v (steps ++ steps') R (b v')
    cases hb : b v' with
    | error e =>
      rw [hb] at hrest
      obtain ⟨d, hd, he⟩ := hrest
      exact ⟨d, hfind.trans hd, he⟩
    | ok v'' =>
      rw [hb] at hrest
      obtain ⟨hnone', hcursor', hR⟩ := hrest
      refine ⟨hfind.trans hnone', ?_, hR⟩
      rw [hcursor', hcursor, Cursor.run, Cursor.run, Cursor.run, List.map_append,
        List.foldl_append]

namespace Takes

theorem seq (h : Takes t handle P a steps Q) (h' : Takes t handle Q b steps' R) :
    Takes t handle P (a >=> b) (steps ++ steps') R :=
  fun v hv => (h v hv).bind h'

theorem of_eq (h : Takes t handle P a steps Q) (heq : steps = steps') :
    Takes t handle P a steps' Q :=
  heq ▸ h

theorem mono (h : Takes t handle P a steps Q) (hQ : ∀ v, Q v → R v) :
    Takes t handle P a steps R :=
  fun v hv => (h v hv).mono hQ

theorem skip : Takes t handle P skip [] P :=
  fun _ hv => ⟨rfl, rfl, hv⟩

/-- A stage for each element takes the steps of each element. -/
theorem each {α : Type} {l : List α} {f : α → Stage ν} {s : α → Outline}
    (h : ∀ x ∈ l, Takes t handle P (f x) (s x) P) :
    Takes t handle P (each l f) (l.flatMap s) P := by
  induction l with
  | nil => exact skip
  | cons x l ih =>
    have hhead := h x (List.mem_cons_self ..)
    have htail := ih fun y hy => h y (List.mem_cons_of_mem _ hy)
    intro v hv
    rw [Stage.each, List.foldlM_cons, List.flatMap_cons]
    exact (hhead v hv).bind htail

/-- One step for each element. -/
theorem eachStep {α : Type} {l : List α} {f : α → Stage ν} {s : α → Step String}
    (h : ∀ x ∈ l, Takes t handle P (f x) [s x] P) : Takes t handle P (Stage.each l f) (l.map s) P :=
  (each h).of_eq List.map_eq_flatMap.symm

theorem lift {f : Visitor ν → Visitor ν} {step : Step String}
    (hstep : step.misplacedImport? = none)
    (hf : ∀ v, P v → Q (f v) ∧ (f v).cursor = v.cursor.step t (step.mapName handle)) :
    Takes t handle P (lift f) [step] Q := by
  intro v hv
  obtain ⟨hQ, hcursor⟩ := hf v hv
  refine ⟨?_, hcursor, hQ⟩
  rw [List.findSome?_cons, hstep, List.findSome?_nil]

end Takes

end Rules

section Atoms

variable {handle : String → ν}

def Inside (t : Tree) (handle : String → ν) (v₀ : Visitor ν) (A : List Anchored)
    (stage : Stage ν) (steps : Outline) : Prop :=
  Takes t handle (Stands t v₀ A) stage steps (Stands t v₀ A)

theorem Inside.seq {a b : Stage ν} {steps steps' : Outline}
    (h : Inside t handle v₀ A a steps) (h' : Inside t handle v₀ A b steps') :
    Inside t handle v₀ A (a >=> b) (steps ++ steps') :=
  Takes.seq h h'

/-- A stage may look at the state in which it begins. -/
theorem Inside.of_here {stage : Stage ν} {steps : Outline}
    (h : ∀ v, Stands t v₀ A v → Agrees t handle v steps (Stands t v A) (stage v)) :
    Inside t handle v₀ A stage steps :=
  fun v hv => (h v hv).mono fun _ => hv.trans

theorem Inside.ite {p : Prop} [Decidable p] {a b : Stage ν} {steps steps' : Outline}
    (h : p → Inside t handle v₀ A a steps) (h' : ¬p → Inside t handle v₀ A b steps') :
    Inside t handle v₀ A (if p then a else b) (if p then steps else steps') := by
  split
  · next hp => exact h hp
  · next hp => exact h' hp

/-- A step that moves no scope and lets references wait in the current one only. -/
theorem inside_lift {f : Visitor ν → Visitor ν} {step : Step String}
    (hstep : step.misplacedImport? = none)
    (hf : ∀ v, Stands t v₀ A v → ∃ g, f v = { v with graph := g } ∧ v.graph.SameTree g ∧
      (∀ s, some s ≠ v.current → g.pendingOf s = v.graph.pendingOf s) ∧
      v.cursor.step t (step.mapName handle) = ⟨g, v.opened⟩) :
    Inside t handle v₀ A (lift f) [step] := by
  refine Takes.lift hstep fun v hv => ?_
  obtain ⟨g, hg, hsame, hpending, hcursor⟩ := hf v hv
  have hmoves := Moves.of_sameTree hv.2.sound hsame hpending
  have hopened := opened_of_samePositions hsame.samePositions
  rw [hg]
  exact ⟨⟨hv.1.trans hmoves, hv.2.of_moves hmoves hopened⟩, by rw [hcursor, cursor, hopened]⟩

theorem inside_declareName {p : Place} {s : Visitor ν → ScopeId}
    (hs : ∀ v, Stands t v₀ A v → s v = v.place p) (name : String) (d : Option Definition) :
    Inside t handle v₀ A (lift fun v => v.declareName handle (s v) name d)
      [.declare p name d] := by
  refine inside_lift rfl fun v hv => ⟨_, rfl, .declare _ _ _ _, fun x _ => ?_, ?_⟩
  · exact (ScopeGraph.revises_declare ..).listOf_eq (by exact fun _ _ => rfl) x
  · rw [hs v hv, ← hv.2.cursor_place]
    rfl

theorem inside_declare {p : Place} {s : Visitor ν → ScopeId}
    (hs : ∀ v, Stands t v₀ A v → s v = v.place p) (id : NodeId) (d : Definition) :
    Inside t handle v₀ A (lift fun v => v.declare t handle (s v) id d) (t.declareAt p id d) := by
  unfold declare Tree.declareAt
  cases t.identifierName? id with
  | none => exact Takes.skip
  | some name => exact inside_declareName hs name (some d)

/-- An occurrence comes with its assignment unless it stands in strict code. -/
theorem inside_refer {o : Occurrence String} {assignment : Option NodeId}
    (ho : ∀ v, Stands t v₀ A v → o.assignment = if v.isStrict then none else assignment) :
    Inside t handle v₀ A (lift (refer handle o)) [.refer { o with assignment }] := by
  refine inside_lift rfl fun v hv => ⟨_, rfl, .addReference _ _, fun s hs => ?_, ?_⟩
  · rw [ScopeGraph.pendingOf_addReference hv.2.scope_lt, if_neg (hv.2.ne_scope hs),
      List.append_nil]
  · have hcurrent := hv.2.cursor_current
    have hassignment := ho v hv
    by_cases hstrict : v.isStrict
    · have hcursor : v.cursor.graph.isStrict v.scope := hstrict
      rw [if_pos hstrict] at hassignment
      simp only [Cursor.step, Step.mapName, Cursor.reference, hcurrent, if_pos hcursor, hassignment]
      rfl
    · have hcursor : ¬v.cursor.graph.isStrict v.scope := hstrict
      rw [if_neg hstrict] at hassignment
      simp only [Cursor.step, Step.mapName, Cursor.reference, hcurrent, if_neg hcursor, hassignment]
      rfl

/-- Outside of assignments strictness does not matter. -/
theorem inside_referPlain {o : Occurrence String} (ho : o.assignment = none) :
    Inside t handle v₀ A (lift (refer handle o)) [.refer o] := by
  have hrefer : Inside t handle v₀ A (lift (refer handle o)) [.refer { o with assignment := none }] :=
    inside_refer fun v _ => by rw [ho, ite_self]
  cases o
  subst ho
  exact hrefer

theorem inside_update (n : NodeId) (writeExpr : Option NodeId) :
    Inside t handle v₀ A (lift (update t handle n writeExpr)) (t.updateAt n writeExpr) := by
  unfold update Tree.updateAt
  cases t.identifierName? n with
  | none => exact Takes.skip
  | some name => exact inside_referPlain rfl

theorem inside_markThis : Inside t handle v₀ A (lift markThis) [.this] := by
  refine inside_lift rfl fun v hv => ⟨_, rfl, .modifyScope (by exact fun _ => rfl) _,
    fun s _ => ScopeGraph.listOf_modifyScope (by exact fun _ => rfl) _ s, ?_⟩
  have hcurrent := hv.2.cursor_current
  simp only [Cursor.step, Step.mapName, hcurrent]
  rfl

section Target

variable (x : PatternTarget) {assignment site : Option NodeId}
  (hsite : ∀ v, Stands t v₀ A v → site = if v.isStrict then none else assignment)
include hsite

theorem inside_write (expr : NodeId) (whole init : Bool) :
    Inside t handle v₀ A (write handle x expr whole init site)
      [x.write expr whole init assignment] :=
  inside_refer hsite

theorem inside_writeDefaults (init : Bool) :
    Inside t handle v₀ A (writeDefaults handle x init site) (x.defaultWrites init assignment) :=
  .eachStep fun _ _ => inside_write x hsite _ _ _

end Target

theorem inside_declareTarget {p : Place} {s : Visitor ν → ScopeId}
    (hs : ∀ v, Stands t v₀ A v → s v = v.place p) (x : PatternTarget) (d : Definition) :
    Inside t handle v₀ A (fun v => declareTarget handle x (s v) d v) (x.declare p d) :=
  Inside.seq (inside_declareName hs x.name (some d)) (inside_writeDefaults x site_none true)

section Bracket

variable {stage : Stage ν} {steps : Outline}

theorem ahead_nest {kind : ScopeKind} {strict : Visitor ν → Bool} {strict' : Bool}
    (hstrict : ∀ v, Ahead t n v₀ A v → strict v = strict') :
    Takes t handle (Ahead t n v₀ A) (lift fun v => v.nest kind n (strict v))
      [.enter kind n strict'] (Ahead t n v₀ A) := by
  refine Takes.lift rfl fun v hv => ?_
  have hstrict := hstrict v hv
  obtain ⟨fresh, hmoves, hholds⟩ := hv
  obtain ⟨c, hc, -⟩ := hholds.exists_current
  have hnest := hholds.nest kind n (strict v)
  refine ⟨⟨v.graph.nextScope :: fresh, hmoves.trans (.nest kind n _ hholds.sound hc), hnest⟩, ?_⟩
  rw [hholds.cursor_nest, hstrict]
  rfl

/-- Whatever leaves open scopes as they are also leaves those that `n` has opened. -/
theorem Takes.ahead
    (h : ∀ fresh : List ScopeId, Inside t handle v₀ (fresh.map (·, n) ++ A) stage steps) :
    Takes t handle (Ahead t n v₀ A) stage steps (Ahead t n v₀ A) := by
  rintro v ⟨fresh, hv⟩
  exact (h fresh v hv).mono fun v' hv' => ⟨fresh, hv'⟩

/-- Leaving a node leads back to the scopes open around it. -/
theorem Ahead.close (h : Ahead t n v₀ A v) (hne : A.dropWhile (·.2 = n) ≠ []) :
    Stands t v₀ (A.dropWhile (·.2 = n)) (v.close t n) ∧
      (v.close t n).cursor = v.cursor.leave t n := by
  obtain ⟨fresh, hmoves, hholds⟩ := h
  have hfresh : (fresh.map (·, n) ++ A).dropWhile (·.2 = n) = A.dropWhile (·.2 = n) := by
    rw [List.dropWhile_append_of_pos]
    intro p hp
    obtain ⟨s, -, rfl⟩ := List.mem_map.1 hp
    exact decide_eq_true rfl
  have hclose := hholds.close (hfresh.symm ▸ hne)
  rw [hfresh] at hclose
  exact ⟨⟨hmoves.trans (.close hholds.sound), hclose⟩, cursor_close hholds.sound⟩

/-- Leaving a node closes what was opened there, unless it is a program. -/
theorem ahead_close (hn : t.isProgram n = false) :
    Takes t handle (Ahead t n v₀ A) (lift (close t n)) [.leave n] (Left t n v₀ A) := by
  refine Takes.lift rfl fun v hv => ?_
  have hne : A.dropWhile (·.2 = n) ≠ [] := by
    obtain ⟨fresh, -, hholds⟩ := hv
    intro hnil
    refine hholds.dropWhile_ne_nil hn ?_
    rw [List.dropWhile_append, hnil]
    simp
  obtain ⟨hstands, hcursor⟩ := hv.close hne
  refine ⟨⟨A.takeWhile (·.2 = n), A.dropWhile (·.2 = n), ?_, ?_, hstands⟩, hcursor⟩
  · exact List.takeWhile_append_dropWhile.symm
  · exact fun p hp => by simpa using List.mem_takeWhile_imp hp

end Bracket

end Atoms

end LexicalScope.Visitor
