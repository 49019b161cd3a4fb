import LexicalScope.Proofs.Composition

/-!
What a pattern walk finds. The children of a node in a pattern fall into three parts: those that
the walk follows, the expressions that it sets aside, and the keys that are only names. In a tree
with one place for each node an identifier lies below one child at most, so each of them is
counted once: as a target, below one right-hand node or in a key.
-/
namespace LexicalScope

namespace NodeKind

/-- The children in which a pattern walk looks for targets. -/
def followed : NodeKind → List NodeId
  | property p => [p.value]
  | assignmentPattern left _ | assignmentExpression _ left _ => [left]
  | memberExpression .. => []
  | callExpression callee _ _ => [callee]
  | kind => kind.children

/-- The children that a pattern walk sets aside. -/
def setAside : NodeKind → List NodeId
  | property p => if p.computed then [p.key] else []
  | assignmentPattern _ right | assignmentExpression _ _ right => [right]
  | memberExpression object key computed _ => if computed then [key, object] else [object]
  | callExpression _ arguments _ => arguments
  | _ => []

/-- The key of a property or a member, where it is no expression. -/
def plainKeys : NodeKind → List NodeId
  | property p => if p.computed then [] else [p.key]
  | memberExpression _ key computed _ => if computed then [] else [key]
  | _ => []

def restArgument? : NodeKind → Option NodeId
  | restElement argument => some argument
  | _ => none

def default? (n : NodeId) : NodeKind → Option PatternDefault
  | assignmentPattern left right | assignmentExpression _ left right => some ⟨n, left, right⟩
  | _ => none

/-- Each child of a node is set aside, followed or a plain key. -/
theorem perm_children (kind : NodeKind) :
    (kind.setAside ++ (kind.plainKeys ++ kind.followed)).Perm kind.children := by
  cases kind with
  | property p => cases hcomputed : p.computed <;> simp [setAside, plainKeys, followed, children,
      hcomputed]
  | assignmentPattern left right | assignmentExpression _ left right => exact .swap ..
  | memberExpression object key computed _ =>
    cases computed with
    | true => exact .swap ..
    | false => exact .refl _
  | callExpression callee arguments _ => exact List.perm_append_singleton ..
  | _ => exact .refl _

theorem sublist_followed (kind : NodeKind) : kind.followed.Sublist kind.children := by
  cases kind with
  | property p => exact .cons _ (.refl _)
  | assignmentPattern left right | assignmentExpression _ left right
  | callExpression left right _ =>
    exact .cons_cons _ (List.nil_sublist _)
  | memberExpression => exact List.nil_sublist _
  | _ => exact .refl _

theorem restElement_of_restArgument? {kind : NodeKind} {a : NodeId}
    (h : kind.restArgument? = some a) : kind = .restElement a := by
  cases kind with
  | restElement argument => rw [Option.some.inj h]
  | _ => cases h

end NodeKind

namespace Pattern

def Surroundings.inside (s : Surroundings) (n : NodeId) : NodeKind → Surroundings
  | .assignmentPattern left right | .assignmentExpression _ left right =>
    { s with defaults := s.defaults ++ [⟨n, left, right⟩] }
  | .restElement argument => { s with restArgument := some argument }
  | _ => s

theorem Surroundings.defaults_inside (s : Surroundings) (n : NodeId) (kind : NodeKind) :
    (s.inside n kind).defaults = s.defaults ++ (kind.default? n).toList := by
  cases kind with
  | assignmentPattern | assignmentExpression => rfl
  | _ => exact (List.append_nil _).symm

theorem Surroundings.restArgument_inside (s : Surroundings) (n : NodeId) (kind : NodeKind) :
    (s.inside n kind).restArgument = kind.restArgument?.or s.restArgument := by
  cases kind <;> rfl

def target (root : NodeId) (s : Surroundings) (n : NodeId) (name : String) : PatternTarget where
  identifier := n
  name
  topLevel := n = root
  rest := s.restArgument = some n
  defaults := s.defaults

variable {root n : NodeId} {walk : Surroundings → NodeId → Pattern} {s : Surroundings}

theorem join_map (f : NodeId → Pattern) (l : List NodeId) :
    join (l.map f) = ⟨l.flatMap fun c => (f c).targets, l.flatMap fun c => (f c).rightHand⟩ := by
  rw [join, List.flatMap_map, List.flatMap_map]

theorem targets_ofKind (kind : NodeKind) :
    (ofKind root walk s n kind).targets = kind.identifierName?.toList.map (target root s n) ++
      kind.followed.flatMap fun c => (walk (s.inside n kind) c).targets := by
  cases kind with
  | identifier | assignmentPattern | assignmentExpression | memberExpression => rfl
  | property | restElement | callExpression => exact (List.append_nil _).symm
  | _ => exact congrArg targets (join_map (walk s) _)

/-- The nodes set aside at a node are its own and those of the children that are followed. -/
theorem perm_rightHand_ofKind (kind : NodeKind) :
    (ofKind root walk s n kind).rightHand.Perm
      (kind.setAside ++ kind.followed.flatMap fun c => (walk (s.inside n kind) c).rightHand) := by
  cases kind with
  | identifier => exact .refl _
  | memberExpression => exact .of_eq (List.append_nil _).symm
  | assignmentPattern | assignmentExpression =>
    exact List.perm_append_comm.trans (.of_eq (congrArg (_ ++ ·) (List.append_nil _).symm))
  | property | callExpression => exact .of_eq (congrArg (_ ++ ·) (List.append_nil _).symm)
  | restElement => exact .of_eq (List.append_nil _).symm
  | _ => exact .of_eq (congrArg rightHand (join_map (walk s) _))

end Pattern

namespace Tree

open Pattern

variable {t : Tree} {n m p x c root : NodeId} {s : Surroundings} {fuel : Nat}

def followed (t : Tree) (n : NodeId) : List NodeId :=
  (t.kind? n).elim [] NodeKind.followed

def setAside (t : Tree) (n : NodeId) : List NodeId :=
  (t.kind? n).elim [] NodeKind.setAside

def plainKeys (t : Tree) (n : NodeId) : List NodeId :=
  (t.kind? n).elim [] NodeKind.plainKeys

def default? (t : Tree) (n : NodeId) : Option PatternDefault :=
  (t.kind? n).bind (·.default? n)

def surroundings (t : Tree) (s : Surroundings) (n : NodeId) : Surroundings :=
  (t.kind? n).elim s (s.inside n)

def passedOver (t : Tree) : Nat → NodeId → List NodeId
  | 0, _ => []
  | fuel + 1, n => t.plainKeys n ++ (t.followed n).flatMap (t.passedOver fuel)

theorem perm_childrenOf (t : Tree) (n : NodeId) :
    (t.setAside n ++ (t.plainKeys n ++ t.followed n)).Perm (t.childrenOf n) := by
  rw [setAside, plainKeys, followed, childrenOf]
  cases t.kind? n with
  | none => exact .refl _
  | some kind => exact kind.perm_children

theorem sublist_followed (t : Tree) (n : NodeId) : (t.followed n).Sublist (t.childrenOf n) := by
  rw [followed, childrenOf]
  cases t.kind? n with
  | none => exact .refl _
  | some kind => exact kind.sublist_followed

theorem mem_childrenOf_of_followed (hc : c ∈ t.followed n) : c ∈ t.childrenOf n :=
  (t.sublist_followed n).subset hc

theorem mem_childrenOf_of_plainKeys (hc : c ∈ t.plainKeys n) : c ∈ t.childrenOf n :=
  (t.perm_childrenOf n).subset (List.mem_append_right _ (List.mem_append_left _ hc))

theorem not_followed_of_mem_plainKeys (hplaces : t.UniquePlaces) (hc : c ∈ t.plainKeys n) :
    c ∉ t.followed n := by
  have hnodup := (t.perm_childrenOf n).nodup_iff.2 (hplaces.nodup_childrenOf n)
  exact List.disjoint_of_nodup_append (List.nodup_append.1 hnodup).2.1 hc

theorem targets_walkWithin (t : Tree) (root : NodeId) (fuel : Nat) (s : Surroundings)
    (n : NodeId) : (walkWithin t root (fuel + 1) s n).targets =
      (t.identifierName? n).toList.map (target root s n) ++ (t.followed n).flatMap fun c =>
        (walkWithin t root fuel (t.surroundings s n) c).targets := by
  rw [walkWithin, identifierName?, followed, surroundings]
  cases t.kind? n with
  | none => rfl
  | some kind => exact targets_ofKind kind

theorem perm_rightHand_walkWithin (t : Tree) (root : NodeId) (fuel : Nat) (s : Surroundings)
    (n : NodeId) : (walkWithin t root (fuel + 1) s n).rightHand.Perm
      (t.setAside n ++ (t.followed n).flatMap fun c =>
        (walkWithin t root fuel (t.surroundings s n) c).rightHand) := by
  rw [walkWithin, setAside, followed, surroundings]
  cases t.kind? n with
  | none => exact .refl _
  | some kind => exact perm_rightHand_ofKind kind

theorem childrenOf_of_identifierName? {name : String} (hn : t.identifierName? n = some name) :
    t.childrenOf n = [] := by
  obtain ⟨kind, hkind, hname⟩ := Option.bind_eq_some_iff.1 hn
  rw [childrenOf, hkind, Option.elim_some]
  cases kind with
  | identifier => rfl
  | _ => cases hname

/-- A target is the node itself or a target of a child that the walk follows. -/
theorem target_cases {y : PatternTarget} (hy : y ∈ (walkWithin t root (fuel + 1) s n).targets) :
    (∃ name, t.identifierName? n = some name ∧ y = target root s n name) ∨
      ∃ c ∈ t.followed n, y ∈ (walkWithin t root fuel (t.surroundings s n) c).targets := by
  rw [targets_walkWithin, List.mem_append, List.mem_flatMap] at hy
  refine hy.imp_left fun hy => ?_
  obtain ⟨name, hname, rfl⟩ := List.mem_map.1 hy
  exact ⟨name, Option.mem_toList.1 hname, rfl⟩

section Count

open Classical

variable (hplaces : t.UniquePlaces)
include hplaces

/-- A node stands at `n`, or below one child of it, or not below it. -/
theorem countP_childrenOf (x n : NodeId) :
    (if x = n then 1 else 0) + (t.childrenOf n).countP (t.Below x ·) =
      if t.Below x n then 1 else 0 := by
  by_cases hxn : x = n
  · subst hxn
    have hnone : (t.childrenOf x).countP (t.Below x ·) = 0 := by
      exact List.countP_eq_zero.2 fun c hc hbelow =>
        not_below_of_mem_childrenOf hc (of_decide_eq_true hbelow)
    rw [hnone, if_pos rfl, if_pos .refl]
  · rw [if_neg hxn, Nat.zero_add]
    by_cases hbelow : t.Below x n
    · obtain heq | ⟨c, hxc, hc⟩ := Relation.ReflTransGen.cases_tail hbelow
      · exact absurd heq.symm hxn
      · have honly : (t.childrenOf n).countP (t.Below x ·) = (t.childrenOf n).count c := by
          refine List.countP_congr fun c' hc' => ?_
          rw [decide_eq_true_iff, beq_iff_eq]
          exact ⟨fun hx => eq_of_below hplaces hc' hc hx hxc, fun h => h ▸ hxc⟩
        rw [if_pos hbelow, honly, List.count_eq_one_of_mem (hplaces.nodup_childrenOf n) hc]
    · rw [if_neg hbelow]
      exact List.countP_eq_zero.2 fun c hc hx =>
        hbelow ((of_decide_eq_true hx).tail hc)

omit hplaces in
theorem count_flatMap_walk {cs : List NodeId} (walk : NodeId → Pattern)
    (keys : NodeId → List NodeId) (h : ∀ c ∈ cs, ((walk c).targets.map (·.identifier)).count x +
      (walk c).rightHand.countP (t.Below x ·) + (keys c).countP (t.Below x ·) =
        if t.Below x c then 1 else 0) :
    ((cs.flatMap fun c => (walk c).targets).map (·.identifier)).count x +
        (cs.flatMap fun c => (walk c).rightHand).countP (t.Below x ·) +
        (cs.flatMap keys).countP (t.Below x ·) =
      cs.countP (t.Below x ·) := by
  induction cs with
  | nil => rfl
  | cons c cs ih =>
    have hc := h c (List.mem_cons_self ..)
    have hcs := ih fun c' hc' => h c' (List.mem_cons_of_mem _ hc')
    simp only [List.flatMap_cons, List.map_append, List.count_append, List.countP_append,
      List.countP_cons, decide_eq_true_eq]
    omega

omit hplaces in
theorem count_ownTarget {name : String} (hx : t.identifierName? x = some name) (root : NodeId)
    (s : Surroundings) (n : NodeId) :
    (((t.identifierName? n).toList.map (target root s n)).map (·.identifier)).count x =
      if x = n then 1 else 0 := by
  by_cases hxn : x = n
  · subst hxn
    simp [hx, target]
  · cases t.identifierName? n with
    | none => simp [hxn]
    | some name' => simp [target, hxn, Ne.symm hxn]

/-- Each identifier in a pattern is counted once: as a target, below a right-hand node or in a key
that is passed over. -/
theorem count_walkWithin {name : String} (hx : t.identifierName? x = some name) (root : NodeId)
    (s : Surroundings) (hfuel : n.index < fuel) :
    ((walkWithin t root fuel s n).targets.map (·.identifier)).count x +
        (walkWithin t root fuel s n).rightHand.countP (t.Below x ·) +
        (t.passedOver fuel n).countP (t.Below x ·) =
      if t.Below x n then 1 else 0 := by
  induction fuel generalizing s n with
  | zero => omega
  | succ fuel ih =>
    have hchild (c : NodeId) (hc : c ∈ t.followed n) : c.index < fuel := by
      have hlt := index_lt_of_mem_childrenOf (mem_childrenOf_of_followed hc)
      omega
    have hfollowed := count_flatMap_walk (walkWithin t root fuel (t.surroundings s n))
      (t.passedOver fuel) fun c hc => ih (t.surroundings s n) (hchild c hc)
    have hparts := (t.perm_childrenOf n).countP_eq (t.Below x ·)
    have hplace := countP_childrenOf hplaces x n
    have hown := count_ownTarget hx root s n
    rw [targets_walkWithin, (t.perm_rightHand_walkWithin root fuel s n).countP_eq, passedOver]
    simp only [List.map_append, List.count_append, List.countP_append] at hparts ⊢
    omega

end Count

/-- The way down from a node to one below it, both included. -/
inductive Leads (t : Tree) : NodeId → List NodeId → NodeId → Prop
  | here {n : NodeId} : t.Leads n [n] n
  | down {n c x : NodeId} {path : List NodeId} (hc : c ∈ t.childrenOf n) (h : t.Leads c path x) :
      t.Leads n (n :: path) x

/-- Some node has a child over `x` and, further right, one over `y`. -/
def Precedes (t : Tree) (x y : NodeId) : Prop :=
  ∃ m c c', [c, c'].Sublist (t.childrenOf m) ∧ t.Below x c ∧ t.Below y c'

/-- Whether `x` stands in a key below `p` that is no expression. -/
def InPlainKey (t : Tree) (p x : NodeId) : Prop :=
  ∃ m key, t.Below m p ∧ key ∈ t.plainKeys m ∧ t.Below x key

theorem below_of_leads {path : List NodeId} (h : t.Leads n path x) : t.Below x n := by
  induction h with
  | here => exact .refl
  | down hc _ ih => exact ih.tail hc

theorem exists_leads (h : t.Below x n) : ∃ path, t.Leads n path x := by
  induction h with
  | refl => exact ⟨_, .here⟩
  | tail _ hc ih =>
    obtain ⟨path, hpath⟩ := ih
    exact ⟨_, .down hc hpath⟩

/-- A node is reached along one path where places are unique. -/
theorem Leads.unique (hplaces : t.UniquePlaces) {path path' : List NodeId}
    (h : t.Leads n path x) (h' : t.Leads n path' x) : path = path' := by
  induction h generalizing path' with
  | here =>
    cases h' with
    | here => rfl
    | down hc h' => exact absurd (below_of_leads h') (not_below_of_mem_childrenOf hc)
  | down hc h ih =>
    cases h' with
    | here => exact absurd (below_of_leads h) (not_below_of_mem_childrenOf hc)
    | down hc' h' =>
      obtain rfl := eq_of_below hplaces hc hc' (below_of_leads h) (below_of_leads h')
      rw [ih h']

theorem defaults_surroundings (t : Tree) (s : Surroundings) (n : NodeId) :
    (t.surroundings s n).defaults = s.defaults ++ (t.default? n).toList := by
  rw [surroundings, default?]
  cases t.kind? n with
  | none => exact (List.append_nil _).symm
  | some kind => exact s.defaults_inside n kind

theorem restArgument_surroundings (t : Tree) (s : Surroundings) (n : NodeId) :
    (t.surroundings s n).restArgument =
      ((t.kind? n).bind NodeKind.restArgument?).or s.restArgument := by
  rw [surroundings]
  cases t.kind? n with
  | none => rfl
  | some kind => exact s.restArgument_inside n kind

theorem default?_of_identifierName? {name : String} (hn : t.identifierName? n = some name) :
    t.default? n = none := by
  obtain ⟨kind, hkind, hname⟩ := Option.bind_eq_some_iff.1 hn
  rw [default?, hkind, Option.bind_some]
  cases kind with
  | identifier => rfl
  | _ => cases hname

section Targets

variable {y : PatternTarget}

/-- Targets are identifiers inside the pattern. -/
theorem below_of_mem_targets (hy : y ∈ (walkWithin t root fuel s n).targets) :
    t.Below y.identifier n ∧ t.identifierName? y.identifier = some y.name := by
  induction fuel generalizing s n with
  | zero => cases hy
  | succ fuel ih =>
    obtain ⟨name, hname, rfl⟩ | ⟨c, hc, hy⟩ := target_cases hy
    · exact ⟨.refl, hname⟩
    · obtain ⟨hbelow, hname⟩ := ih hy
      exact ⟨hbelow.tail (mem_childrenOf_of_followed hc), hname⟩

/-- Only a pattern that is itself a target has one at its top. -/
theorem topLevel_of_mem_targets (hy : y ∈ (walkWithin t root fuel s n).targets) :
    y.topLevel ↔ y.identifier = root := by
  induction fuel generalizing s n with
  | zero => cases hy
  | succ fuel ih =>
    obtain ⟨name, -, rfl⟩ | ⟨c, -, hy⟩ := target_cases hy
    · exact decide_eq_true_iff
    · exact ih hy

theorem mem_plainKeys_of_mem_passedOver {key : NodeId} (hkey : key ∈ t.passedOver fuel n) :
    ∃ m, t.Below m n ∧ key ∈ t.plainKeys m := by
  induction fuel generalizing n with
  | zero => cases hkey
  | succ fuel ih =>
    rcases List.mem_append.1 hkey with hkey | hkey
    · exact ⟨n, .refl, hkey⟩
    · obtain ⟨c, hc, hkey⟩ := List.mem_flatMap.1 hkey
      obtain ⟨m, hm, hkey⟩ := ih hkey
      exact ⟨m, hm.tail (mem_childrenOf_of_followed hc), hkey⟩

/-- Targets come from left to right. -/
theorem pairwise_targets (t : Tree) (root : NodeId) (fuel : Nat) (s : Surroundings) (n : NodeId) :
    ((walkWithin t root fuel s n).targets.map (·.identifier)).Pairwise t.Precedes := by
  induction fuel generalizing s n with
  | zero => exact .nil
  | succ fuel ih =>
    rw [targets_walkWithin]
    cases hname : t.identifierName? n with
    | some name =>
      have hnone : t.followed n = [] :=
        List.sublist_nil.1 (childrenOf_of_identifierName? hname ▸ t.sublist_followed n)
      rw [hnone]
      exact List.pairwise_singleton ..
    | none =>
      rw [Option.toList_none, List.map_nil, List.nil_append, List.map_flatMap]
      refine List.pairwise_flatMap.2 ⟨fun c _ => ih _ c,
        List.pairwise_iff_forall_sublist.2 fun {c c'} hcc x hx x' hx' => ?_⟩
      obtain ⟨y, hy, rfl⟩ := List.mem_map.1 hx
      obtain ⟨y', hy', rfl⟩ := List.mem_map.1 hx'
      exact ⟨n, c, c', hcc.trans (t.sublist_followed n), (below_of_mem_targets hy).1,
        (below_of_mem_targets hy').1⟩

variable (hplaces : t.UniquePlaces)
include hplaces

/-- The walk follows every child on the way to a target. -/
theorem followed_of_mem_targets (hy : y ∈ (walkWithin t root fuel s n).targets)
    (hm : t.Below m n) (hc : c ∈ t.childrenOf m) (hyc : t.Below y.identifier c) :
    c ∈ t.followed m := by
  induction fuel generalizing s n with
  | zero => cases hy
  | succ fuel ih =>
    obtain ⟨name, -, rfl⟩ | ⟨c', hc', hy⟩ := target_cases hy
    · exact absurd (hm.trans hyc) (not_below_of_mem_childrenOf hc)
    · have hyc' := (below_of_mem_targets hy).1
      rcases hm.cases_tail with rfl | ⟨d, hmd, hd⟩
      · rwa [eq_of_below hplaces hc (mem_childrenOf_of_followed hc') hyc hyc']
      · have hyd : t.Below y.identifier d := (hyc.tail hc).trans hmd
        obtain rfl := eq_of_below hplaces hd (mem_childrenOf_of_followed hc') hyd hyc'
        exact ih hy hmd

/-- The defaults of a target are the assignments on the way down to it. -/
theorem defaults_of_mem_targets (hy : y ∈ (walkWithin t root fuel s n).targets)
    {path : List NodeId} (hpath : t.Leads n path y.identifier) :
    y.defaults = s.defaults ++ path.filterMap t.default? := by
  induction fuel generalizing s n path with
  | zero => cases hy
  | succ fuel ih =>
    obtain ⟨name, hname, rfl⟩ | ⟨c, hc, hy⟩ := target_cases hy
    · have hhere : path = [n] := hpath.unique hplaces .here
      rw [hhere, List.filterMap_cons_none (default?_of_identifierName? hname)]
      exact (List.append_nil _).symm
    · -- The way down goes through the same child as the walk.
      cases hpath with
      | here =>
        exact absurd (below_of_mem_targets hy).1
          (not_below_of_mem_childrenOf (mem_childrenOf_of_followed hc))
      | down hc' hpath =>
        obtain rfl := eq_of_below hplaces (mem_childrenOf_of_followed hc) hc'
          (below_of_mem_targets hy).1 (below_of_leads hpath)
        rw [ih hy hpath, defaults_surroundings, List.append_assoc, List.filterMap_cons]
        cases t.default? n <;> rfl

omit hplaces in
theorem mem_childrenOf_of_rest {r a : NodeId} (hr : t.kind? r = some (.restElement a)) :
    a ∈ t.childrenOf r :=
  mem_childrenOf hr (List.mem_singleton_self a)

omit hplaces in
/-- The argument of a rest element knows of it. -/
theorem restArgument_surroundings_iff {a : NodeId} (hs : s.restArgument ≠ some a) :
    (t.surroundings s n).restArgument = some a ↔ t.kind? n = some (.restElement a) := by
  rw [restArgument_surroundings, Option.or_eq_some_iff, or_iff_left fun h => hs h.2]
  constructor
  · intro h
    obtain ⟨kind, hkind, ha⟩ := Option.bind_eq_some_iff.1 h
    rw [hkind, NodeKind.restElement_of_restArgument? ha]
  · intro h
    rw [h]
    rfl

/-- A target stands behind the dots of a rest element if one in the pattern has it. -/
theorem rest_of_mem_targets (hs : ∀ a, s.restArgument = some a → t.Below n a)
    (hy : y ∈ (walkWithin t root fuel s n).targets) :
    y.rest ↔ s.restArgument = some y.identifier ∨
      ∃ r, t.Below r n ∧ t.kind? r = some (.restElement y.identifier) := by
  induction fuel generalizing s n with
  | zero => cases hy
  | succ fuel ih =>
    obtain ⟨name, -, rfl⟩ | ⟨c, hc, hy⟩ := target_cases hy
    · have hnone : ¬∃ r, t.Below r n ∧ t.kind? r = some (.restElement n) := fun ⟨r, hrn, hr⟩ =>
        not_below_of_mem_childrenOf (mem_childrenOf_of_rest hr) hrn
      exact decide_eq_true_iff.trans (or_iff_left hnone).symm
    · have hyc := (below_of_mem_targets hy).1
      have hchild := mem_childrenOf_of_followed hc
      have hnot (a : NodeId) (ha : t.Below a c) : s.restArgument ≠ some a := fun h =>
        not_below_of_mem_childrenOf hchild ((hs a h).trans ha)
      have hinside (a : NodeId) (ha : (t.surroundings s n).restArgument = some a) :
          t.Below c a := by
        by_cases hsa : s.restArgument = some a
        · exact .head hchild (hs a hsa)
        · have hn := (restArgument_surroundings_iff hsa).1 ha
          have hmem := mem_childrenOf_of_followed hc
          rw [childrenOf, hn] at hmem
          rw [List.mem_singleton.1 hmem]
          exact .refl
      rw [ih hinside hy, restArgument_surroundings_iff (hnot _ hyc), or_iff_right (hnot _ hyc)]
      constructor
      · rintro (hn | ⟨r, hrc, hr⟩)
        · exact ⟨n, .refl, hn⟩
        · exact ⟨r, hrc.tail hchild, hr⟩
      · rintro ⟨r, hrn, hr⟩
        rcases hrn.cases_tail with rfl | ⟨d, hrd, hd⟩
        · exact .inl hr
        · have hyd : t.Below y.identifier d := .head (mem_childrenOf_of_rest hr) hrd
          obtain rfl := eq_of_below hplaces hd hchild hyd hyc
          exact .inr ⟨r, hrd, hr⟩

end Targets

section Partition

open Classical

/-- The keys that a walk passes over are those outside all its right-hand nodes. The walk does not
follow them, so no target stands there either. -/
theorem countP_passedOver (hplaces : t.UniquePlaces) {name : String}
    (hx : t.identifierName? x = some name) (hxp : t.Below x p) :
    (t.passedOver (p.index + 1) p).countP (t.Below x ·) =
      if (∀ m ∈ (t.pattern p).rightHand, ¬t.Below x m) ∧ t.InPlainKey p x then 1 else 0 := by
  have hcount := count_walkWithin hplaces hx p {} (Nat.lt_add_one p.index)
  rw [if_pos hxp] at hcount
  change ((t.pattern p).targets.map (·.identifier)).count x +
    (t.pattern p).rightHand.countP (t.Below x ·) + _ = 1 at hcount
  have hpos {l : List NodeId} {m : NodeId} (hm : m ∈ l) (hxm : t.Below x m) :
      0 < l.countP (t.Below x ·) :=
    List.countP_pos_iff.2 ⟨m, hm, decide_eq_true hxm⟩
  split
  · next h =>
    obtain ⟨haside, m, key, hm, hkey, hxkey⟩ := h
    have hrightHand : (t.pattern p).rightHand.countP (t.Below x ·) = 0 :=
      List.countP_eq_zero.2 fun m hm hxm => haside m hm (of_decide_eq_true hxm)
    have htargets : ((t.pattern p).targets.map (·.identifier)).count x = 0 := by
      refine List.count_eq_zero.2 fun hx => ?_
      obtain ⟨y, hy, rfl⟩ := List.mem_map.1 hx
      exact not_followed_of_mem_plainKeys hplaces hkey
        (followed_of_mem_targets hplaces hy hm (mem_childrenOf_of_plainKeys hkey) hxkey)
    omega
  · next h =>
    refine List.countP_eq_zero.2 fun key hkey hxkey => h ⟨fun m hm hxm => ?_, ?_⟩
    · have hkeys := hpos hkey (of_decide_eq_true hxkey)
      have hrightHand := hpos hm hxm
      omega
    · obtain ⟨m, hm, hkey⟩ := mem_plainKeys_of_mem_passedOver hkey
      exact ⟨m, key, hm, hkey, of_decide_eq_true hxkey⟩

/-- What the walk finds in the pattern at `p`. -/
structure Partitioned (t : Tree) (p : NodeId) (walk : Pattern) : Prop where
  /-- Every identifier is one target, or stands below one right-hand node, or in a key that is
  passed over. -/
  once : ∀ x name, t.Below x p → t.identifierName? x = some name →
    (walk.targets.map (·.identifier)).count x + walk.rightHand.countP (t.Below x ·) +
      (if (∀ m ∈ walk.rightHand, ¬t.Below x m) ∧ t.InPlainKey p x then 1 else 0) = 1
  targets : ∀ y ∈ walk.targets,
    t.Below y.identifier p ∧ t.identifierName? y.identifier = some y.name
  rightHand : ∀ m ∈ walk.rightHand, t.Below m p
  /-- Targets come from left to right. -/
  ordered : (walk.targets.map (·.identifier)).Pairwise t.Precedes
  /-- There is one way down to a target, and its defaults are the assignments on it. -/
  defaults : ∀ y ∈ walk.targets, ∃ path, (∀ path', t.Leads p path' y.identifier ↔ path' = path) ∧
    y.defaults = path.filterMap t.default?
  rest : ∀ y ∈ walk.targets,
    y.rest ↔ ∃ r, t.Below r p ∧ t.kind? r = some (.restElement y.identifier)
  topLevel : ∀ y ∈ walk.targets, y.topLevel ↔ y.identifier = p

theorem partitioned_pattern (hplaces : t.UniquePlaces) (p : NodeId) :
    t.Partitioned p (t.pattern p) where
  once x name hxp hx := by
    have hcount := count_walkWithin hplaces hx p {} (Nat.lt_add_one p.index)
    rwa [countP_passedOver hplaces hx hxp, if_pos hxp] at hcount
  targets _ hy := below_of_mem_targets hy
  rightHand m hm := by
    obtain ⟨q, hbelow, -, hm⟩ := exists_parent_of_mem_rightHand hm
    exact .head hm hbelow
  ordered := t.pairwise_targets p _ _ p
  defaults y hy := by
    obtain ⟨path, hpath⟩ := exists_leads (below_of_mem_targets hy).1
    refine ⟨path, fun path' => ⟨fun hpath' => hpath'.unique hplaces hpath, ?_⟩,
      defaults_of_mem_targets hplaces hy hpath⟩
    rintro rfl
    exact hpath
  rest y hy := by
    have hnone (a : NodeId) : ({} : Surroundings).restArgument ≠ some a :=
      (Option.some_ne_none a).symm
    rw [rest_of_mem_targets hplaces (fun a ha => absurd ha (hnone a)) hy]
    exact or_iff_right (hnone _)
  topLevel _ hy := topLevel_of_mem_targets hy

end Partition

/-- `{ k: [a = b], [c]: o.m, ...r }` -/
def nestedPattern : Build NodeId := do
  let element ← .alloc (.assignmentPattern (← .identifier "a") (← .identifier "b"))
  let list ← .property "k" (← .alloc (.arrayPattern [some element]))
  let member ← .computedProperty (← .identifier "c") (← .member (← .identifier "o") "m")
  .alloc (.objectPattern [list, member, ← .alloc (.restElement (← .identifier "r"))])

/-- Two targets, three right-hand nodes and two keys. -/
theorem partitioned_nestedPattern : ∃ t, Build.tree nestedPattern = .ok t ∧ t.UniquePlaces ∧
    t.Partitioned t.root (t.pattern t.root) ∧
    (t.pattern t.root).targets.map (fun y => (y.name, y.rest, y.defaults.length)) =
      [("a", false, 1), ("r", true, 0)] ∧
    (t.pattern t.root).rightHand.map t.identifierName? = [some "b", some "c", some "o"] := by
  obtain ⟨t, ht⟩ : ∃ t, Build.tree nestedPattern = .ok t := ⟨_, rfl⟩
  have hplaces : t.UniquePlaces := by
    obtain rfl := Except.ok.inj ht
    decide
  refine ⟨t, ht, hplaces, partitioned_pattern hplaces t.root, ?_, ?_⟩ <;>
    · obtain rfl := Except.ok.inj ht
      rfl

end Tree

end LexicalScope
