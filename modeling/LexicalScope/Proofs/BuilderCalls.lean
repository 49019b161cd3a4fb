import LexicalScope.Proofs.Ancestors

/-!
Trees that come from calls of the builder. A call may take only nodes that earlier calls have
returned. Such a call is never refused, and it stores its helper nodes before the node that it
returns, so every child has a smaller number than whoever lists it, also in a tree that shares
nodes or leaves some out. That order alone makes every way up end at the root or earlier.
-/
namespace LexicalScope

/-- One call of the builder. A constructor that stores a single node is `alloc` at its kind; the
others store helper nodes first. -/
inductive BuildCall where
  | alloc (kind : NodeKind) (span : Span)
  | setSpan (n : NodeId) (span : Span)
  | comment (kind : CommentKind) (text : String) (span : Span)
  | template (quasis : List String) (expressions : List NodeId)
  | property (key : String) (value : NodeId)
  | shorthandProperty (name : String)
  | shorthandDefault (name : String) (default : NodeId)
  | methodProperty (key : String) (value : NodeId)
  | functionExpression (name : Option String) (params body : List NodeId)
  | functionDeclaration (name : Option String) (params body : List NodeId)
  | arrowBlock (params body : List NodeId)
  | classExpression (name : Option String) (superClass : Option NodeId) (members : List NodeId)
  | classDeclaration (name : Option String) (superClass : Option NodeId) (members : List NodeId)
  | member (object : NodeId) (key : String)
  | metaProperty (object key : String)
  | directive (value : String)
  | labeled (label : String) (body : NodeId)
  | breakStatement (label : Option String)
  | continueStatement (label : Option String)
  | catchClause (param : Option NodeId) (body : List NodeId)
  | declare (kind : VariableKind) (name : String) (init : Option NodeId)
  | method (kind : MethodKind) (key : String) (value : NodeId) (isStatic : Bool)
  | propertyDefinition (key : String) (value : Option NodeId) (isStatic : Bool)
  | importDeclaration (specifiers : List NodeId) (source : String) (kind : ImportKind)
  | importSpecifier (imported localName : String) (kind : ImportKind)
  | importDefault (localName : String)
  | importNamespace (localName : String)
  | exportNamed (declaration : Option NodeId) (specifiers : List NodeId) (source : Option String)
  | exportSpecifier (localName exported : String)
  | exportAll (exported : Option String) (source : String)

namespace BuildCall

def takes : BuildCall → List NodeId
  | alloc kind _ => kind.children
  | setSpan n _ => [n]
  | template _ expressions => expressions
  | property _ value | methodProperty _ value | method _ _ value _ => [value]
  | shorthandDefault _ default => [default]
  | functionExpression _ params body | functionDeclaration _ params body
  | arrowBlock params body => params ++ body
  | classExpression _ superClass members | classDeclaration _ superClass members =>
    superClass.toList ++ members
  | member object _ => [object]
  | labeled _ body => [body]
  | catchClause param body => param.toList ++ body
  | declare _ _ init => init.toList
  | propertyDefinition _ value _ => value.toList
  | importDeclaration specifiers _ _ => specifiers
  | exportNamed declaration specifiers _ => declaration.toList ++ specifiers
  | comment .. | shorthandProperty _ | metaProperty .. | directive _ | breakStatement _
  | continueStatement _ | importSpecifier .. | importDefault _ | importNamespace _
  | exportSpecifier .. | exportAll .. => []

/-- What a call does to a draft, and the node that it returns, if it returns one. -/
def run : BuildCall → Build (Option NodeId)
  | alloc kind span => some <$> Build.alloc kind span
  | setSpan n span => (fun _ => none) <$> Build.setSpan n span
  | comment kind text span => (fun _ => none) <$> Build.comment kind text span
  | template quasis expressions => some <$> Build.template quasis expressions
  | property key value => some <$> Build.property key value
  | shorthandProperty name => some <$> Build.shorthandProperty name
  | shorthandDefault name default => some <$> Build.shorthandDefault name default
  | methodProperty key value => some <$> Build.methodProperty key value
  | functionExpression name params body => some <$> Build.functionExpression name params body
  | functionDeclaration name params body => some <$> Build.functionDeclaration name params body
  | arrowBlock params body => some <$> Build.arrowBlock params body
  | classExpression name superClass members =>
    some <$> Build.classExpression name superClass members
  | classDeclaration name superClass members =>
    some <$> Build.classDeclaration name superClass members
  | member object key => some <$> Build.member object key
  | metaProperty object key => some <$> Build.metaProperty object key
  | directive value => some <$> Build.directive value
  | labeled label body => some <$> Build.labeled label body
  | breakStatement label => some <$> Build.breakStatement label
  | continueStatement label => some <$> Build.continueStatement label
  | catchClause param body => some <$> Build.catchClause param body
  | declare kind name init => some <$> Build.declare kind name init
  | method kind key value isStatic => some <$> Build.method kind key value isStatic
  | propertyDefinition key value isStatic => some <$> Build.propertyDefinition key value isStatic
  | importDeclaration specifiers source kind =>
    some <$> Build.importDeclaration specifiers source kind
  | importSpecifier imported localName kind =>
    some <$> Build.importSpecifier imported localName kind
  | importDefault localName => some <$> Build.importDefault localName
  | importNamespace localName => some <$> Build.importNamespace localName
  | exportNamed declaration specifiers source =>
    some <$> Build.exportNamed declaration specifiers source
  | exportSpecifier localName exported => some <$> Build.exportSpecifier localName exported
  | exportAll exported source => some <$> Build.exportAll exported source

end BuildCall

theorem ChildrenBelow.empty : ChildrenBelow #[] :=
  fun i h => absurd h (Nat.not_lt_zero i)

def Draft.empty : Draft where
  childrenBelow := .empty

def Draft.Has (d : Draft) (ids : List NodeId) : Prop :=
  ∀ n ∈ ids, n.index < d.nodes.size

/-- Given the nodes that it takes, a construction succeeds, drops no node and has those that it
gives. -/
def Constructs {α : Type} (takes : List NodeId) (gives : α → List NodeId) (b : Build α) : Prop :=
  ∀ d : Draft, d.Has takes → ∃ a d', b d = .ok (a, d') ∧
    d.nodes.size ≤ d'.nodes.size ∧ d'.Has (gives a)

namespace Draft

variable {d d' : Draft} {ids ids' : List NodeId}

theorem has_append : d.Has (ids ++ ids') ↔ d.Has ids ∧ d.Has ids' :=
  List.forall_mem_append

theorem Has.grow (h : d.Has ids) (hsize : d.nodes.size ≤ d'.nodes.size) : d'.Has ids :=
  fun n hn => Nat.lt_of_lt_of_le (h n hn) hsize

end Draft

namespace Constructs

variable {α β : Type} {takes : List NodeId} {gives : α → List NodeId} {gives' : β → List NodeId}
  {b : Build α}

theorem pure {a : α} (h : gives a ⊆ takes) : Constructs takes gives (pure a) := by
  intro d hd
  exact ⟨a, d, rfl, Nat.le_refl _, fun n hn => hd n (h hn)⟩

/-- The second part may also take what the first one gives. -/
theorem bind {f : α → Build β} (hb : Constructs takes gives b)
    (hf : ∀ a, Constructs (gives a ++ takes) gives' (f a)) :
    Constructs takes gives' (b >>= f) := by
  intro d hd
  obtain ⟨a, d₁, hrun, hsize, hgives⟩ := hb d hd
  obtain ⟨a', d₂, hrun', hsize', hgives'⟩ :=
    hf a d₁ (Draft.has_append.2 ⟨hgives, hd.grow hsize⟩)
  refine ⟨a', d₂, ?_, Nat.le_trans hsize hsize', hgives'⟩
  calc (b >>= f) d
    _ = (b d >>= fun result => f result.1 result.2) := rfl
    _ = f a d₁ := by rw [hrun]; rfl
    _ = _ := hrun'

theorem map {g : α → β} (hb : Constructs takes gives b) (hg : ∀ a, gives' (g a) ⊆ gives a) :
    Constructs takes gives' (g <$> b) := by
  intro d hd
  obtain ⟨a, d', hrun, hsize, hgives⟩ := hb d hd
  refine ⟨g a, d', ?_, hsize, fun n hn => hgives n (hg a hn)⟩
  show (b d >>= fun result => Pure.pure (g result.1, result.2)) = _
  rw [hrun]
  rfl

/-- The result of a construction that gives one node. -/
theorem node {b : Build NodeId} (hb : Constructs takes ([·]) b) :
    Constructs takes Option.toList (some <$> b) :=
  hb.map fun n => List.Subset.refl [n]

theorem noNode (hb : Constructs takes gives b) :
    Constructs takes Option.toList ((fun _ => none) <$> b) :=
  hb.map fun _ => List.nil_subset _

/-- A new node lists only nodes that it takes. -/
theorem alloc {kind : NodeKind} (h : kind.children ⊆ takes) (span : Span := {}) :
    Constructs takes ([·]) (Build.alloc kind span) := by
  intro d hd
  have hchildren : ∀ c ∈ kind.children, c.index < d.nodes.size := fun c hc => hd c (h hc)
  refine ⟨_, _, dif_pos hchildren, ?_, ?_⟩
  · simp
  · intro n hn
    obtain rfl := List.mem_singleton.1 hn
    simp

theorem setSpan (n : NodeId) (span : Span) :
    Constructs [n] (fun _ => []) (Build.setSpan n span) := by
  intro d hd
  have hn : n.index < d.nodes.size := hd n (List.mem_singleton_self n)
  refine ⟨_, _, if_pos hn, ?_, ?_⟩
  · simp
  · simp [Draft.Has]

theorem comment (kind : CommentKind) (text : String) (span : Span) :
    Constructs [] (fun _ => []) (Build.comment kind text span) := by
  intro d _
  exact ⟨_, _, rfl, Nat.le_refl _, by simp [Draft.Has]⟩

theorem identifier (name : String) : Constructs takes ([·]) (Build.identifier name) :=
  alloc (List.nil_subset _)

theorem string (value : String) : Constructs takes ([·]) (Build.string value) :=
  alloc (List.nil_subset _)

/-- An optional part takes what the part takes. -/
theorem mapM_option {f : β → Build NodeId} (hf : ∀ x, Constructs takes ([·]) (f x))
    (x : Option β) : Constructs takes Option.toList (x.mapM f) := by
  cases x with
  | none => exact pure (List.nil_subset _)
  | some x => exact (hf x).node

theorem identifier? (name : Option String) :
    Constructs takes Option.toList (Build.identifier? name) :=
  mapM_option identifier name

theorem templateElements (quasis : List String) :
    Constructs takes id (Build.templateElements quasis) := by
  induction quasis generalizing takes with
  | nil => exact pure (List.nil_subset _)
  | cons raw rest ih =>
    refine (alloc (List.nil_subset _)).bind fun element => ih.bind fun elements => pure ?_
    simp

theorem function (name : Option String) (params body : List NodeId) :
    Constructs (params ++ body) (fun f => (NodeKind.functionExpression f).children)
      (Build.function name params body) := by
  refine (identifier? name).bind fun id => ?_
  have hblock : Constructs (id.toList ++ (params ++ body)) ([·]) (Build.block body) :=
    alloc (by simp [NodeKind.children])
  exact hblock.bind fun block => pure (by grind [NodeKind.children])

theorem classParts (name : Option String) (superClass : Option NodeId) (members : List NodeId) :
    Constructs (superClass.toList ++ members)
      (fun c => (NodeKind.classExpression c).children)
      (Build.classParts name superClass members) := by
  refine (identifier? name).bind fun id => ?_
  have hbody : Constructs (id.toList ++ (superClass.toList ++ members)) ([·])
      (Build.alloc (.classBody members)) :=
    alloc (by simp [NodeKind.children])
  exact hbody.bind fun body => pure (by grind [NodeKind.children])

end Constructs

namespace BuildCall

/-- A call on a draft that has the nodes it takes is not refused. -/
theorem constructs (call : BuildCall) : Constructs call.takes Option.toList call.run := by
  cases call with
  | alloc kind span => exact (Constructs.alloc (List.Subset.refl _) span).node
  | setSpan n span => exact (Constructs.setSpan n span).noNode
  | comment kind text span => exact (Constructs.comment kind text span).noNode
  | template quasis expressions =>
    refine ((Constructs.templateElements quasis).bind fun elements => .alloc ?_).node
    simp [NodeKind.children, takes]
  | property key value | methodProperty key value =>
    refine ((Constructs.identifier key).bind fun key => .alloc ?_).node
    simp [NodeKind.children, takes]
  | shorthandProperty name =>
    refine ((Constructs.identifier name).bind fun key =>
      (Constructs.identifier name).bind fun value => .alloc ?_).node
    simp [NodeKind.children]
  | shorthandDefault name default =>
    refine ((Constructs.identifier name).bind fun key =>
      (Constructs.identifier name).bind fun target =>
        (Constructs.alloc ?_).bind fun value => .alloc ?_).node
    · simp [NodeKind.children, takes]
    · simp [NodeKind.children]
  | functionExpression name params body | functionDeclaration name params body =>
    refine ((Constructs.function name params body).bind fun f => .alloc ?_).node
    exact List.subset_append_left _ _
  | arrowBlock params body =>
    refine ((Constructs.alloc ?_).bind fun block => .alloc ?_).node
    · simp [NodeKind.children, takes]
    · simp [NodeKind.children, takes]
  | classExpression name superClass members | classDeclaration name superClass members =>
    refine ((Constructs.classParts name superClass members).bind fun c => .alloc ?_).node
    exact List.subset_append_left _ _
  | member object key =>
    refine ((Constructs.identifier key).bind fun key => .alloc ?_).node
    simp [NodeKind.children, takes]
  | metaProperty object key =>
    refine ((Constructs.identifier object).bind fun object =>
      (Constructs.identifier key).bind fun key => .alloc ?_).node
    simp [NodeKind.children]
  | directive value =>
    refine ((Constructs.string value).bind fun expression => .alloc ?_).node
    simp [NodeKind.children]
  | labeled label body =>
    refine ((Constructs.identifier label).bind fun label => .alloc ?_).node
    simp [NodeKind.children, takes]
  | breakStatement label | continueStatement label =>
    refine ((Constructs.identifier? label).bind fun label => .alloc ?_).node
    simp [NodeKind.children, takes]
  | catchClause param body =>
    refine ((Constructs.alloc ?_).bind fun block => .alloc ?_).node
    · simp [NodeKind.children, takes]
    · simp [NodeKind.children, takes]
  | declare kind name init =>
    refine ((Constructs.identifier name).bind fun id =>
      (Constructs.alloc ?_).bind fun declarator => .alloc ?_).node
    · simp [NodeKind.children, takes]
    · simp [NodeKind.children]
  | method kind key value isStatic =>
    refine ((Constructs.identifier key).bind fun key => .alloc ?_).node
    simp [NodeKind.children, takes]
  | propertyDefinition key value isStatic =>
    refine ((Constructs.identifier key).bind fun key => .alloc ?_).node
    simp [NodeKind.children, takes]
  | importDeclaration specifiers source kind =>
    refine ((Constructs.string source).bind fun source => .alloc ?_).node
    simp [NodeKind.children, takes]
  | importSpecifier imported localName kind =>
    refine ((Constructs.identifier imported).bind fun imported =>
      (Constructs.identifier localName).bind fun localName => .alloc ?_).node
    simp [NodeKind.children]
  | importDefault localName | importNamespace localName =>
    refine ((Constructs.identifier localName).bind fun localName => .alloc ?_).node
    simp [NodeKind.children]
  | exportNamed declaration specifiers source =>
    refine ((Constructs.mapM_option Constructs.string source).bind fun source => .alloc ?_).node
    simp [NodeKind.children, takes]
  | exportSpecifier localName exported =>
    refine ((Constructs.identifier localName).bind fun localName =>
      (Constructs.identifier exported).bind fun exported => .alloc ?_).node
    simp [NodeKind.children]
  | exportAll exported source =>
    refine ((Constructs.identifier? exported).bind fun exported =>
      (Constructs.string source).bind fun source => .alloc ?_).node
    simp [NodeKind.children]

end BuildCall

/-- The calls in order, each with nodes that earlier ones have returned; the draft that they lead
to and the nodes that they return. -/
inductive Calls : List BuildCall → Draft → List NodeId → Prop
  | nil : Calls [] .empty []
  | snoc {calls : List BuildCall} {d d' : Draft} {returned : List NodeId} {call : BuildCall}
      {n? : Option NodeId} (before : Calls calls d returned) (takes : call.takes ⊆ returned)
      (run : call.run d = .ok (n?, d')) : Calls (calls ++ [call]) d' (returned ++ n?.toList)

namespace Calls

variable {calls : List BuildCall} {d d' : Draft} {returned : List NodeId} {call : BuildCall}

/-- The draft still has every node that was returned. -/
theorem has (h : Calls calls d returned) : d.Has returned := by
  induction h with
  | nil => simp [Draft.Has]
  | @snoc _ d _ _ call _ before takes run ih =>
    obtain ⟨a, d', hrun, hsize, hgives⟩ := call.constructs d fun n hn => ih n (takes hn)
    obtain ⟨rfl, rfl⟩ := Prod.mk.inj (Except.ok.inj (hrun.symm.trans run))
    exact Draft.has_append.2 ⟨ih.grow hsize, hgives⟩

theorem run_ok (h : Calls calls d returned) (htakes : call.takes ⊆ returned) :
    ∃ n? d', call.run d = .ok (n?, d') := by
  obtain ⟨n?, d', hrun, -⟩ := call.constructs d fun n hn => h.has n (htakes hn)
  exact ⟨n?, d', hrun⟩

theorem finish_ok (h : Calls calls d returned) {root : NodeId} (hroot : root ∈ returned) :
    ∃ t, d.finish root = .ok t ∧ t.nodes = d.nodes ∧ t.root = root :=
  ⟨_, dif_pos (h.has root hroot), rfl, rfl⟩

end Calls

namespace Tree

variable {t : Tree} {c n p : NodeId}

theorem pairwise_listersBefore (nodes : Array Node) (c : NodeId) (k : Nat) :
    (listersBefore nodes c k).Pairwise (·.index < ·.index) :=
  List.Pairwise.filter _ (List.pairwise_map.2 List.pairwise_lt_range)

/-- Only nodes of the tree are listed. -/
theorem listersBefore_eq_nil (hc : t.size ≤ c.index) :
    listersBefore t.nodes c t.nodes.size = [] := by
  rw [List.eq_nil_iff_forall_not_mem]
  intro p hp
  have hmem := mem_listersBefore_iff.1 hp
  have hlt := index_lt_of_mem_childrenOf hmem
  have hsize := index_lt_size_of_mem_childrenOf hmem
  omega

/-- The parent of a node is the last one that lists it. -/
theorem parent?_eq_getLast? (h : t.Linked) (hroot : c ≠ t.root) :
    t.parent? c = (listersBefore t.nodes c t.nodes.size).getLast? := by
  by_cases hc : c.index < t.size
  · rw [parent?_eq h hc, if_neg hroot]
  · rw [listersBefore_eq_nil (Nat.le_of_not_lt hc), List.getLast?_nil]
    cases hp : t.parent? c with
    | none => rfl
    | some p => exact absurd (index_lt_size_of_parent? h hp) hc

/-- Nodes are listed in the order of their numbers, so the last one to list a child has the largest.
-/
theorem index_le_of_getLast?_listersBefore {q : NodeId}
    (hlast : (listersBefore t.nodes c t.nodes.size).getLast? = some q)
    (hp : c ∈ t.childrenOf p) : p.index ≤ q.index := by
  obtain ⟨listers, hlisters⟩ := List.getLast?_eq_some_iff.1 hlast
  have hpairwise := pairwise_listersBefore t.nodes c t.nodes.size
  have hmem := mem_listersBefore_iff.2 hp
  rw [hlisters] at hpairwise hmem
  rcases List.mem_append.1 hmem with hmem | hmem
  · exact Nat.le_of_lt
      ((List.pairwise_append.1 hpairwise).2.2 p hmem q (List.mem_singleton_self q))
  · exact Nat.le_of_eq (congrArg NodeId.index (List.mem_singleton.1 hmem))

/-- The parent is the largest node that lists a node. -/
theorem parent?_eq_some_iff (h : t.Linked) (hroot : c ≠ t.root) :
    t.parent? c = some p ↔
      c ∈ t.childrenOf p ∧ ∀ q, c ∈ t.childrenOf q → q.index ≤ p.index := by
  rw [parent?_eq_getLast? h hroot]
  constructor
  · intro hlast
    exact ⟨mem_listersBefore_iff.1 (List.mem_of_getLast? hlast),
      fun q hq => index_le_of_getLast?_listersBefore hlast hq⟩
  · rintro ⟨hp, hlargest⟩
    cases hlast : (listersBefore t.nodes c t.nodes.size).getLast? with
    | none =>
      have hmem := mem_listersBefore_iff.2 hp
      rw [List.getLast?_eq_none_iff.1 hlast] at hmem
      cases hmem
    | some q =>
      have hq := mem_listersBefore_iff.1 (List.mem_of_getLast? hlast)
      have heq : q.index = p.index :=
        Nat.le_antisymm (hlargest q hq) (index_le_of_getLast?_listersBefore hlast hp)
      exact congrArg some (congrArg NodeId.mk heq)

theorem parent?_eq_none_iff (h : t.Linked) (hroot : c ≠ t.root) :
    t.parent? c = none ↔ ∀ p, c ∉ t.childrenOf p := by
  rw [parent?_eq_getLast? h hroot, List.getLast?_eq_none_iff, List.eq_nil_iff_forall_not_mem]
  simp only [mem_listersBefore_iff]

theorem parent?_root (h : t.Linked) : t.parent? t.root = none := by
  rw [parent?_eq h t.root_lt, if_pos rfl]

/-- Each ancestor lists the one before it. -/
theorem isChain_ancestors (h : t.Linked) (n : NodeId) :
    (n :: t.ancestors n).IsChain fun c p => c ∈ t.childrenOf p := by
  induction n using ancestors_induction h with
  | top n hn =>
    rw [ancestors_of_parent?_eq_none h hn]
    exact .singleton n
  | step n p hp ih =>
    rw [ancestors_of_parent? h hp]
    exact List.isChain_cons_cons.2 ⟨mem_childrenOf_of_parent? h hp, ih⟩

/-- Numbers grow along the ancestors. -/
theorem pairwise_ancestors (h : t.Linked) (n : NodeId) :
    (n :: t.ancestors n).Pairwise (·.index < ·.index) := by
  induction n using ancestors_induction h with
  | top n hn =>
    rw [ancestors_of_parent?_eq_none h hn]
    exact List.pairwise_singleton _ n
  | step n p hp ih =>
    refine List.pairwise_cons.2 ⟨fun q hq => index_lt_of_mem_ancestors h hq, ?_⟩
    rwa [ancestors_of_parent? h hp]

/-- On the way up nothing follows the root. -/
theorem eq_nil_of_ancestors_eq (h : t.Linked) {lower upper : List NodeId}
    (hup : n :: t.ancestors n = lower ++ t.root :: upper) : upper = [] := by
  induction n using ancestors_induction h generalizing lower with
  | top n hn =>
    rw [ancestors_of_parent?_eq_none h hn] at hup
    cases lower with
    | nil => exact (List.cons.inj hup).2.symm
    | cons x lower => simp at hup
  | step n p hp ih =>
    rw [ancestors_of_parent? h hp] at hup
    cases lower with
    | nil =>
      obtain ⟨rfl, -⟩ := List.cons.inj hup
      rw [parent?_root h] at hp
      cases hp
    | cons x lower => exact ih (List.cons.inj hup).2

end Tree

/-- After any calls the next one is not refused and every node returned can be the root. In the
finished tree the parent of a node is the largest node that lists it, children have smaller
numbers than whoever lists them, and every way up rises, from child to parent, as far as a node
without a parent; it does not go on past the root. -/
theorem links_of_calls {calls : List BuildCall} {d : Draft} {returned : List NodeId}
    (h : Calls calls d returned) :
    (∀ call : BuildCall, call.takes ⊆ returned → ∃ n? d', call.run d = .ok (n?, d')) ∧
    ∀ root ∈ returned, ∃ t, d.finish root = .ok t ∧ t.nodes = d.nodes ∧ t.root = root ∧
      t.parent? root = none ∧
      (∀ c p, c ≠ root → (t.parent? c = some p ↔
        c ∈ t.childrenOf p ∧ ∀ q, c ∈ t.childrenOf q → q.index ≤ p.index)) ∧
      (∀ c, c ≠ root → (t.parent? c = none ↔ ∀ p, c ∉ t.childrenOf p)) ∧
      (∀ p, ∀ c ∈ t.childrenOf p, c.index < p.index) ∧
      ∀ x, t.ancestors x = (t.parent? x).elim [] (fun p => p :: t.ancestors p) ∧
        (x :: t.ancestors x).Pairwise (·.index < ·.index) ∧
        (x :: t.ancestors x).Nodup ∧
        (x :: t.ancestors x).IsChain (fun c p => c ∈ t.childrenOf p) ∧
        ∀ lower upper, x :: t.ancestors x = lower ++ root :: upper → upper = [] := by
  refine ⟨fun call htakes => h.run_ok htakes, fun root hroot => ?_⟩
  obtain ⟨t, hfinish, hnodes, rfl⟩ := h.finish_ok hroot
  have hlinked : t.Linked := Tree.linked_of_finish hfinish
  refine ⟨t, hfinish, hnodes, rfl, Tree.parent?_root hlinked,
    fun c p hc => Tree.parent?_eq_some_iff hlinked hc,
    fun c hc => Tree.parent?_eq_none_iff hlinked hc,
    fun p c hc => Tree.index_lt_of_mem_childrenOf hc, fun x => ?_⟩
  have hpairwise := Tree.pairwise_ancestors hlinked x
  refine ⟨Tree.ancestors_eq hlinked x, hpairwise, ?_, Tree.isChain_ancestors hlinked x,
    fun lower upper hup => Tree.eq_nil_of_ancestors_eq hlinked hup⟩
  exact hpairwise.imp fun hlt heq => Nat.ne_of_lt hlt (congrArg NodeId.index heq)

/-- `x` stands in a member of an object and once more beside the object. -/
def sharedOperand : List BuildCall :=
  [.alloc (.identifier "x") {}, .property "k" ⟨0⟩, .alloc (.objectExpression [⟨2⟩]) {},
    .alloc (.sequenceExpression [⟨0⟩, ⟨3⟩]) {}]

theorem calls_sharedOperand :
    ∃ d, Calls sharedOperand d [⟨0⟩, ⟨2⟩, ⟨3⟩, ⟨4⟩] ∧
      d.nodes.toList.map (·.kind.children) = [[], [], [⟨1⟩, ⟨0⟩], [⟨2⟩], [⟨0⟩, ⟨3⟩]] := by
  have h₁ := Calls.nil.snoc
    (show (BuildCall.alloc (.identifier "x") {}).takes ⊆ [] by decide) rfl
  have h₂ := h₁.snoc (show (BuildCall.property "k" ⟨0⟩).takes ⊆ _ by decide) rfl
  have h₃ := h₂.snoc (show (BuildCall.alloc (.objectExpression [⟨2⟩]) {}).takes ⊆ _ by decide) rfl
  have h₄ := h₃.snoc
    (show (BuildCall.alloc (.sequenceExpression [⟨0⟩, ⟨3⟩]) {}).takes ⊆ _ by decide) rfl
  exact ⟨_, h₄, rfl⟩

theorem links_of_calls_sharedOperand :
    ∃ d t, Calls sharedOperand d [⟨0⟩, ⟨2⟩, ⟨3⟩, ⟨4⟩] ∧ d.finish ⟨4⟩ = .ok t ∧
      t.parent? ⟨0⟩ = some ⟨4⟩ ∧ t.parent? ⟨4⟩ = none := by
  obtain ⟨d, h, hchildren⟩ := calls_sharedOperand
  obtain ⟨t, hfinish, hnodes, -, hroot, hparent, -⟩ := (links_of_calls h).2 ⟨4⟩ (by simp)
  have hsize : t.size = 5 := by
    simpa [Tree.size, hnodes] using congrArg List.length hchildren
  have hlisted : t.childrenOf ⟨4⟩ = [⟨0⟩, ⟨3⟩] := by
    have hget : t.nodes[4]?.map (·.kind.children) = some [⟨0⟩, ⟨3⟩] := by
      rw [hnodes, ← Array.getElem?_toList, ← List.getElem?_map, hchildren]
      rfl
    obtain ⟨node, hnode, hkind⟩ := Option.map_eq_some_iff.1 hget
    simp [Tree.childrenOf, Tree.kind?, Tree.node?, hnode, hkind]
  refine ⟨d, t, h, hfinish, (hparent ⟨0⟩ ⟨4⟩ (by decide)).2 ⟨by simp [hlisted], fun q hq => ?_⟩,
    hroot⟩
  have hlt := Tree.index_lt_size_of_mem_childrenOf hq
  rw [hsize] at hlt
  exact Nat.le_of_lt_succ hlt

end LexicalScope
