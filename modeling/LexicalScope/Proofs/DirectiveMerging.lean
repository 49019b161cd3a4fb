import LexicalScope.Proofs.ImplicitGlobals
import LexicalScope.Proofs.InlineSettings
import Mathlib.Data.List.Sort

/-!
Directives of several comments. What the block comments list forms one sequence, in which a name
may come again, in the same comment or in a later one. A name keeps its first place and takes its
last value, a global remembers each comment that lists it once, and an export its last comment.
-/
namespace LexicalScope

namespace OrderedMap

variable {κ α : Type} [DecidableEq κ] {entries : List (κ × α)} {k : κ} {v : α}

omit [DecidableEq κ] in
/-- The last entry for `k` has the value `v`. -/
def IsLast (entries : List (κ × α)) (k : κ) (v : α) : Prop :=
  ∃ before after, entries = before ++ (k, v) :: after ∧ k ∉ after.map (·.1)

/-- One more entry is the last one of its key. -/
theorem isLast_concat {e : κ × α} :
    IsLast (entries ++ [e]) k v ↔ if k = e.1 then e.2 = v else IsLast entries k v := by
  constructor
  · rintro ⟨before, after, hentries, hafter⟩
    rcases List.eq_nil_or_concat' after with rfl | ⟨after, last, rfl⟩
    · obtain ⟨-, heq⟩ := List.append_inj' hentries rfl
      obtain rfl := List.singleton_injective heq
      rw [if_pos rfl]
    · rw [← List.cons_append, ← List.append_assoc] at hentries
      obtain ⟨rfl, heq⟩ := List.append_inj' hentries rfl
      obtain rfl := List.singleton_injective heq
      rw [List.map_append, List.mem_append, not_or] at hafter
      have hk : k ≠ e.1 := fun heq => hafter.2 (heq ▸ List.mem_singleton_self _)
      rw [if_neg hk]
      exact ⟨before, after, rfl, hafter.1⟩
  · split
    · next hk =>
      rintro rfl
      exact ⟨entries, [], by rw [hk], List.not_mem_nil⟩
    · next hk =>
      rintro ⟨before, after, rfl, hafter⟩
      refine ⟨before, after ++ [e], by simp, ?_⟩
      simpa using ⟨by simpa using hafter, hk⟩

/-- The keys of the entries, each once, in the order of their first entries. -/
theorem keys_ofList (entries : List (κ × α)) :
    (ofList entries).keys = (entries.map (·.1)).eraseDups := by
  induction entries using List.reverseRecOn with
  | nil => rfl
  | append_singleton entries e ih =>
    rw [ofList_concat, keys_insert, ih, List.map_append, List.map_singleton,
      ScopeGraph.eraseDups_concat, ScopeGraph.addName]

/-- A map made of entries has the last value of each key. -/
theorem get?_ofList_eq_some_iff : (ofList entries).get? k = some v ↔ IsLast entries k v := by
  induction entries using List.reverseRecOn with
  | nil => simp [ofList, get?_empty, IsLast]
  | append_singleton entries e ih =>
    rw [ofList_concat, get?_insert, isLast_concat]
    split
    · exact Option.some_inj
    · exact ih

theorem exists_isLast (h : (k, v) ∈ entries) : ∃ v', IsLast entries k v' := by
  have hmem : k ∈ (ofList entries).keys := by
    rw [keys_ofList, List.mem_eraseDups]
    exact List.mem_map_of_mem h
  obtain ⟨v', hv'⟩ := Option.isSome_iff_exists.1 ((mem_keys_iff ..).1 hmem)
  exact ⟨v', get?_ofList_eq_some_iff.1 hv'⟩

end OrderedMap

namespace Comment

/-- The globals that a comment lists; a line comment lists none. -/
def globalEntries (c : Comment) : List (String × GlobalValue) :=
  match c.isBlock, Directive.ofComment? c.text with
  | true, some (.globals entries) => entries
  | _, _ => []

/-- The names that a comment exports; a line comment exports none. -/
def exportedNames (c : Comment) : List String :=
  match c.isBlock, Directive.ofComment? c.text with
  | true, some (.exported names) => names
  | _, _ => []

end Comment

/-- What the comments list, item by item, with the numbers of the comments. -/
def numbered {α : Type} (listed : Comment → List α) (comments : List Comment) :
    List (α × CommentId) :=
  comments.zipIdx.flatMap fun entry => (listed entry.1).map (·, ⟨entry.2⟩)

section Numbered

theorem pairwise_zipIdx {α : Type} (l : List α) : l.zipIdx.Pairwise (·.2 < ·.2) := by
  rw [← List.pairwise_map (f := Prod.snd), List.zipIdx_map_snd]
  exact List.pairwise_lt_range'

variable {α : Type} (listed : Comment → List α) (comments : List Comment)

theorem map_fst_numbered : (numbered listed comments).map (·.1) = comments.flatMap listed := by
  have hitems (entry : Comment × Nat) :
      ((listed entry.1).map fun x => (x, (⟨entry.2⟩ : CommentId))).map (·.1) = listed entry.1 := by
    rw [List.map_map]
    exact List.map_id _
  rw [numbered, List.map_flatMap]
  simp only [hitems]
  rw [← List.flatMap_map Prod.fst listed, List.zipIdx_map_fst]

/-- An item has the number of the comment that lists it. -/
theorem mem_numbered {x : α} {id : CommentId} : (x, id) ∈ numbered listed comments ↔
    ∃ c, comments[id.index]? = some c ∧ x ∈ listed c := by
  simp only [numbered, List.mem_flatMap, List.mem_map, Prod.mk.injEq, Prod.exists,
    List.mem_zipIdx_iff_getElem?]
  constructor
  · rintro ⟨c, i, hc, _, hx, rfl, rfl⟩
    exact ⟨c, hc, hx⟩
  · rintro ⟨c, hc, hx⟩
    exact ⟨c, id.index, hc, x, hx, rfl, rfl⟩

/-- Later items are not from earlier comments. -/
theorem pairwise_numbered :
    (numbered listed comments).Pairwise (·.2.index ≤ ·.2.index) := by
  refine List.pairwise_flatMap.2 ⟨fun entry _ => ?_,
    (pairwise_zipIdx comments).imp fun {entry later} hlt => ?_⟩
  · exact List.pairwise_map.2 (List.pairwise_of_forall fun _ _ => Nat.le_refl _)
  · intro x hx y hy
    obtain ⟨_, -, rfl⟩ := List.mem_map.1 hx
    obtain ⟨_, -, rfl⟩ := List.mem_map.1 hy
    exact Nat.le_of_lt hlt

end Numbered

namespace DirectiveTable

/-- A comment adds what it lists and what it exports, item by item. -/
theorem addComment_eq (d : DirectiveTable) (c : Comment) (i : Nat) :
    d.addComment (c, i) =
      { globals := (c.globalEntries.map (·, (⟨i⟩ : CommentId))).foldl
          (fun m x => addGlobal x.2 m x.1) d.globals
        exported := (c.exportedNames.map (·, (⟨i⟩ : CommentId))).foldl
          (fun m x => m.insert x.1 x.2) d.exported } := by
  rw [List.foldl_map, List.foldl_map, addComment, Comment.globalEntries, Comment.exportedNames]
  dsimp only
  cases c.isBlock with
  | false => rfl
  | true =>
    rw [if_pos rfl]
    cases Directive.ofComment? c.text with
    | none => rfl
    | some directive => cases directive <;> rfl

variable (comments : Array Comment)

/-- The globals are entered item by item, as the comments come. -/
theorem globals_ofComments : (ofComments comments).globals =
    (numbered Comment.globalEntries comments.toList).foldl (fun m x => addGlobal x.2 m x.1) {} := by
  rw [numbered, List.foldl_flatMap, ofComments]
  exact (List.foldl_hom globals fun d entry =>
    congrArg globals (addComment_eq d entry.1 entry.2).symm).symm

/-- The exports are entered item by item, as the comments come. -/
theorem exported_ofComments : (ofComments comments).exported =
    OrderedMap.ofList (numbered Comment.exportedNames comments.toList) := by
  rw [OrderedMap.ofList, numbered, List.foldl_flatMap, ofComments]
  exact (List.foldl_hom exported fun d entry =>
    congrArg exported (addComment_eq d entry.1 entry.2).symm).symm

end DirectiveTable

/-- The comments of a global are those with property `p`, each once and in ascending order. -/
structure InlineGlobal.ListedBy (g : InlineGlobal) (p : CommentId → Prop) : Prop where
  ascending : g.comments.Pairwise (·.index < ·.index)
  mem_iff : ∀ id, id ∈ g.comments ↔ p id

namespace InlineGlobal.ListedBy

variable {g : InlineGlobal} {p p' : CommentId → Prop}

theorem congr (h : g.ListedBy p) (hp : ∀ id, p id ↔ p' id) : g.ListedBy p' :=
  ⟨h.ascending, fun id => (h.mem_iff id).trans (hp id)⟩

theorem first (value : GlobalValue) (c : CommentId) :
    (⟨value, [c]⟩ : InlineGlobal).ListedBy (· = c) :=
  ⟨List.pairwise_singleton _ _, fun _ => List.mem_singleton⟩

/-- The comments that list a name determine their list. -/
theorem comments_eq {g' : InlineGlobal} (h : g.ListedBy p) (h' : g'.ListedBy p) :
    g.comments = g'.comments := by
  have : Std.Irrefl fun c c' : CommentId => c.index < c'.index := ⟨fun _ => Nat.lt_irrefl _⟩
  have : Std.Antisymm fun c c' : CommentId => c.index < c'.index :=
    ⟨fun _ _ hlt hgt => absurd hgt (Nat.lt_asymm hlt)⟩
  exact h.ascending.eq_of_mem_iff h'.ascending fun id => (h.mem_iff id).trans (h'.mem_iff id).symm

/-- A comment that none of the others comes after is the last one listed. -/
theorem getLast?_eq (h : g.ListedBy p) {id : CommentId} (hid : p id)
    (hle : ∀ other, p other → other.index ≤ id.index) : g.comments.getLast? = some id := by
  obtain ⟨before, after, hcomments⟩ := List.append_of_mem ((h.mem_iff id).2 hid)
  cases after with
  | nil => rw [hcomments, List.getLast?_concat]
  | cons later after =>
    have hlater := hle later ((h.mem_iff later).1 (by simp [hcomments]))
    have hascending := (List.pairwise_append.1 (hcomments ▸ h.ascending)).2.1
    have hlt := List.rel_of_pairwise_cons hascending (List.mem_cons_self ..)
    omega

/-- One more comment, which may be the last one listed but is not before it. -/
theorem again (h : g.ListedBy p) (value : GlobalValue) {c : CommentId}
    (hle : ∀ id, p id → id.index ≤ c.index) :
    (g.again value c).ListedBy fun id => p id ∨ id = c := by
  by_cases hlast : g.comments.getLast? = some c
  · have hagain : (g.again value c).comments = g.comments := if_pos hlast
    have hc : p c := (h.mem_iff c).1 (List.mem_of_getLast? hlast)
    refine ⟨hagain ▸ h.ascending, fun id => ?_⟩
    rw [hagain, h.mem_iff]
    exact ⟨.inl, fun hid => hid.elim (fun hid => hid) fun heq => heq ▸ hc⟩
  · have hagain : (g.again value c).comments = g.comments ++ [c] := if_neg hlast
    refine ⟨?_, fun id => ?_⟩
    · rw [hagain, List.pairwise_append]
      refine ⟨h.ascending, List.pairwise_singleton _ _, fun id hid c' hc' => ?_⟩
      obtain rfl := List.mem_singleton.1 hc'
      have hid := (h.mem_iff id).1 hid
      refine Nat.lt_of_le_of_ne (hle id hid) fun heq => hlast ?_
      obtain rfl : id = c' := congrArg CommentId.mk heq
      exact h.getLast?_eq hid hle
    · rw [hagain, List.mem_append, List.mem_singleton, h.mem_iff]

end InlineGlobal.ListedBy

namespace DirectiveTable

/-- Of the items so far, each global lists the comments that name it. -/
structure Attributes (items : List ((String × GlobalValue) × CommentId))
    (globals : OrderedMap String InlineGlobal) : Prop where
  known : ∀ {name value id}, ((name, value), id) ∈ items → (globals.get? name).isSome
  listed : ∀ {name g}, globals.get? name = some g →
    g.ListedBy fun id => ∃ value, ((name, value), id) ∈ items

variable {items : List ((String × GlobalValue) × CommentId)}
  {globals : OrderedMap String InlineGlobal}

/-- One more item, from a comment that is not before those so far. -/
theorem Attributes.addGlobal (h : Attributes items globals) {c : CommentId}
    (hle : ∀ x ∈ items, x.2.index ≤ c.index) (entry : String × GlobalValue) :
    Attributes (items ++ [(entry, c)]) (addGlobal c globals entry) := by
  obtain ⟨name, value⟩ := entry
  have hget (name' : String) : (DirectiveTable.addGlobal c globals (name, value)).get? name' =
      if name' = name then
        some (((globals.get? name).map (·.again value c)).getD ⟨value, [c]⟩)
      else globals.get? name' := OrderedMap.get?_insert ..
  have hitem (name' : String) (id : CommentId) :
      (∃ v, ((name', v), id) ∈ items ++ [((name, value), c)]) ↔
        (∃ v, ((name', v), id) ∈ items) ∨ name' = name ∧ id = c := by
    simp [exists_or]
  refine ⟨fun {name' v id} hmem => ?_, fun {name' g} hg => ?_⟩
  · rw [hget]
    split
    · rfl
    · next hne =>
      obtain ⟨v, hv⟩ := ((hitem name' id).1 ⟨v, hmem⟩).resolve_right fun heq => hne heq.1
      exact h.known hv
  · rw [hget] at hg
    split at hg
    · next heq =>
      subst heq
      obtain rfl := Option.some.inj hg
      cases hold : globals.get? name' with
      | none =>
        refine (InlineGlobal.ListedBy.first value c).congr fun id => ?_
        have hnone : ¬∃ v, ((name', v), id) ∈ items := by
          rintro ⟨v, hv⟩
          have hsome := h.known hv
          rw [hold] at hsome
          cases hsome
        rw [hitem, or_iff_right hnone, and_iff_right rfl]
      | some old =>
        refine ((h.listed hold).again value fun id ⟨v, hv⟩ => hle _ hv).congr fun id => ?_
        rw [hitem, and_iff_right rfl]
    · next hne =>
      refine (h.listed hg).congr fun id => ?_
      rw [hitem, or_iff_left fun heq => hne heq.1]

/-- All items, in the order of their comments. -/
theorem attributes_foldl (h : items.Pairwise (·.2.index ≤ ·.2.index)) :
    Attributes items (items.foldl (fun m x => addGlobal x.2 m x.1) {}) := by
  induction items using List.reverseRecOn with
  | nil => exact ⟨(nomatch ·), (nomatch ·)⟩
  | append_singleton items x ih =>
    obtain ⟨hitems, -, hle⟩ := List.pairwise_append.1 h
    rw [List.foldl_append]
    exact (ih hitems).addGlobal (fun y hy => hle y hy x (List.mem_singleton_self x)) x.1

/-- But for its comments, a global is what its last item makes of it. -/
theorem projects_foldl (items : List ((String × GlobalValue) × CommentId)) :
    OrderedMap.Projects InlineGlobal.value (items.foldl (fun m x => addGlobal x.2 m x.1) {})
      (OrderedMap.ofList (items.map (·.1))) := by
  induction items using List.reverseRecOn with
  | nil => exact .empty _
  | append_singleton items x ih =>
    rw [List.foldl_append, List.map_append, List.map_singleton, OrderedMap.ofList_concat]
    exact projects_addGlobal ih x.2 x.1

/-- In a sequence that never goes back to an earlier comment, the last one is the greatest. -/
theorem isLast_iff_of_pairwise {exports : List (String × CommentId)}
    (h : exports.Pairwise (·.2.index ≤ ·.2.index)) {name : String} {id : CommentId} :
    OrderedMap.IsLast exports name id ↔
      (name, id) ∈ exports ∧ ∀ id', (name, id') ∈ exports → id'.index ≤ id.index := by
  have hgreatest {id : CommentId} (hlast : OrderedMap.IsLast exports name id) :
      (name, id) ∈ exports ∧ ∀ id', (name, id') ∈ exports → id'.index ≤ id.index := by
    obtain ⟨before, after, rfl, hafter⟩ := hlast
    refine ⟨by simp, fun id' hid' => ?_⟩
    rcases List.mem_append.1 hid' with hid' | hid'
    · exact (List.pairwise_append.1 h).2.2 _ hid' _ (List.mem_cons_self ..)
    · rcases List.mem_cons.1 hid' with heq | hid'
      · exact Nat.le_of_eq (congrArg (·.2.index) heq)
      · exact absurd (List.mem_map_of_mem hid') hafter
  refine ⟨hgreatest, fun ⟨hmem, hle⟩ => ?_⟩
  obtain ⟨id', hlast⟩ := OrderedMap.exists_isLast hmem
  obtain ⟨hmem', hle'⟩ := hgreatest hlast
  obtain rfl : id = id' := congrArg CommentId.mk (Nat.le_antisymm (hle' id hmem) (hle id' hmem'))
  exact hlast

section OfComments

variable (comments : Array Comment) (name : String)

/-- Names are listed where they first occur. -/
theorem keys_globals_ofComments : (ofComments comments).globals.keys =
    ((comments.toList.flatMap Comment.globalEntries).map (·.1)).eraseDups := by
  rw [globals_ofComments, ← (projects_foldl _).keys, OrderedMap.keys_ofList, map_fst_numbered]

/-- A global has its last value and the comments that list it. -/
theorem get?_globals_ofComments (g : InlineGlobal) :
    (ofComments comments).globals.get? name = some g ↔
      OrderedMap.IsLast (comments.toList.flatMap Comment.globalEntries) name g.value ∧
      g.ListedBy fun id => ∃ c, comments[id.index]? = some c ∧
        ∃ value, (name, value) ∈ c.globalEntries := by
  have hprojects := (projects_foldl (numbered Comment.globalEntries comments.toList)).get? name
  rw [← globals_ofComments, map_fst_numbered] at hprojects
  have hlisted {g : InlineGlobal} (hg : (ofComments comments).globals.get? name = some g) :
      g.ListedBy fun id => ∃ c, comments[id.index]? = some c ∧
        ∃ value, (name, value) ∈ c.globalEntries := by
    rw [globals_ofComments] at hg
    refine ((attributes_foldl (pairwise_numbered ..)).listed hg).congr fun id => ?_
    simp only [mem_numbered, Array.getElem?_toList]
    exact ⟨fun ⟨value, c, hc, hvalue⟩ => ⟨c, hc, value, hvalue⟩,
      fun ⟨c, hc, value, hvalue⟩ => ⟨value, c, hc, hvalue⟩⟩
  constructor
  · intro hg
    rw [hg, Option.map_some] at hprojects
    exact ⟨OrderedMap.get?_ofList_eq_some_iff.1 hprojects, hlisted hg⟩
  · rintro ⟨hlast, hlist⟩
    rw [OrderedMap.get?_ofList_eq_some_iff.2 hlast, eq_comm, Option.map_eq_some_iff] at hprojects
    obtain ⟨g', hg', hvalue⟩ := hprojects
    have hcomments := (hlisted hg').comments_eq hlist
    obtain ⟨value, list⟩ := g
    obtain ⟨value', list'⟩ := g'
    obtain rfl : value' = value := hvalue
    obtain rfl : list' = list := hcomments
    exact hg'

theorem keys_exported_ofComments : (ofComments comments).exported.keys =
    (comments.toList.flatMap Comment.exportedNames).eraseDups := by
  rw [exported_ofComments, OrderedMap.keys_ofList, map_fst_numbered]

/-- An export has the last comment that exports it. -/
theorem get?_exported_ofComments (id : CommentId) :
    (ofComments comments).exported.get? name = some id ↔
      (∃ c, comments[id.index]? = some c ∧ name ∈ c.exportedNames) ∧
      ∀ i c, comments[i]? = some c → name ∈ c.exportedNames → i ≤ id.index := by
  rw [exported_ofComments, OrderedMap.get?_ofList_eq_some_iff,
    isLast_iff_of_pairwise (pairwise_numbered ..)]
  simp only [mem_numbered, Array.getElem?_toList]
  exact and_congr_right fun _ => ⟨fun h i c hc hname => h ⟨i⟩ ⟨c, hc, hname⟩,
    fun h id' ⟨c, hc, hname⟩ => h id'.index c hc hname⟩

end OfComments

end DirectiveTable

/-- The globals of all comments are the names listed, in the order of their first places. Each has
its last value and lists the comments that name it, by their places among all comments. The exports
are the names exported, in the same order, each with the last comment that exports it. A line
comment neither lists nor exports a name. -/
theorem ofComments_merges (comments : Array Comment) :
    (DirectiveTable.ofComments comments).globals.keys =
      ((comments.toList.flatMap Comment.globalEntries).map (·.1)).eraseDups ∧
    (∀ name g, (DirectiveTable.ofComments comments).globals.get? name = some g ↔
      OrderedMap.IsLast (comments.toList.flatMap Comment.globalEntries) name g.value ∧
      g.ListedBy fun id => ∃ c, comments[id.index]? = some c ∧
        ∃ value, (name, value) ∈ c.globalEntries) ∧
    (DirectiveTable.ofComments comments).exported.keys =
      (comments.toList.flatMap Comment.exportedNames).eraseDups ∧
    (∀ name id, (DirectiveTable.ofComments comments).exported.get? name = some id ↔
      (∃ c, comments[id.index]? = some c ∧ name ∈ c.exportedNames) ∧
      ∀ i c, comments[i]? = some c → name ∈ c.exportedNames → i ≤ id.index) ∧
    ∀ c : Comment, c.isBlock = false → c.globalEntries = [] ∧ c.exportedNames = [] := by
  refine ⟨DirectiveTable.keys_globals_ofComments comments,
    DirectiveTable.get?_globals_ofComments comments,
    DirectiveTable.keys_exported_ofComments comments,
    DirectiveTable.get?_exported_ofComments comments, fun c hc => ?_⟩
  rw [Comment.globalEntries, Comment.exportedNames, hc]
  exact ⟨rfl, rfl⟩

/-- A name listed twice in the first comment, in a line comment and in the last one. -/
example : (DirectiveTable.ofComments #[⟨.block, "global a, b:off, a:true", {}⟩,
    ⟨.line, "global a", {}⟩, ⟨.block, "globals c, a:off -- all", {}⟩]).globals.toList =
      [("a", ⟨.off, [⟨0⟩, ⟨2⟩]⟩), ("b", ⟨.off, [⟨0⟩]⟩), ("c", ⟨.readonly, [⟨2⟩]⟩)] := by
  decide +kernel

end LexicalScope
