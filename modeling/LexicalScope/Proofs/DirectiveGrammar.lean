import LexicalScope.Proofs.DirectiveText
import Mathlib.Data.List.DropRight
import Mathlib.Data.List.TakeWhile

/-!
The grammar of directives, said apart from the scanner that reads them. A description begins at its
first place, white space around a part does not count, commas separate the entries, and whatever
is no entry is passed over. The scanner finds exactly what the grammar allows, and a text without
its description has no other.
-/
namespace LexicalScope

/-- `t` is `s` without the white space around it. -/
structure IsTrimmed (s t : List Char) : Prop where
  around : ∃ left right, s = left ++ (t ++ right) ∧ (∀ c ∈ left, isWhiteSpace c) ∧
    ∀ c ∈ right, isWhiteSpace c
  head : ∀ c ∈ t.head?, isWhiteSpace c = false
  last : ∀ c ∈ t.getLast?, isWhiteSpace c = false

section Trim

variable {s t : List Char}

theorem IsTrimmed.isInfix (h : IsTrimmed s t) : t <:+: s := by
  obtain ⟨left, right, rfl, -⟩ := h.around
  exact ⟨left, right, List.append_assoc ..⟩

theorem trimLeft_append_of_blank {left : List Char} (h : ∀ c ∈ left, isWhiteSpace c)
    (s : List Char) : trimLeft (left ++ s) = trimLeft s :=
  List.dropWhile_append_of_pos h

theorem trimLeft_eq_nil (h : ∀ c ∈ s, isWhiteSpace c) : trimLeft s = [] :=
  List.dropWhile_eq_nil_iff.2 h

theorem trimRight_append_of_blank {right : List Char} (h : ∀ c ∈ right, isWhiteSpace c)
    (s : List Char) : trimRight (s ++ right) = trimRight s := by
  rw [trimRight, List.reverse_append,
    List.dropWhile_append_of_pos fun c hc => h c (List.mem_reverse.1 hc), trimRight]

theorem trimRight_eq_self (h : ∀ c ∈ s.getLast?, isWhiteSpace c = false) : trimRight s = s := by
  refine List.rdropWhile_eq_self_iff.2 fun hne hlast => ?_
  rw [h _ (List.getLast?_eq_some_getLast hne)] at hlast
  cases hlast

/-- Trimming takes the longest stretch of white space at either end. -/
theorem isTrimmed_trim (s : List Char) : IsTrimmed s (trim s) where
  around := by
    refine ⟨s.takeWhile isWhiteSpace, (trimLeft s).rtakeWhile isWhiteSpace, ?_,
      fun c hc => List.mem_takeWhile_imp hc, fun c hc => List.mem_rtakeWhile_imp hc⟩
    have hright : trim s ++ (trimLeft s).rtakeWhile isWhiteSpace = trimLeft s :=
      List.rdropWhile_append_rtakeWhile ..
    rw [hright]
    exact List.takeWhile_append_dropWhile.symm
  head c hc := by
    obtain ⟨rest, hrest⟩ : trim s <+: trimLeft s := List.rdropWhile_prefix isWhiteSpace _
    obtain ⟨tail, htail⟩ := List.head?_eq_some_iff.1 hc
    have hhead := List.head?_dropWhile_not isWhiteSpace s
    rw [← trimLeft, ← hrest, htail] at hhead
    exact hhead
  last c hc := by
    have hne : trim s ≠ [] := by
      intro hnil
      rw [hnil] at hc
      cases hc
    rw [List.getLast?_eq_some_getLast hne] at hc
    obtain rfl := Option.some.inj hc
    exact Bool.not_eq_true _ ▸ List.rdropWhile_last_not isWhiteSpace _ hne

/-- Trimming by the grammar is the trimming of the scanner. -/
theorem isTrimmed_iff : IsTrimmed s t ↔ trim s = t := by
  constructor
  · intro h
    obtain ⟨left, right, rfl, hleft, hright⟩ := h.around
    rw [trim, trimLeft_append_of_blank hleft]
    cases t with
    | nil => rw [List.nil_append, trimLeft_eq_nil hright]; rfl
    | cons c t =>
      rw [List.cons_append, trimLeft_cons (h.head c rfl), ← List.cons_append,
        trimRight_append_of_blank hright, trimRight_eq_self h.last]
  · rintro rfl
    exact isTrimmed_trim s

theorem trim_trim (s : List Char) : trim (trim s) = trim s :=
  isTrimmed_iff.1 ⟨⟨[], [], by simp, List.forall_mem_nil _, List.forall_mem_nil _⟩,
    (isTrimmed_trim s).head, (isTrimmed_trim s).last⟩

end Trim

namespace Directive

/-- White space, two or more dashes and white space stand at the front. -/
def OpensDescription (s : List Char) : Prop :=
  ∃ blank dashes after rest, s = blank :: (List.replicate dashes '-' ++ after :: rest) ∧
    isWhiteSpace blank ∧ 2 ≤ dashes ∧ isWhiteSpace after

/-- `t` is what stands in `s` before the first description, or all of `s`. -/
structure IsCut (s t : List Char) : Prop where
  split : ∃ rest, s = t ++ rest ∧ (rest = [] ∨ OpensDescription rest)
  first : ∀ front rest, s = front ++ rest → OpensDescription rest → t.length ≤ front.length

/-- `parts` are what stands between the commas of `s`. -/
structure IsSeparated (s : List Char) (parts : List (List Char)) : Prop where
  nonempty : parts ≠ []
  apart : ∀ part ∈ parts, ',' ∉ part
  joined : [','].intercalate parts = s

/-- The values are those that the parts spell when they are trimmed, in their order. -/
inductive Accepts {α : Type} (spells : List Char → α → Prop) : List (List Char) → List α → Prop
  | nil : Accepts spells [] []
  | take {part t : List Char} {x : α} {parts : List (List Char)} {xs : List α}
      (ht : IsTrimmed part t) (hx : spells t x) (h : Accepts spells parts xs) :
      Accepts spells (part :: parts) (x :: xs)
  | skip {part t : List Char} {parts : List (List Char)} {xs : List α}
      (ht : IsTrimmed part t) (hnone : ∀ x, ¬spells t x) (h : Accepts spells parts xs) :
      Accepts spells (part :: parts) xs

/-- An identifier name by the tables of identifier characters. -/
def IsName (s : List Char) : Prop :=
  ∃ first rest, s = first :: rest ∧ (first = '$' ∨ first = '_' ∨ Unicode.isXidStart first) ∧
    ∀ c ∈ rest, c = '$' ∨ Unicode.isXidContinue c

/-- What a spelled value sets; every unknown spelling sets readonly. -/
inductive SpellsValue : String → GlobalValue → Prop
  | off : SpellsValue "off" .off
  | writable {s : String} (h : s ∈ ["true", "writable", "writeable"]) : SpellsValue s .writable
  | readonly {s : String} (h : s ∉ ["off", "true", "writable", "writeable"]) :
      SpellsValue s .readonly

/-- A name alone, or a name, a colon at once, and a value without white space inside. -/
inductive SpellsGlobal : List Char → String × GlobalValue → Prop
  | name {name : List Char} (hname : IsName name) :
      SpellsGlobal name (String.ofList name, .readonly)
  | valued {name blanks value : List Char} {v : GlobalValue} (hname : IsName name)
      (hblanks : ∀ c ∈ blanks, isWhiteSpace c) (hne : value ≠ [])
      (hvalue : ∀ c ∈ value, isWhiteSpace c = false) (hv : SpellsValue (String.ofList value) v) :
      SpellsGlobal (name ++ ':' :: (blanks ++ value)) (String.ofList name, v)

def SpellsExport (s : List Char) (name : String) : Prop :=
  IsName s ∧ String.ofList s = name

/-- Without description and trimmed, the text is the keyword, white space and `rest`. -/
def HasBody (text keyword : String) (rest : List Char) : Prop :=
  ∃ s t blank, IsCut text.toList s ∧ IsTrimmed s t ∧ isWhiteSpace blank ∧
    t = keyword.toList ++ blank :: rest

/-- The directive that the text of a block comment stands for. -/
inductive Denotes (text : String) : Directive → Prop
  | globals {keyword : String} {rest : List Char} {parts : List (List Char)}
      {entries : List (String × GlobalValue)} (hkeyword : keyword ∈ ["global", "globals"])
      (hbody : HasBody text keyword rest) (hparts : IsSeparated rest parts)
      (hentries : Accepts SpellsGlobal parts entries) : Denotes text (.globals entries)
  | exported {rest : List Char} {parts : List (List Char)} {names : List String}
      (hother : ∀ keyword ∈ ["global", "globals"], ∀ rest, ¬HasBody text keyword rest)
      (hbody : HasBody text "exported" rest) (hparts : IsSeparated rest parts)
      (hnames : Accepts SpellsExport parts names) : Denotes text (.exported names)

section Description

/-- A scan for the dashes stops at the first other character. -/
theorem beginsDescription_iff {s : List Char} :
    beginsDescription s ↔ ∃ dashes after rest,
      s = List.replicate dashes '-' ++ after :: rest ∧ 2 ≤ dashes ∧ isWhiteSpace after := by
  rw [beginsDescription, Bool.and_eq_true, decide_eq_true_eq]
  constructor
  · rintro ⟨hdashes, hafter⟩
    obtain ⟨after, hhead, hblank⟩ := Option.any_eq_true _ _ |>.1 hafter
    obtain ⟨rest, hrest⟩ := List.head?_eq_some_iff.1 hhead
    refine ⟨_, after, rest, ?_, hdashes, hblank⟩
    have hall : ∀ c ∈ s.takeWhile (· = '-'), c = '-' := fun c hc =>
      of_decide_eq_true (List.mem_takeWhile_imp (p := (· = '-')) hc)
    rw [← hrest, ← List.eq_replicate_of_mem hall, List.takeWhile_append_dropWhile]
  · rintro ⟨dashes, after, rest, rfl, hdashes, hafter⟩
    have hdash : ∀ c ∈ List.replicate dashes '-', decide (c = '-') = true := fun c hc =>
      decide_eq_true (List.eq_of_mem_replicate hc)
    have hother : decide (after = '-') = false := by
      rw [decide_eq_false_iff_not]
      rintro rfl
      exact absurd hafter (by decide)
    rw [List.takeWhile_append_of_pos hdash, List.dropWhile_append_of_pos hdash,
      List.takeWhile_cons, List.dropWhile_cons, hother, if_neg Bool.false_ne_true,
      if_neg Bool.false_ne_true, List.append_nil, List.length_replicate]
    exact ⟨hdashes, hafter⟩

/-- A description opens with white space, as the scanner tests it. -/
theorem opensDescription_cons_iff {c : Char} {s : List Char} :
    OpensDescription (c :: s) ↔ (isWhiteSpace c && beginsDescription s) = true := by
  rw [Bool.and_eq_true, beginsDescription_iff]
  constructor
  · rintro ⟨blank, dashes, after, rest, heq, hblank, hdashes, hafter⟩
    obtain ⟨rfl, rfl⟩ := List.cons.inj heq
    exact ⟨hblank, dashes, after, rest, rfl, hdashes, hafter⟩
  · rintro ⟨hblank, dashes, after, rest, rfl, hdashes, hafter⟩
    exact ⟨c, dashes, after, rest, rfl, hblank, hdashes, hafter⟩

theorem OpensDescription.ne_nil {s : List Char} (h : OpensDescription s) : s ≠ [] := by
  obtain ⟨_, _, _, _, rfl, -⟩ := h
  exact List.cons_ne_nil _ _

theorem OpensDescription.append {s : List Char} (h : OpensDescription s) (more : List Char) :
    OpensDescription (s ++ more) := by
  obtain ⟨blank, dashes, after, rest, rfl, hmarks⟩ := h
  exact ⟨blank, dashes, after, rest ++ more, by simp, hmarks⟩

/-- The scanner cuts at the first description: none begins at a character that it keeps. -/
theorem isCut_cutDescription (s : List Char) : IsCut s (cutDescription s) := by
  induction s with
  | nil => exact ⟨⟨[], rfl, .inl rfl⟩, fun _ _ _ _ => Nat.zero_le _⟩
  | cons c s ih =>
    rw [cutDescription]
    split
    · next hopens => exact ⟨⟨c :: s, rfl, .inr (opensDescription_cons_iff.2 hopens)⟩,
        fun _ _ _ _ => Nat.zero_le _⟩
    · next hopens =>
      obtain ⟨rest, hrest, hend⟩ := ih.split
      refine ⟨⟨rest, congrArg (c :: ·) hrest, hend⟩, fun front rest hs hrest => ?_⟩
      cases front with
      | nil =>
        rw [List.nil_append] at hs
        exact absurd (opensDescription_cons_iff.1 (hs ▸ hrest)) hopens
      | cons d front =>
        exact Nat.succ_le_succ (ih.first front rest (List.cons.inj hs).2 hrest)

variable {s t t' : List Char}

/-- The grammar leaves one place to cut at. -/
theorem IsCut.length_le (h : IsCut s t) (h' : IsCut s t') : t'.length ≤ t.length := by
  obtain ⟨rest, hs, rfl | hopens⟩ := h.split
  · obtain ⟨rest', hs', -⟩ := h'.split
    rw [List.append_nil] at hs
    rw [← hs, hs', List.length_append]
    exact Nat.le_add_right _ _
  · exact h'.first t rest hs hopens

theorem isCut_iff : IsCut s t ↔ cutDescription s = t := by
  constructor
  · intro h
    have hcut := isCut_cutDescription s
    obtain ⟨rest, hs, -⟩ := h.split
    obtain ⟨rest', hs', -⟩ := hcut.split
    exact (List.append_inj (hs'.symm.trans hs)
      (Nat.le_antisymm (h.length_le hcut) (hcut.length_le h))).1
  · rintro rfl
    exact isCut_cutDescription s

/-- No description begins anywhere in the text. -/
def IsPlain (s : List Char) : Prop :=
  ∀ front rest, s = front ++ rest → ¬OpensDescription rest

/-- Nothing is left to cut after cutting. -/
theorem isPlain_cutDescription (s : List Char) : IsPlain (cutDescription s) := by
  intro front rest hcut hopens
  have h := isCut_cutDescription s
  obtain ⟨dropped, hs, -⟩ := h.split
  have hlength := h.first front (rest ++ dropped)
    (by rw [← List.append_assoc, ← hcut, ← hs]) (hopens.append dropped)
  rw [hcut, List.length_append] at hlength
  exact hopens.ne_nil (List.length_eq_zero_iff.1 (by omega))

theorem IsPlain.within (h : IsPlain s) (ht : t <:+: s) : IsPlain t := by
  obtain ⟨left, right, rfl⟩ := ht
  rintro front rest rfl hopens
  exact h (left ++ front) (rest ++ right) (by simp) (hopens.append right)

theorem IsPlain.cutDescription_eq (h : IsPlain s) : cutDescription s = s :=
  isCut_iff.1 ⟨⟨[], (List.append_nil s).symm, .inl rfl⟩,
    fun front rest hs hopens => absurd hopens (h front rest hs)⟩

end Description

section Pieces

variable {s : List Char} {parts : List (List Char)}

theorem comma_notMem_pieces (s : List Char) : ∀ part ∈ pieces s, ',' ∉ part := by
  induction s with
  | nil => simp [pieces]
  | cons c s ih =>
    rw [pieces]
    split
    · exact List.forall_mem_cons.2 ⟨List.not_mem_nil, ih⟩
    · next hc =>
      cases hpieces : pieces s with
      | nil => simpa using Ne.symm hc
      | cons part parts =>
        rw [hpieces] at ih
        obtain ⟨hpart, hparts⟩ := List.forall_mem_cons.1 ih
        refine List.forall_mem_cons.2 ⟨?_, hparts⟩
        rw [List.mem_cons, not_or]
        exact ⟨Ne.symm hc, hpart⟩

/-- The pieces are the only parts without commas that the commas separate. -/
theorem isSeparated_iff : IsSeparated s parts ↔ pieces s = parts := by
  rw [pieces_eq_splitOn]
  constructor
  · intro h
    rw [← h.joined, List.splitOn_intercalate ',' h.apart h.nonempty]
  · rintro rfl
    refine ⟨List.splitOn_ne_nil ',' s, ?_, List.intercalate_splitOn ','⟩
    rw [← pieces_eq_splitOn]
    exact comma_notMem_pieces s

/-- White space in front of the first part does not count. -/
theorem map_trim_pieces_cons {blank : Char} (h : isWhiteSpace blank) (s : List Char) :
    (pieces (blank :: s)).map trim = (pieces s).map trim := by
  have hcomma : blank ≠ ',' := by
    rintro rfl
    exact absurd h (by decide)
  have htrim (part : List Char) : trim (blank :: part) = trim part := by
    rw [trim, ← List.singleton_append,
      trimLeft_append_of_blank (fun c hc => List.mem_singleton.1 hc ▸ h), trim]
  rw [pieces, if_neg hcomma]
  cases hpieces : pieces s with
  | nil => exact absurd hpieces (pieces_eq_splitOn s ▸ List.splitOn_ne_nil ',' s)
  | cons part parts => rw [List.map_cons, List.map_cons, htrim]

/-- Of a reader that decides what a part spells, the values are what it reads. -/
theorem accepts_iff {α : Type} {f : List Char → Option α} {spells : List Char → α → Prop}
    (hf : ∀ s x, f s = some x ↔ spells s x) {xs : List α} :
    Accepts spells parts xs ↔ (parts.map trim).filterMap f = xs := by
  constructor
  · intro h
    induction h with
    | nil => rfl
    | take ht hx _ ih =>
      rw [List.map_cons, isTrimmed_iff.1 ht, List.filterMap_cons_some ((hf _ _).2 hx), ih]
    | skip ht hnone _ ih =>
      have hrefused := Option.eq_none_iff_forall_ne_some.2 fun x hx => hnone x ((hf _ x).1 hx)
      rw [List.map_cons, isTrimmed_iff.1 ht, List.filterMap_cons_none hrefused, ih]
  · rintro rfl
    induction parts with
    | nil => exact .nil
    | cons part parts ih =>
      rw [List.map_cons]
      cases hpart : f (trim part) with
      | some x =>
        rw [List.filterMap_cons_some hpart]
        exact .take (isTrimmed_trim part) ((hf _ x).1 hpart) ih
      | none =>
        rw [List.filterMap_cons_none hpart]
        refine .skip (isTrimmed_trim part) (fun x hx => ?_) ih
        rw [(hf _ x).2 hx] at hpart
        cases hpart

end Pieces

section Entry

variable {s : List Char}

/-- The scanner accepts the names of the identifier grammar. -/
theorem isIdentifierName_iff : isIdentifierName s ↔ IsName s := by
  cases s with
  | nil => simp [isIdentifierName, IsName]
  | cons first rest =>
    simp [isIdentifierName, IsName, isIdentifierStart, isIdentifierPart, or_assoc]

theorem SpellsValue.ofDirective_eq {spelling : String} {value : GlobalValue}
    (h : SpellsValue spelling value) : GlobalValue.ofDirective (some spelling) = value := by
  cases h with
  | off => rfl
  | writable h =>
    simp only [List.mem_cons, List.not_mem_nil, or_false] at h
    rcases h with rfl | rfl | rfl <;> rfl
  | readonly h =>
    simp only [List.mem_cons, List.not_mem_nil, or_false, not_or] at h
    simp [GlobalValue.ofDirective, h]

theorem exists_spellsValue (spelling : String) : ∃ value, SpellsValue spelling value := by
  by_cases hwritable : spelling ∈ ["true", "writable", "writeable"]
  · exact ⟨_, .writable hwritable⟩
  · by_cases hoff : spelling = "off"
    · subst hoff
      exact ⟨_, .off⟩
    · refine ⟨_, .readonly ?_⟩
      rw [List.mem_cons, not_or]
      exact ⟨hoff, hwritable⟩

/-- Each spelling stands for one value. -/
theorem ofDirective_eq_iff {spelling : String} {value : GlobalValue} :
    GlobalValue.ofDirective (some spelling) = value ↔ SpellsValue spelling value := by
  refine ⟨?_, SpellsValue.ofDirective_eq⟩
  rintro rfl
  obtain ⟨value, hvalue⟩ := exists_spellsValue spelling
  rwa [hvalue.ofDirective_eq]

theorem IsName.colon_notMem (h : IsName s) : ':' ∉ s :=
  (Undivided.of_isIdentifierName (isIdentifierName_iff.2 h)).not_mem rfl

theorem globalEntry_of_not_colon (h : ':' ∉ s) :
    globalEntry? s = if isIdentifierName s then some (String.ofList s, .readonly) else none := by
  have hcolon : ∀ c ∈ s, decide (c ≠ ':') = true := fun c hc =>
    decide_eq_true fun heq => h (heq ▸ hc)
  have htake : s.takeWhile (· ≠ ':') = s := List.takeWhile_eq_self_iff.2 hcolon
  have hdrop : s.dropWhile (· ≠ ':') = [] := List.dropWhile_eq_nil_iff.2 hcolon
  simp only [ globalEntry?, htake, hdrop]
  rfl

/-- The first colon ends the name, and what follows it is the value after white space. -/
theorem spellsGlobal_of_globalEntry {e : String × GlobalValue} (h : globalEntry? s = some e) :
    SpellsGlobal s e := by
  by_cases hcolon : ':' ∈ s
  · obtain ⟨name, rest, rfl, hname⟩ := List.eq_append_cons_of_mem hcolon
    rw [globalEntry_of_colon hname, Option.ite_none_left_eq_some,
      Option.ite_none_right_eq_some, Option.some.injEq] at h
    obtain ⟨hvalue, hidentifier, rfl⟩ := h
    rw [Bool.or_eq_true, not_or, List.isEmpty_iff, List.any_eq_true] at hvalue
    have hrest : rest.takeWhile isWhiteSpace ++ trimLeft rest = rest :=
      List.takeWhile_append_dropWhile
    have hspelled := SpellsGlobal.valued (isIdentifierName_iff.1 hidentifier)
      (fun c hc => List.mem_takeWhile_imp (l := rest) hc) hvalue.1
      (fun c hc => Bool.eq_false_iff.2 fun hblank => hvalue.2 ⟨c, hc, hblank⟩)
      (ofDirective_eq_iff.1 rfl)
    rwa [hrest] at hspelled
  · rw [globalEntry_of_not_colon hcolon, Option.ite_none_right_eq_some, Option.some.injEq] at h
    obtain ⟨hidentifier, rfl⟩ := h
    exact .name (isIdentifierName_iff.1 hidentifier)

/-- An entry by the grammar is read as such. -/
theorem SpellsGlobal.globalEntry_eq {e : String × GlobalValue} (h : SpellsGlobal s e) :
    globalEntry? s = some e := by
  cases h with
  | name hname =>
    rw [globalEntry_of_not_colon hname.colon_notMem, if_pos (isIdentifierName_iff.2 hname)]
  | @valued name blanks value v hname hblanks hne hvalue hv =>
    have htrim : trimLeft (blanks ++ value) = value := by
      rw [trimLeft_append_of_blank hblanks]
      cases value with
      | nil => rfl
      | cons c value => exact trimLeft_cons (hvalue c (List.mem_cons_self ..)) value
    have hempty : value.isEmpty = false := List.isEmpty_eq_false_iff.2 hne
    have hblank : value.any isWhiteSpace = false :=
      List.any_eq_false.2 fun c hc => Bool.eq_false_iff.1 (hvalue c hc)
    rw [globalEntry_of_colon hname.colon_notMem, htrim, hempty, hblank, Bool.or_false,
      if_neg Bool.false_ne_true, if_pos (isIdentifierName_iff.2 hname), ofDirective_eq_iff.2 hv]

theorem globalEntry_eq_some_iff (e : String × GlobalValue) :
    globalEntry? s = some e ↔ SpellsGlobal s e :=
  ⟨spellsGlobal_of_globalEntry, SpellsGlobal.globalEntry_eq⟩

theorem exportedName?_eq_some_iff (name : String) :
    exportedName? s = some name ↔ SpellsExport s name := by
  rw [exportedName?, Option.ite_none_right_eq_some, isIdentifierName_iff, Option.some.injEq,
    SpellsExport]

end Entry

section Read

/-- A keyword counts if white space follows it. -/
theorem afterKeyword?_eq_some_iff {keyword : String} {s rest : List Char} :
    afterKeyword? keyword s = some rest ↔ ∃ blank tail, isWhiteSpace blank ∧
      rest = blank :: tail ∧ s = keyword.toList ++ blank :: tail := by
  unfold afterKeyword?
  dsimp only
  rw [Option.ite_none_right_eq_some, Option.ite_none_right_eq_some, List.isPrefixOf_iff_prefix,
    Option.some.injEq]
  constructor
  · rintro ⟨⟨after, rfl⟩, hblank, hrest⟩
    rw [← String.length_toList, List.drop_left] at hblank hrest
    obtain ⟨blank, hhead, hblank⟩ := (Option.any_eq_true _ _).1 hblank
    obtain ⟨tail, rfl⟩ := List.head?_eq_some_iff.1 hhead
    exact ⟨blank, tail, hblank, hrest.symm, rfl⟩
  · rintro ⟨blank, tail, hblank, rfl, rfl⟩
    rw [← String.length_toList, List.drop_left]
    exact ⟨⟨_, rfl⟩, hblank, rfl⟩

variable {text keyword : String} {rest : List Char}

theorem hasBody_iff : HasBody text keyword rest ↔ ∃ blank, isWhiteSpace blank ∧
    afterKeyword? keyword (trim (cutDescription text.toList)) = some (blank :: rest) := by
  simp only [afterKeyword?_eq_some_iff]
  constructor
  · rintro ⟨s, t, blank, hs, ht, hblank, heq⟩
    rw [isCut_iff.1 hs, isTrimmed_iff.1 ht]
    exact ⟨blank, hblank, blank, rest, hblank, rfl, heq⟩
  · rintro ⟨blank, -, blank', rest', hblank, heq, hs⟩
    obtain ⟨rfl, rfl⟩ := List.cons.inj heq
    exact ⟨_, _, blank, isCut_iff.2 rfl, isTrimmed_iff.2 rfl, hblank, hs⟩

/-- The values in a body, read from the white space after the keyword. -/
theorem accepts_body_iff {α : Type} {f : List Char → Option α} {spells : List Char → α → Prop}
    (hf : ∀ s x, f s = some x ↔ spells s x) {xs : List α} {blank : Char}
    (hblank : isWhiteSpace blank) :
    (∃ parts, IsSeparated rest parts ∧ Accepts spells parts xs) ↔
      ((pieces (blank :: rest)).map trim).filterMap f = xs := by
  simp only [isSeparated_iff, accepts_iff hf, map_trim_pieces_cons hblank, exists_eq_left']

/-- After `global` stands no `s`, so at most one of the two keywords has a body. -/
theorem afterKeyword?_globals_eq_none {s : List Char} {blank : Char} (hblank : isWhiteSpace blank)
    (h : afterKeyword? "global" s = some (blank :: rest)) : afterKeyword? "globals" s = none := by
  rw [Option.eq_none_iff_forall_ne_some]
  intro body hbody
  obtain ⟨_, _, -, heq, rfl⟩ := afterKeyword?_eq_some_iff.1 h
  obtain ⟨rfl, rfl⟩ := List.cons.inj heq
  obtain ⟨_, _, -, -, hs⟩ := afterKeyword?_eq_some_iff.1 hbody
  obtain ⟨rfl, -⟩ : blank = 's' ∧ _ := by simpa using hs
  exact absurd hblank (by decide)

def globalsBody? (s : List Char) : Option (List Char) :=
  (afterKeyword? "globals" s).or (afterKeyword? "global" s)

theorem exists_blank_of_globalsBody? {s body : List Char} (h : globalsBody? s = some body) :
    ∃ blank rest, isWhiteSpace blank ∧ body = blank :: rest := by
  rcases Option.or_eq_some_iff.1 h with h | ⟨-, h⟩ <;>
  · obtain ⟨blank, rest, hblank, heq, -⟩ := afterKeyword?_eq_some_iff.1 h
    exact ⟨blank, rest, hblank, heq⟩

/-- Both keywords for globals are read alike. -/
theorem exists_hasBody_iff : (∃ keyword ∈ ["global", "globals"], HasBody text keyword rest) ↔
    ∃ blank, isWhiteSpace blank ∧
      globalsBody? (trim (cutDescription text.toList)) = some (blank :: rest) := by
  simp only [List.mem_cons, List.not_mem_nil, or_false, exists_eq_or_imp, exists_eq_left,
    hasBody_iff, globalsBody?, Option.or_eq_some_iff]
  constructor
  · rintro (⟨blank, hblank, h⟩ | ⟨blank, hblank, h⟩)
    · exact ⟨blank, hblank, .inr ⟨afterKeyword?_globals_eq_none hblank h, h⟩⟩
    · exact ⟨blank, hblank, .inl h⟩
  · rintro ⟨blank, hblank, h | ⟨-, h⟩⟩
    · exact .inr ⟨blank, hblank, h⟩
    · exact .inl ⟨blank, hblank, h⟩

theorem globalsBody?_eq_none_iff : globalsBody? (trim (cutDescription text.toList)) = none ↔
    ∀ keyword ∈ ["global", "globals"], ∀ rest, ¬HasBody text keyword rest := by
  constructor
  · intro hnone keyword hkeyword rest hbody
    obtain ⟨blank, -, hsome⟩ := exists_hasBody_iff.1 ⟨keyword, hkeyword, hbody⟩
    rw [hnone] at hsome
    cases hsome
  · intro h
    rw [Option.eq_none_iff_forall_ne_some]
    intro body hbody
    obtain ⟨blank, rest, hblank, rfl⟩ := exists_blank_of_globalsBody? hbody
    obtain ⟨keyword, hkeyword, hhas⟩ := exists_hasBody_iff.2 ⟨blank, hblank, hbody⟩
    exact h keyword hkeyword rest hhas

/-- A list of globals is denoted if the scanner finds its body and reads its entries. -/
theorem denotes_globals_iff {entries : List (String × GlobalValue)} :
    Denotes text (.globals entries) ↔
      ∃ body, globalsBody? (trim (cutDescription text.toList)) = some body ∧
        ((pieces body).map trim).filterMap globalEntry? = entries := by
  constructor
  · intro h
    cases h with
    | globals hkeyword hbody hparts hentries =>
      obtain ⟨blank, hblank, hbody⟩ := exists_hasBody_iff.1 ⟨_, hkeyword, hbody⟩
      exact ⟨_, hbody, (accepts_body_iff (fun _ => globalEntry_eq_some_iff) hblank).1
        ⟨_, hparts, hentries⟩⟩
  · rintro ⟨body, hbody, hentries⟩
    obtain ⟨blank, rest, hblank, rfl⟩ := exists_blank_of_globalsBody? hbody
    obtain ⟨keyword, hkeyword, hhas⟩ := exists_hasBody_iff.2 ⟨blank, hblank, hbody⟩
    obtain ⟨parts, hparts, haccepts⟩ :=
      (accepts_body_iff (fun _ => globalEntry_eq_some_iff) hblank).2 hentries
    exact .globals hkeyword hhas hparts haccepts

/-- A list of exports is denoted if the text does not begin with a keyword for globals. -/
theorem denotes_exported_iff {names : List String} :
    Denotes text (.exported names) ↔
      globalsBody? (trim (cutDescription text.toList)) = none ∧
      ∃ body, afterKeyword? "exported" (trim (cutDescription text.toList)) = some body ∧
        ((pieces body).map trim).filterMap exportedName? = names := by
  constructor
  · intro h
    cases h with
    | exported hother hbody hparts hnames =>
      obtain ⟨blank, hblank, hbody⟩ := hasBody_iff.1 hbody
      exact ⟨globalsBody?_eq_none_iff.2 hother, _, hbody,
        (accepts_body_iff (fun _ => exportedName?_eq_some_iff) hblank).1 ⟨_, hparts, hnames⟩⟩
  · rintro ⟨hnone, body, hbody, hnames⟩
    obtain ⟨blank, rest, hblank, rfl, -⟩ := afterKeyword?_eq_some_iff.1 hbody
    obtain ⟨parts, hparts, haccepts⟩ :=
      (accepts_body_iff (fun _ => exportedName?_eq_some_iff) hblank).2 hnames
    exact .exported (globalsBody?_eq_none_iff.1 hnone) (hasBody_iff.2 ⟨blank, hblank, hbody⟩)
      hparts haccepts

/-- The scanner tries the keywords in turn. -/
theorem ofComment?_eq (text : String) : ofComment? text =
    match globalsBody? (trim (cutDescription text.toList)) with
    | some body => some (.globals (((pieces body).map trim).filterMap globalEntry?))
    | none => (afterKeyword? "exported" (trim (cutDescription text.toList))).map fun body =>
      .exported (((pieces body).map trim).filterMap exportedName?) :=
  rfl

theorem ofComment?_eq_some_iff (d : Directive) : ofComment? text = some d ↔ Denotes text d := by
  rw [ofComment?_eq]
  cases d with
  | globals entries =>
    rw [denotes_globals_iff]
    cases globalsBody? (trim (cutDescription text.toList)) <;> simp
  | exported names =>
    rw [denotes_exported_iff]
    cases globalsBody? (trim (cutDescription text.toList)) <;> simp

end Read

end Directive

/-- A block comment holds exactly the directive that the grammar gives to its text, and none if it
gives none. Cutting a description leaves no other to be cut, before or after trimming. -/
theorem ofComment_iff_denotes (text : String) :
    (∀ d, Directive.ofComment? text = some d ↔ Directive.Denotes text d) ∧
    (∀ s, Directive.cutDescription (Directive.cutDescription s) = Directive.cutDescription s) ∧
    ∀ s, trim (Directive.cutDescription (trim (Directive.cutDescription s))) =
      trim (Directive.cutDescription s) := by
  refine ⟨Directive.ofComment?_eq_some_iff, fun s => ?_, fun s => ?_⟩
  · exact (Directive.isPlain_cutDescription s).cutDescription_eq
  · have hplain := (Directive.isPlain_cutDescription s).within
      (isTrimmed_trim (Directive.cutDescription s)).isInfix
    rw [hplain.cutDescription_eq, trim_trim]

end LexicalScope
