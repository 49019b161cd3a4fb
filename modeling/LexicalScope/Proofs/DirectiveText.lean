import LexicalScope.Directive.Comment
import LexicalScope.Options.Error
import Mathlib.Data.List.Basic

/-!
Writing a directive. A comment that lists names, each with a value that configuration accepts, is
read as these names and values in their order. Names and spelled values have no white space,
dashes, commas or colons in them, which are all that divides a directive.
-/
namespace LexicalScope

namespace Unicode

/-- A character cannot lie in ranges that do not overlap. -/
theorem inRanges_eq_false {ranges others : List (Nat × Nat)}
    (hapart : ∀ r ∈ ranges, ∀ other ∈ others, r.2 < other.1 ∨ other.2 < r.1) {c : Char}
    (hc : inRanges ranges c) : inRanges others c = false := by
  simp only [inRanges, List.any_eq_true, Bool.and_eq_true, decide_eq_true_eq] at hc
  obtain ⟨r, hr, hlow, hhigh⟩ := hc
  simp only [inRanges, List.any_eq_false, Bool.and_eq_true, decide_eq_true_eq, not_and]
  intro other hother
  have := hapart r hr other hother
  omega

end Unicode

/-- The characters that divide a directive into its parts. -/
def isDivider (c : Char) : Bool :=
  isWhiteSpace c || c = '-' || c = ',' || c = ':'

def dividerRanges : List (Nat × Nat) :=
  [(0x09, 0x0D), (0x20, 0x20), (0x2C, 0x2D), (0x3A, 0x3A), (0x85, 0x85), (0xA0, 0xA0),
   (0x1680, 0x1680), (0x2000, 0x200A), (0x2028, 0x2029), (0x202F, 0x202F), (0x205F, 0x205F),
   (0x3000, 0x3000)]

/-- Dividers are among a few ranges of code points, which can be tested against the identifier
tables. -/
theorem inRanges_dividerRanges {c : Char} (h : isDivider c) :
    Unicode.inRanges dividerRanges c := by
  have hchar (d : Char) : c = d ↔ c.toNat = d.toNat := Char.toNat_inj.symm
  simp only [isDivider, isWhiteSpace, hchar, Bool.or_eq_true, Bool.and_eq_true, decide_eq_true_eq,
    beq_iff_eq] at h
  simp only [Unicode.inRanges, dividerRanges, List.any_cons, List.any_nil, Bool.or_eq_true,
    Bool.and_eq_true, decide_eq_true_eq, Bool.or_false]
  have hdash : ('-' : Char).toNat = 0x2D := rfl
  have hcomma : (',' : Char).toNat = 0x2C := rfl
  have hcolon : (':' : Char).toNat = 0x3A := rfl
  omega

/-- No range of identifier characters overlaps a range of dividers. -/
theorem xidRanges_apart :
    ∀ r ∈ Unicode.xidStartRanges ++ Unicode.xidContinueOnlyRanges, ∀ divider ∈ dividerRanges,
      r.2 < divider.1 ∨ divider.2 < r.1 := by
  decide +kernel

/-- No character of an identifier divides a directive. -/
theorem isDivider_of_isXidContinue {c : Char} (h : Unicode.isXidContinue c) :
    isDivider c = false := by
  have hranges : Unicode.inRanges (Unicode.xidStartRanges ++ Unicode.xidContinueOnlyRanges) c := by
    rwa [Unicode.inRanges, List.any_append]
  have houtside := Unicode.inRanges_eq_false xidRanges_apart hranges
  refine Bool.eq_false_iff.2 fun hdivider => ?_
  rw [inRanges_dividerRanges hdivider] at houtside
  cases houtside

theorem isDivider_of_isIdentifierPart {c : Char} (h : isIdentifierPart c) :
    isDivider c = false := by
  rcases Bool.or_eq_true_iff.1 h with h | h
  · rw [of_decide_eq_true h]
    rfl
  · exact isDivider_of_isXidContinue h

theorem isDivider_of_isIdentifierStart {c : Char} (h : isIdentifierStart c) :
    isDivider c = false := by
  simp only [isIdentifierStart, Bool.or_eq_true, decide_eq_true_eq] at h
  rcases h with (rfl | rfl) | h
  · rfl
  · rfl
  · exact isDivider_of_isXidContinue (Bool.or_eq_true_iff.2 (.inl h))

namespace GlobalValue

def spellings : List String :=
  ["off", "true", "writable", "writeable", "false", "readonly", "readable"]

variable {spelling : String} {value : GlobalValue}

theorem ofText?_of_parse (h : parse spelling = .ok value) : ofText? spelling = some value := by
  unfold parse at h
  split at h
  · next heq => rw [heq, Except.ok.inj h]
  · cases h

/-- Configuration spells values in seven ways only. -/
theorem mem_spellings_of_parse (h : parse spelling = .ok value) : spelling ∈ spellings := by
  have hknown := ofText?_of_parse h
  by_contra hunknown
  simp only [spellings, List.mem_cons, List.not_mem_nil, or_false, not_or] at hunknown
  simp [ofText?, hunknown] at hknown

/-- A directive comment takes a spelling that configuration accepts for the same value. -/
theorem ofDirective_of_parse (h : parse spelling = .ok value) :
    ofDirective (some spelling) = value := by
  have hsame : ∀ spelling ∈ spellings, ofText? spelling = some (ofDirective (some spelling)) := by
    decide
  have hknown := hsame spelling (mem_spellings_of_parse h)
  rw [ofText?_of_parse h] at hknown
  exact (Option.some.inj hknown).symm

end GlobalValue

/-- A part of a directive that nothing divides any further. -/
structure Undivided (s : List Char) : Prop where
  ne_nil : s ≠ []
  apart : ∀ c ∈ s, isDivider c = false

namespace Undivided

variable {s : List Char}

/-- An identifier name has nothing to divide. -/
theorem of_isIdentifierName (h : isIdentifierName s) : Undivided s := by
  cases s with
  | nil => cases h
  | cons c rest =>
    obtain ⟨hstart, hparts⟩ := Bool.and_eq_true_iff.1 h
    refine ⟨List.cons_ne_nil c rest, List.forall_mem_cons.2 ⟨?_, fun d hd => ?_⟩⟩
    · exact isDivider_of_isIdentifierStart hstart
    · exact isDivider_of_isIdentifierPart (List.all_eq_true.1 hparts d hd)

theorem of_parse {spelling : String} {value : GlobalValue}
    (h : GlobalValue.parse spelling = .ok value) : Undivided spelling.toList := by
  have hundivided : ∀ spelling ∈ GlobalValue.spellings,
      spelling.toList ≠ [] ∧ (spelling.toList.all fun c => !isDivider c) = true := by
    decide
  obtain ⟨hne, hapart⟩ := hundivided spelling (GlobalValue.mem_spellings_of_parse h)
  refine ⟨hne, fun c hc => ?_⟩
  simpa using List.all_eq_true.1 hapart c hc

variable (h : Undivided s)
include h

theorem not_mem {c : Char} (hc : isDivider c) : c ∉ s := by
  intro hmem
  rw [h.apart c hmem] at hc
  cases hc

theorem isWhiteSpace {c : Char} (hc : c ∈ s) : isWhiteSpace c = false := by
  have hdivider := h.apart c hc
  simp only [isDivider, Bool.or_eq_false_iff] at hdivider
  exact hdivider.1.1.1

end Undivided

/-- A text that does not end in white space. -/
def IsEnded (s : List Char) : Prop :=
  ∃ front c, s = front ++ [c] ∧ isWhiteSpace c = false

theorem IsEnded.append {s : List Char} (h : IsEnded s) (front : List Char) :
    IsEnded (front ++ s) := by
  obtain ⟨middle, c, rfl, hc⟩ := h
  exact ⟨front ++ middle, c, (List.append_assoc ..).symm, hc⟩

theorem Undivided.isEnded {s : List Char} (h : Undivided s) : IsEnded s := by
  have hs := List.dropLast_concat_getLast h.ne_nil
  exact ⟨s.dropLast, s.getLast h.ne_nil, hs.symm, h.isWhiteSpace (List.getLast_mem h.ne_nil)⟩

theorem trimLeft_cons {c : Char} (hc : isWhiteSpace c = false) (s : List Char) :
    trimLeft (c :: s) = c :: s := by
  rw [trimLeft, List.dropWhile_cons, if_neg (by rw [hc]; exact Bool.false_ne_true)]

theorem trimRight_of_isEnded {s : List Char} (h : IsEnded s) : trimRight s = s := by
  obtain ⟨front, c, rfl, hc⟩ := h
  rw [trimRight, List.reverse_concat, ← trimLeft, trimLeft_cons hc, List.reverse_cons,
    List.reverse_reverse]

theorem trim_cons {c : Char} (hc : isWhiteSpace c = false) {s : List Char}
    (h : IsEnded (c :: s)) : trim (c :: s) = c :: s := by
  rw [trim, trimLeft_cons hc, trimRight_of_isEnded h]

theorem Undivided.trimLeft_append {s : List Char} (h : Undivided s) (rest : List Char) :
    trimLeft (s ++ rest) = s ++ rest := by
  cases s with
  | nil => exact absurd rfl h.ne_nil
  | cons c s => exact trimLeft_cons (h.isWhiteSpace (List.mem_cons_self ..)) (s ++ rest)

section Intercalate

variable {sep : List Char} {parts : List (List Char)}

/-- What holds of the separator and of the parts holds of the whole text. -/
theorem forall_mem_intercalate {P : Char → Prop} (hsep : ∀ c ∈ sep, P c)
    (hparts : ∀ part ∈ parts, ∀ c ∈ part, P c) : ∀ c ∈ sep.intercalate parts, P c := by
  induction parts with
  | nil => exact List.forall_mem_nil P
  | cons part parts ih =>
    obtain ⟨hpart, hparts⟩ := List.forall_mem_cons.1 hparts
    cases parts with
    | nil => rwa [List.intercalate_singleton]
    | cons next parts =>
      rw [List.intercalate_cons_cons, List.append_assoc]
      exact List.forall_mem_append.2 ⟨hpart, List.forall_mem_append.2 ⟨hsep, ih hparts⟩⟩

theorem isEnded_intercalate (hne : parts ≠ []) (hparts : ∀ part ∈ parts, IsEnded part) :
    IsEnded (sep.intercalate parts) := by
  induction parts with
  | nil => exact absurd rfl hne
  | cons part parts ih =>
    obtain ⟨hpart, hparts⟩ := List.forall_mem_cons.1 hparts
    cases parts with
    | nil => rwa [List.intercalate_singleton]
    | cons next parts =>
      rw [List.intercalate_cons_cons]
      exact (ih (List.cons_ne_nil next parts) hparts).append (part ++ sep)

/-- Of a comma and a blank between two parts, the blank can count as the start of the latter. -/
theorem cons_intercalate (hne : parts ≠ []) :
    ' ' :: [',', ' '].intercalate parts = [','].intercalate (parts.map (' ' :: ·)) := by
  induction parts with
  | nil => exact absurd rfl hne
  | cons part parts ih =>
    cases parts with
    | nil => rfl
    | cons next parts =>
      have hrest := ih (List.cons_ne_nil next parts)
      rw [List.map_cons] at hrest ⊢
      rw [List.map_cons, List.intercalate_cons_cons, List.intercalate_cons_cons, ← hrest]
      simp

end Intercalate

namespace Directive

/-- Without dashes there is no description. -/
theorem cutDescription_eq_self {s : List Char} (h : '-' ∉ s) : cutDescription s = s := by
  induction s with
  | nil => rfl
  | cons c s ih =>
    have hs : '-' ∉ s := fun hmem => h (List.mem_cons_of_mem c hmem)
    have hdashes : s.takeWhile (· = '-') = [] := by
      cases s with
      | nil => rfl
      | cons d s =>
        have hd : d ≠ '-' := fun heq => hs (heq ▸ List.mem_cons_self ..)
        rw [List.takeWhile_cons_of_neg (by simpa using hd)]
    have hbegins : beginsDescription s = false := by
      rw [beginsDescription, hdashes]
      rfl
    rw [cutDescription, hbegins, Bool.and_false, if_neg Bool.false_ne_true, ih hs]

/-- The scanner splits at commas. -/
theorem pieces_eq_splitOn (s : List Char) : pieces s = s.splitOn ',' := by
  induction s with
  | nil => rw [List.splitOn_nil, pieces]
  | cons c s ih =>
    rw [pieces, List.splitOn_eq_splitOnP, List.splitOnP_cons_eq_if_modifyHead,
      ← List.splitOn_eq_splitOnP, ih]
    by_cases hc : c = ','
    · rw [if_pos hc, if_pos (beq_iff_eq.2 hc)]
    · rw [if_neg hc, if_neg (fun h => hc (beq_iff_eq.1 h))]
      cases hsplit : s.splitOn ',' with
      | nil => exact absurd hsplit (List.splitOn_ne_nil ',' s)
      | cons part parts => rfl

/-- The first colon divides an entry. -/
theorem globalEntry_of_colon {name : List Char} (hname : ':' ∉ name) (rest : List Char) :
    globalEntry? (name ++ ':' :: rest) =
      if (trimLeft rest).isEmpty || (trimLeft rest).any isWhiteSpace then none
      else if isIdentifierName name then
        some (String.ofList name, .ofDirective (some (String.ofList (trimLeft rest))))
      else none := by
  have hcolon : ∀ c ∈ name, decide (c ≠ ':') = true := fun c hc =>
    decide_eq_true fun heq => hname (heq ▸ hc)
  have htake : (name ++ ':' :: rest).takeWhile (· ≠ ':') = name := by
    rw [List.takeWhile_append_of_pos hcolon, List.takeWhile_cons_of_neg (by simp), List.append_nil]
  have hdrop : (name ++ ':' :: rest).dropWhile (· ≠ ':') = ':' :: rest := by
    rw [List.dropWhile_append_of_pos hcolon, List.dropWhile_cons_of_neg (by simp)]
  simp only [ globalEntry?, htake, hdrop]
  cases (trimLeft rest).isEmpty || (trimLeft rest).any isWhiteSpace <;> rfl

/-- A name and a value are read as they stand. -/
theorem globalEntry_append {name : List Char} {spelling : String} (hname : isIdentifierName name)
    (hspelling : Undivided spelling.toList) :
    globalEntry? (name ++ ':' :: spelling.toList) =
      some (String.ofList name, .ofDirective (some spelling)) := by
  have hundivided := Undivided.of_isIdentifierName hname
  have htrim : trimLeft spelling.toList = spelling.toList := by
    simpa using hspelling.trimLeft_append []
  have hblank : spelling.toList.any LexicalScope.isWhiteSpace = false :=
    List.any_eq_false.2 fun c hc => Bool.eq_false_iff.1 (hspelling.isWhiteSpace hc)
  have hnonempty : spelling.toList.isEmpty = false := List.isEmpty_eq_false_iff.2 hspelling.ne_nil
  rw [globalEntry_of_colon (hundivided.not_mem rfl), htrim, hnonempty, hblank, Bool.or_false,
    if_neg Bool.false_ne_true, if_pos hname, String.ofList_toList]

end Directive

/-- A global as a directive comment lists it: a name, and a value that configuration accepts. -/
structure GlobalEntry where
  name : String
  spelling : String
  value : GlobalValue
  isName : isIdentifierName name.toList
  parsed : GlobalValue.parse spelling = .ok value

namespace GlobalEntry

def text (e : GlobalEntry) : String :=
  e.name ++ ":" ++ e.spelling

def setting (e : GlobalEntry) : String × GlobalValue :=
  (e.name, e.value)

theorem toList_text (e : GlobalEntry) :
    e.text.toList = e.name.toList ++ ':' :: e.spelling.toList := by
  simp [text]

theorem undivided_name (e : GlobalEntry) : Undivided e.name.toList :=
  .of_isIdentifierName e.isName

theorem undivided_spelling (e : GlobalEntry) : Undivided e.spelling.toList :=
  .of_parse e.parsed

theorem not_mem_text (e : GlobalEntry) {c : Char} (hc : isDivider c) (hcolon : c ≠ ':') :
    c ∉ e.text.toList := by
  rw [e.toList_text, List.mem_append, List.mem_cons, not_or, not_or]
  exact ⟨e.undivided_name.not_mem hc, hcolon, e.undivided_spelling.not_mem hc⟩

theorem isEnded_text (e : GlobalEntry) : IsEnded e.text.toList := by
  rw [e.toList_text, List.append_cons]
  exact e.undivided_spelling.isEnded.append _

theorem trim_cons_text (e : GlobalEntry) : trim (' ' :: e.text.toList) = e.text.toList := by
  have hleft : trimLeft (' ' :: e.text.toList) = e.text.toList := by
    rw [trimLeft, List.dropWhile_cons_of_pos (by decide), ← trimLeft, e.toList_text,
      e.undivided_name.trimLeft_append]
  rw [trim, hleft, trimRight_of_isEnded e.isEnded_text]

theorem globalEntry_text (e : GlobalEntry) :
    Directive.globalEntry? e.text.toList = some e.setting := by
  rw [e.toList_text, Directive.globalEntry_append e.isName e.undivided_spelling,
    GlobalValue.ofDirective_of_parse e.parsed, String.ofList_toList, setting]

end GlobalEntry

/-- The text of a comment that declares globals. -/
def globalDirective (entries : List GlobalEntry) : String :=
  "global " ++ ", ".intercalate (entries.map (·.text))

section Read

variable {entries : List GlobalEntry} (hne : entries ≠ [])

theorem toList_globalDirective (entries : List GlobalEntry) :
    (globalDirective entries).toList =
      "global ".toList ++ [',', ' '].intercalate (entries.map (·.text.toList)) := by
  rw [globalDirective, String.toList_append, String.toList_intercalate, List.map_map]
  rfl

/-- A directive written out has no description. -/
theorem cutDescription_globalDirective (entries : List GlobalEntry) :
    Directive.cutDescription (globalDirective entries).toList =
      (globalDirective entries).toList := by
  apply Directive.cutDescription_eq_self
  have hparts : ∀ part ∈ entries.map (·.text.toList), ∀ c ∈ part, c ≠ '-' := by
    intro part hpart c hc heq
    obtain ⟨e, -, rfl⟩ := List.mem_map.1 hpart
    exact e.not_mem_text rfl (by decide) (heq ▸ hc)
  have hbody : ∀ c ∈ [',', ' '].intercalate (entries.map (·.text.toList)), c ≠ '-' :=
    forall_mem_intercalate (by simp) hparts
  rw [toList_globalDirective, List.mem_append, not_or]
  exact ⟨by decide, fun hmem => hbody '-' hmem rfl⟩

include hne

/-- A directive written out has no white space around it. -/
theorem trim_globalDirective :
    trim (globalDirective entries).toList = (globalDirective entries).toList := by
  have hended : IsEnded (globalDirective entries).toList := by
    rw [toList_globalDirective]
    refine (isEnded_intercalate (by simpa using hne) fun part hpart => ?_).append _
    obtain ⟨e, -, rfl⟩ := List.mem_map.1 hpart
    exact e.isEnded_text
  have hglobal : (globalDirective entries).toList =
      'g' :: (['l', 'o', 'b', 'a', 'l', ' '] ++
        [',', ' '].intercalate (entries.map (·.text.toList))) :=
    toList_globalDirective entries
  rw [hglobal] at hended ⊢
  exact trim_cons rfl hended

/-- Between the commas stand the entries, each after a blank. -/
theorem pieces_globalDirective :
    Directive.pieces (' ' :: [',', ' '].intercalate (entries.map (·.text.toList))) =
      entries.map (' ' :: ·.text.toList) := by
  rw [cons_intercalate (by simpa using hne), Directive.pieces_eq_splitOn, List.map_map]
  refine List.splitOn_intercalate ',' (fun part hpart => ?_) (by simpa using hne)
  obtain ⟨e, -, rfl⟩ := List.mem_map.1 hpart
  rw [Function.comp_apply, List.mem_cons, not_or]
  exact ⟨by decide, e.not_mem_text rfl (by decide)⟩

/-- The comment is read as the names and values that it was written for. -/
theorem ofComment?_globalDirective :
    Directive.ofComment? (globalDirective entries) =
      some (.globals (entries.map (·.setting))) := by
  have hglobals (rest : List Char) : Directive.afterKeyword? "globals" ("global ".toList ++ rest) =
      none := rfl
  have hglobal (rest : List Char) : Directive.afterKeyword? "global" ("global ".toList ++ rest) =
      some (' ' :: rest) := rfl
  have hentries : (entries.map (' ' :: ·.text.toList)).map trim = entries.map (·.text.toList) := by
    rw [List.map_map]
    exact List.map_congr_left fun e _ => e.trim_cons_text
  have hread : (entries.map (·.text.toList)).filterMap Directive.globalEntry? =
      entries.map (·.setting) := by
    rw [List.filterMap_map, ← List.filterMap_eq_map]
    exact List.filterMap_congr fun e _ => e.globalEntry_text
  unfold Directive.ofComment?
  dsimp only
  rw [cutDescription_globalDirective, trim_globalDirective hne, toList_globalDirective, hglobals,
    hglobal, Option.none_or]
  dsimp only
  rw [pieces_globalDirective hne, hentries, hread]

end Read

end LexicalScope
