import LexicalScope.Options.Json
import LexicalScope.Proofs.Renaming

/-!
Options as JSON and back. What is written can be read whatever follows it: every reader takes
exactly the text that was written for its part and leaves the rest. So strings with any characters
in them, lists in their order and maps with the order of their keys come back as they were.
-/
namespace LexicalScope

namespace Json

theorem skipBlanks_cons {c : Char} (hc : isBlank c = false) (s : List Char) :
    skipBlanks (c :: s) = c :: s := by
  rw [skipBlanks, List.dropWhile_cons, if_neg (by rw [hc]; exact Bool.false_ne_true)]

theorem word_append (expected : String) (s : List Char) :
    word expected (expected.toList ++ s) = .ok s := by
  have hbegins : expected.toList.isPrefixOf (expected.toList ++ s) := by simp
  rw [word, if_pos hbegins, ← String.length_toList, List.drop_left]

theorem hexValue?_hexDigit : ∀ n < 16, hexValue? (hexDigit n) = some n := by
  decide

/-- Two zeros and two digits stand for a number below 256. -/
theorem hexUnit_digits {m n : Nat} (hm : m < 16) (hn : n < 16) (rest : List Char) :
    hexUnit ('0' :: '0' :: hexDigit m :: hexDigit n :: rest) = .ok (16 * m + n, rest) := by
  have hzero : hexValue? '0' = some 0 := rfl
  have hlength : ¬('0' :: '0' :: hexDigit m :: hexDigit n :: rest).length < 4 := by simp
  simp only [hexUnit, List.take_succ_cons, List.take_zero, List.foldl_cons, List.foldl_nil,
    Option.bind_some, Option.map_some, hexValue?_hexDigit m hm, hexValue?_hexDigit n hn, hzero,
    if_neg hlength, List.drop_succ_cons, List.drop_zero, Nat.mul_zero, Nat.zero_add]

/-- A control character is read back from its code. -/
theorem escape_control {c : Char} (hc : c.toNat < 0x20) (rest : List Char) :
    escape ('u' :: '0' :: '0' :: hexDigit (c.toNat / 16) :: hexDigit (c.toNat % 16) :: rest) =
      .ok (c, rest) := by
  have hvalue : 16 * (c.toNat / 16) + c.toNat % 16 = c.toNat := Nat.div_add_mod ..
  have htrailing : isTrailing c.toNat = false := by
    simp only [isTrailing, Bool.and_eq_false_imp, decide_eq_true_eq]
    omega
  have hleading : isLeading c.toNat = false := by
    simp only [isLeading, Bool.and_eq_false_imp, decide_eq_true_eq]
    omega
  have hsimple : simpleEscape? 'u' = none := rfl
  rw [escape, hsimple]
  dsimp only
  rw [if_pos rfl, unicodeEscape, hexUnit_digits (by omega) (by omega), hvalue]
  simp [htrailing, hleading]

/-- An escape in a string is one character. -/
theorem unquote_escape {x : Char} {s rest : List Char} (h : escape s = .ok (x, rest)) :
    unquote ('\\' :: s) = (unquote rest).map fun p => (x :: p.1, p.2) := by
  rw [unquote]
  simp only [Char.reduceEq, if_false, if_true]
  split
  · next heq => rw [heq] at h; cases h
  · next heq =>
    rw [heq] at h
    obtain ⟨rfl, rfl⟩ := Prod.mk.inj (Except.ok.inj h)
    rfl

/-- A quoted character is read back, whatever follows. -/
theorem unquote_quoteChar (c : Char) (rest : List Char) :
    unquote (quoteChar c ++ rest) = (unquote rest).map fun p => (c :: p.1, p.2) := by
  unfold quoteChar
  split
  · next h => subst h; exact unquote_escape rfl
  split
  · next h => subst h; exact unquote_escape rfl
  split
  · next h => subst h; exact unquote_escape rfl
  split
  · next h => subst h; exact unquote_escape rfl
  split
  · next h => subst h; exact unquote_escape rfl
  split
  · next h => subst h; exact unquote_escape rfl
  split
  · next h => subst h; exact unquote_escape rfl
  split
  · next h => exact unquote_escape (escape_control h rest)
  · next hquote hbackslash _ _ _ _ _ hcontrol =>
    rw [List.singleton_append, unquote, if_neg hquote, if_neg hbackslash, if_neg hcontrol]

theorem unquote_flatMap (cs rest : List Char) :
    unquote (cs.flatMap quoteChar ++ '"' :: rest) = .ok (cs, rest) := by
  induction cs with
  | nil => rw [List.flatMap_nil, List.nil_append, unquote, if_pos rfl]
  | cons c cs ih =>
    rw [List.flatMap_cons, List.append_assoc, unquote_quoteChar, ih]
    rfl

/-- A written string, taken apart at its opening quote. -/
theorem quote_append (s : String) (rest : List Char) :
    quote s ++ rest = '"' :: (s.toList.flatMap quoteChar ++ '"' :: rest) := by
  simp [quote]

theorem readString_quoted (s : String) (rest : List Char) :
    readString (s.toList.flatMap quoteChar ++ '"' :: rest) = .ok (s, rest) := by
  rw [readString, unquote_flatMap]
  exact congrArg (fun x => Except.ok (x, rest)) (String.ofList_toList ..)

/-- A quoted string is read back. -/
theorem value_quote (depth : Nat) (s : String) (rest : List Char) :
    value depth (quote s ++ rest) = .ok (.string s, rest) := by
  have hscalar : readScalar? '"' (s.toList.flatMap quoteChar ++ '"' :: rest) =
      some (.ok (.string s, rest)) := by
    have hread := readString_quoted s rest
    simp only [readScalar?, hread]
    rfl
  rw [quote_append, value, fuelFor, readValue, skipBlanks_cons rfl]
  dsimp only
  rw [hscalar]

/-- Items with a comma before each of them, save the one that a list begins with. -/
def separated : Bool → List (List Char) → List Char
  | _, [] => []
  | isFirst, x :: xs => (if isFirst then x else ',' :: x) ++ separated false xs

theorem intercalate_eq_separated (xs : List (List Char)) :
    [','].intercalate xs = separated true xs := by
  have hlater (x : List Char) (xs : List (List Char)) :
      [','].intercalate (x :: xs) = x ++ separated false xs := by
    induction xs generalizing x with
    | nil => simp [separated]
    | cons y xs ih =>
      rw [List.intercalate_cons_cons, ih, separated, if_neg Bool.false_ne_true]
      simp
  cases xs with
  | nil => rfl
  | cons x xs => rw [hlater, separated, if_pos rfl]

theorem separated_append (isFirst : Bool) (x : List Char) (xs : List (List Char))
    (rest : List Char) :
    separated isFirst (x :: xs) ++ rest =
      if isFirst then x ++ (separated false xs ++ rest)
      else ',' :: (x ++ (separated false xs ++ rest)) := by
  cases isFirst <;> simp [separated]

/-- Every item takes a character at least, so a text offers enough fuel to read its items. -/
theorem length_lt_separated {α : Type} (xs : List α) (write : α → List Char)
    (h : ∀ x, 0 < (write x).length) (rest : List Char) :
    xs.length < (separated true (xs.map write) ++ rest).length + 1 := by
  have hle (isFirst : Bool) : xs.length ≤ (separated isFirst (xs.map write)).length := by
    induction xs generalizing isFirst with
    | nil => exact Nat.zero_le _
    | cons x xs ih =>
      have hx := h x
      have hxs := ih false
      cases isFirst <;> simp [separated] <;> omega
  have hxs := hle true
  rw [List.length_append]
  omega

section Punctuation

variable {c : Char} {s : List Char}

/-- An item of an array follows a comma, unless it is the first one. -/
theorem nextElement_item (isFirst : Bool) (s : List Char) (hblank : isBlank c = false)
    (hend : c ≠ ']') :
    nextElement isFirst (if isFirst then c :: s else ',' :: c :: s) = .ok (true, c :: s) := by
  cases isFirst with
  | true => simp [nextElement, skipBlanks_cons hblank, hend]
  | false =>
    have hcomma : skipBlanks (',' :: c :: s) = ',' :: c :: s := skipBlanks_cons rfl _
    simp [nextElement, hcomma, skipBlanks_cons hblank, hend]

theorem nextElement_end (isFirst : Bool) (s : List Char) :
    nextElement isFirst (']' :: s) = .ok (false, s) := by
  rw [nextElement, skipBlanks_cons rfl]
  rfl

/-- A member of an object follows a comma, unless it is the first one. -/
theorem nextKey_item (isFirst : Bool) (s : List Char) :
    nextKey isFirst (if isFirst then '"' :: s else ',' :: '"' :: s) = .ok (true, s) := by
  have hquote : skipBlanks ('"' :: s) = '"' :: s := skipBlanks_cons rfl _
  cases isFirst with
  | true => simp [nextKey, hquote]
  | false =>
    have hcomma : skipBlanks (',' :: '"' :: s) = ',' :: '"' :: s := skipBlanks_cons rfl _
    simp [nextKey, hcomma, hquote]

/-- A member is reached behind the opening quote of its key. -/
theorem nextKey_member (isFirst : Bool) (key : String) (value : List Char)
    (items : List (List Char)) (rest : List Char) :
    nextKey isFirst (separated isFirst ((quote key ++ ':' :: value) :: items) ++ rest) =
      .ok (true, key.toList.flatMap quoteChar ++
        '"' :: (':' :: (value ++ (separated false items ++ rest)))) := by
  rw [separated_append, List.append_assoc, List.cons_append, quote_append]
  exact nextKey_item isFirst _

theorem nextKey_end (isFirst : Bool) (s : List Char) :
    nextKey isFirst ('\x7d' :: s) = .ok (false, s) := by
  rw [nextKey, skipBlanks_cons rfl]
  rfl

theorem punctuation_cons (hblank : isBlank c = false) : punctuation c (c :: s) = .ok s := by
  rw [punctuation, skipBlanks_cons hblank]
  exact if_pos rfl

end Punctuation

end Json

namespace OrderedMap

variable {κ α : Type} [DecidableEq κ]

/-- A map has as many places as its list, in the same order. -/
theorem toList_ofList_toList (m : OrderedMap κ α) : (ofList m.toList).toList = m.toList := by
  have h := toList_mapKeys (m := m) (f := id) fun _ _ _ h => h
  simpa [mapKeys] using h

end OrderedMap

namespace LanguageOptions

open Json (quote separated)

namespace Reader

variable {α β : Type}

theorem bind_ok {r : Reader α} {f : α → Reader β} {s s' : List Char} {a : α}
    (h : r s = .ok (a, s')) : (r >>= f) s = f a s' := by
  show Except.bind (r s) (fun p => f p.1 p.2) = f a s'
  rw [h]
  rfl

theorem ofJson_ok {r : Json.Reader α} {s s' : List Char} {a : α} (h : r s = .ok (a, s')) :
    ofJson r s = .ok (a, s') := by
  rw [ofJson, h]
  rfl

theorem ofRest_ok {f : List Char → Except Json.Fault (List Char)} {s s' : List Char}
    (h : f s = .ok s') : ofRest f s = .ok ((), s') := by
  rw [ofRest, h]
  rfl

theorem peek_cons {c : Char} (hc : Json.isBlank c = false) (s : List Char) :
    peek (c :: s) = .ok (c, c :: s) := by
  unfold peek
  rw [bind_ok (a := c :: s) rfl, bind_ok (a := ⟨⟩) rfl, Json.skipBlanks_cons hc,
    bind_ok (a := c :: s) rfl]
  rfl

theorem advance_cons (c : Char) (s : List Char) : advance (c :: s) = .ok ((), s) :=
  rfl

theorem string_quote (x : String) (rest : List Char) :
    string (quote x ++ rest) = .ok (x, rest) := by
  unfold string
  rw [Json.quote_append, bind_ok (peek_cons rfl _), if_pos rfl, bind_ok (advance_cons _ _)]
  exact ofJson_ok (Json.readString_quoted x rest)

theorem bool_jsonBool (b : Bool) (rest : List Char) :
    bool (jsonBool b ++ rest) = .ok (b, rest) := by
  unfold bool
  cases b with
  | false =>
    show (peek >>= _) ('f' :: 'a' :: 'l' :: 's' :: 'e' :: rest) = _
    rw [bind_ok (peek_cons rfl _), if_neg (by decide), if_pos rfl, bind_ok (advance_cons _ _)]
    exact bind_ok (ofRest_ok (Json.word_append "alse" rest))
  | true =>
    show (peek >>= _) ('t' :: 'r' :: 'u' :: 'e' :: rest) = _
    rw [bind_ok (peek_cons rfl _), if_pos rfl, bind_ok (advance_cons _ _)]
    exact bind_ok (ofRest_ok (Json.word_append "rue" rest))

/-- An optional value is read if its text does not look like `null`. -/
theorem option_jsonOption {α : Type} {read : Reader α} {write : α → List Char}
    (hhead : ∀ a, ∃ c s, write a = c :: s ∧ Json.isBlank c = false ∧ c ≠ 'n')
    (hread : ∀ a rest, read (write a ++ rest) = .ok (a, rest)) (value : Option α)
    (rest : List Char) : option read (jsonOption write value ++ rest) = .ok (value, rest) := by
  unfold option
  cases value with
  | none =>
    show (peek >>= _) ('n' :: 'u' :: 'l' :: 'l' :: rest) = _
    rw [bind_ok (peek_cons rfl _), if_pos rfl, bind_ok (advance_cons _ _)]
    exact bind_ok (ofRest_ok (Json.word_append "ull" rest))
  | some a =>
    obtain ⟨c, s, hwrite, hblank, hn⟩ := hhead a
    have hread := hread a rest
    rw [jsonOption]
    rw [hwrite, List.cons_append] at hread ⊢
    rw [bind_ok (peek_cons hblank _), if_neg hn, bind_ok hread]
    rfl

theorem sourceType_quote (sourceType' : SourceType) (rest : List Char) :
    sourceType (quote sourceType'.text ++ rest) = .ok (sourceType', rest) := by
  unfold sourceType
  rw [Json.quote_append, bind_ok (peek_cons rfl _), if_pos rfl, bind_ok (advance_cons _ _),
    bind_ok (ofJson_ok (Json.readString_quoted _ rest))]
  cases sourceType' <;> rfl

/-- A list of strings is read back in its order. -/
theorem strings_separated (xs : List String) (isFirst : Bool) (found : List String)
    {fuel : Nat} (hfuel : xs.length < fuel) (rest : List Char) :
    strings fuel isFirst found (separated isFirst (xs.map quote) ++ ']' :: rest) =
      .ok (found ++ xs, rest) := by
  induction xs generalizing fuel isFirst found with
  | nil =>
    obtain ⟨fuel, rfl⟩ := Nat.exists_eq_add_one.2 hfuel
    rw [strings, List.map_nil, separated, List.nil_append,
      bind_ok (ofJson_ok (Json.nextElement_end isFirst rest)), List.append_nil]
    rfl
  | cons x xs ih =>
    obtain ⟨fuel, rfl⟩ := Nat.exists_eq_add_one.2 (Nat.zero_lt_of_lt hfuel)
    have hnext := Json.nextElement_item isFirst (x.toList.flatMap Json.quoteChar ++ '"' ::
      (separated false (xs.map quote) ++ ']' :: rest)) (c := '"') rfl (by decide)
    rw [← Json.quote_append] at hnext
    rw [strings, List.map_cons, Json.separated_append, bind_ok (ofJson_ok hnext), if_pos rfl,
      bind_ok (string_quote x _), ih false (found ++ [x]) (Nat.lt_of_succ_lt_succ hfuel),
      List.append_assoc, List.singleton_append]

/-- A list of strings is read element by element, so its text is longer than the list. -/
theorem env_separated (xs : List String) (rest : List Char) :
    env ('[' :: (separated true (xs.map quote) ++ ']' :: rest)) = .ok (xs, rest) := by
  have hlength := Json.length_lt_separated xs quote (fun _ => Nat.succ_pos _)
    (']' :: rest)
  unfold env
  rw [bind_ok (peek_cons rfl _), if_pos rfl, bind_ok (advance_cons _ _), bind_ok (a := _) rfl,
    strings_separated xs true [] hlength, List.nil_append]

theorem globalValue_quote (v : GlobalValue) (rest : List Char) :
    globalValue (quote v.text ++ rest) = .ok (v, rest) := by
  unfold globalValue
  rw [bind_ok (ofJson_ok (Json.value_quote 125 v.text rest))]
  cases v <;> rfl

theorem entries_separated (es : List (String × GlobalValue)) (isFirst : Bool)
    (found : OrderedMap String GlobalValue) {fuel : Nat} (hfuel : es.length < fuel)
    (rest : List Char) :
    entries fuel isFirst found (separated isFirst (es.map jsonGlobal) ++ '\x7d' :: rest) =
      .ok (es.foldl (fun m e => m.insert e.1 e.2) found, rest) := by
  induction es generalizing fuel isFirst found with
  | nil =>
    obtain ⟨fuel, rfl⟩ := Nat.exists_eq_add_one.2 hfuel
    rw [entries, List.map_nil, separated, List.nil_append,
      bind_ok (ofJson_ok (Json.nextKey_end isFirst rest))]
    rfl
  | cons e es ih =>
    obtain ⟨fuel, rfl⟩ := Nat.exists_eq_add_one.2 (Nat.zero_lt_of_lt hfuel)
    rw [entries, List.map_cons, jsonGlobal, bind_ok (ofJson_ok (Json.nextKey_member ..)),
      if_pos rfl, bind_ok (ofJson_ok (Json.readString_quoted ..)),
      bind_ok (ofRest_ok (Json.punctuation_cons rfl)), bind_ok (globalValue_quote e.2 _),
      ih false _ (Nat.lt_of_succ_lt_succ hfuel), List.foldl_cons]

/-- The globals are read back in their order. -/
theorem globals_separated (m : OrderedMap String GlobalValue) (rest : List Char) :
    globals ('\x7b' :: (separated true (m.toList.map jsonGlobal) ++ '\x7d' :: rest)) =
      .ok (.ofList m.toList, rest) := by
  have hlength := Json.length_lt_separated m.toList jsonGlobal
    (fun _ => Nat.succ_pos _) ('\x7d' :: rest)
  unfold globals
  rw [bind_ok (peek_cons rfl _), if_pos rfl, bind_ok (advance_cons _ _), bind_ok (a := _) rfl,
    entries_separated _ true {} hlength]
  rfl

end Reader

section Fields

variable (o : LanguageOptions)

def jsonField : Field → List Char
  | .sourceType => jsonOption (quote ·.text) o.sourceType
  | .env => '[' :: [','].intercalate (o.env.map quote) ++ [']']
  | .globals => '\x7b' :: [','].intercalate (o.globals.toList.map jsonGlobal) ++ ['\x7d']
  | .impliedStrict => jsonBool o.impliedStrict
  | .globalReturn => jsonOption jsonBool o.globalReturn

/-- The options `read` with a field as in `o`; the globals are entered one by one. -/
def withField (read : LanguageOptions) : Field → LanguageOptions
  | .sourceType => { read with sourceType := o.sourceType }
  | .env => { read with env := o.env }
  | .globals => { read with globals := .ofList o.globals.toList }
  | .impliedStrict => { read with impliedStrict := o.impliedStrict }
  | .globalReturn => { read with globalReturn := o.globalReturn }

theorem toJsonChars_eq : o.toJsonChars =
    '\x7b' :: (separated true (Field.all.map fun f => jsonMember f (o.jsonField f)) ++
      ['\x7d']) := by
  rw [← Json.intercalate_eq_separated]
  rfl

open Reader

/-- Each field is read back. -/
theorem field_jsonField (read : LanguageOptions) (f : Field) (rest : List Char) :
    field read f (o.jsonField f ++ rest) = .ok (o.withField read f, rest) := by
  cases f with
  | sourceType =>
    have hhead (s : SourceType) : ∃ c tail, quote s.text = c :: tail ∧
        Json.isBlank c = false ∧ c ≠ 'n' := ⟨_, _, rfl, rfl, by decide⟩
    exact bind_ok (option_jsonOption hhead sourceType_quote o.sourceType rest)
  | env =>
    have htext : o.jsonField .env ++ rest =
        '[' :: (separated true (o.env.map quote) ++ ']' :: rest) := by
      simp [jsonField, Json.intercalate_eq_separated]
    rw [htext]
    exact bind_ok (env_separated o.env rest)
  | globals =>
    have htext : o.jsonField .globals ++ rest =
        '\x7b' :: (separated true (o.globals.toList.map jsonGlobal) ++ '\x7d' :: rest) := by
      simp [jsonField, Json.intercalate_eq_separated]
    rw [htext]
    exact bind_ok (globals_separated o.globals rest)
  | impliedStrict => exact bind_ok (bool_jsonBool o.impliedStrict rest)
  | globalReturn =>
    have hhead (b : Bool) : ∃ c tail, jsonBool b = c :: tail ∧ Json.isBlank c = false ∧
        c ≠ 'n' := by
      cases b
      · exact ⟨'f', _, rfl, rfl, by decide⟩
      · exact ⟨'t', _, rfl, rfl, by decide⟩
    exact bind_ok (option_jsonOption hhead bool_jsonBool o.globalReturn rest)

/-- Members that name different fields are read one after the other. -/
theorem members_separated (fs : List Field) (isFirst : Bool) {seen : List Field}
    (hnodup : fs.Nodup) (hseen : ∀ f ∈ fs, f ∉ seen) (read : LanguageOptions) {fuel : Nat}
    (hfuel : fs.length < fuel) (rest : List Char) :
    members fuel isFirst seen read
        (separated isFirst (fs.map fun f => jsonMember f (o.jsonField f)) ++ '\x7d' :: rest) =
      .ok (fs.foldl o.withField read, rest) := by
  induction fs generalizing fuel isFirst seen read with
  | nil =>
    obtain ⟨fuel, rfl⟩ := Nat.exists_eq_add_one.2 hfuel
    rw [members, List.map_nil, separated, List.nil_append,
      bind_ok (ofJson_ok (Json.nextKey_end isFirst rest))]
    rfl
  | cons f fs ih =>
    obtain ⟨fuel, rfl⟩ := Nat.exists_eq_add_one.2 (Nat.zero_lt_of_lt hfuel)
    obtain ⟨hf, hnodup⟩ := List.nodup_cons.1 hnodup
    have hname : Field.ofName? f.name = some f := by cases f <;> rfl
    have hlater : ∀ f' ∈ fs, f' ∉ f :: seen := by
      intro f' hf' hmem
      rcases List.mem_cons.1 hmem with rfl | hmem
      · exact hf hf'
      · exact hseen f' (List.mem_cons_of_mem _ hf') hmem
    rw [members, List.map_cons, jsonMember, bind_ok (ofJson_ok (Json.nextKey_member ..)),
      if_pos rfl, bind_ok (ofJson_ok (Json.readString_quoted ..)), hname]
    dsimp only
    rw [if_neg (hseen f (List.mem_cons_self ..)), bind_ok (ofRest_ok (Json.punctuation_cons rfl)),
      bind_ok (field_jsonField o read f _),
      ih false hnodup hlater _ (Nat.lt_of_succ_lt_succ hfuel), List.foldl_cons]

end Fields

/-- Options that are written as JSON can be read again, and they come back as they were, with
environments and globals in the same order. -/
theorem ofJson_toJson (o : LanguageOptions) : ∃ read, ofJson o.toJson = .ok read ∧
    read.sourceType = o.sourceType ∧ read.env = o.env ∧
    read.globals.toList = o.globals.toList ∧ read.impliedStrict = o.impliedStrict ∧
    read.globalReturn = o.globalReturn := by
  have hlength := Json.length_lt_separated Field.all
    (fun f => jsonMember f (o.jsonField f)) (fun _ => Nat.succ_pos _) ['\x7d']
  have hmembers := members_separated o Field.all true (by decide) (fun _ _ => List.not_mem_nil)
    {} hlength []
  have hread : Reader.options.run o.toJson.toList =
      .ok ({ o with globals := .ofList o.globals.toList }, []) := by
    rw [toJson, String.toList_ofList, toJsonChars_eq]
    show Reader.options _ = _
    unfold Reader.options
    rw [Reader.bind_ok (Reader.peek_cons rfl _), if_pos rfl,
      Reader.bind_ok (Reader.advance_cons _ _), Reader.bind_ok (a := _) rfl, hmembers]
    rfl
  refine ⟨{ o with globals := .ofList o.globals.toList }, ?_, rfl, rfl,
    OrderedMap.toList_ofList_toList _, rfl, rfl⟩
  rw [ofJson, hread]
  rfl

end LanguageOptions

end LexicalScope
