import LexicalScope.Options.GlobalValue
import LexicalScope.Text.Identifier
import LexicalScope.Text.WhiteSpace

/-!
The grammar of one directive comment. Its text is the keyword `global`, `globals` or `exported`,
white space, and a list of entries between commas. White space, two or more dashes and white
space begin a description, which does not count. An entry that is not well formed is skipped.
-/
namespace LexicalScope

inductive Directive where
  | globals (entries : List (String × GlobalValue))
  | exported (names : List String)
deriving DecidableEq

namespace Directive

def beginsDescription (s : List Char) : Bool :=
  2 ≤ (s.takeWhile (· = '-')).length && (s.dropWhile (· = '-')).head?.any isWhiteSpace

def cutDescription : List Char → List Char
  | [] => []
  | c :: rest =>
    if isWhiteSpace c && beginsDescription rest then [] else c :: cutDescription rest

/-- The pieces between commas; there is always at least one. -/
def pieces : List Char → List (List Char)
  | [] => [[]]
  | c :: rest =>
    if c = ',' then [] :: pieces rest
    else
      match pieces rest with
      | [] => [[c]]
      | p :: ps => (c :: p) :: ps

/-- What follows a keyword and at least one white space character. -/
def afterKeyword? (keyword : String) (s : List Char) : Option (List Char) :=
  if keyword.toList.isPrefixOf s then
    let rest := s.drop keyword.length
    if rest.head?.any isWhiteSpace then some rest else none
  else none

/-- A trimmed entry `name` or `name:value`. Only the value may have white space before it. -/
def globalEntry? (s : List Char) : Option (String × GlobalValue) :=
  let name := s.takeWhile (· ≠ ':')
  let value? :=
    match s.dropWhile (· ≠ ':') with
    | [] => some none
    | _ :: value =>
      let value := trimLeft value
      if value.isEmpty || value.any isWhiteSpace then none else some (some (String.ofList value))
  match value? with
  | none => none
  | some value =>
    if isIdentifierName name then some (String.ofList name, .ofDirective value) else none

def exportedName? (s : List Char) : Option String :=
  if isIdentifierName s then some (String.ofList s) else none

def ofComment? (text : String) : Option Directive :=
  let s := trim (cutDescription text.toList)
  let entries := fun rest => (pieces rest).map trim
  match (afterKeyword? "globals" s).or (afterKeyword? "global" s) with
  | some rest => some (.globals ((entries rest).filterMap globalEntry?))
  | none =>
    (afterKeyword? "exported" s).map fun rest =>
      .exported ((entries rest).filterMap exportedName?)

end Directive

end LexicalScope
