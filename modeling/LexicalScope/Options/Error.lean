import LexicalScope.Json.Value
import LexicalScope.Options.GlobalValue
import LexicalScope.Text.Printable

/-!
What can be wrong with options. A text may not be JSON, it may end early, or it may be JSON that
does not describe options; only the last kind is explained in words.
-/
namespace LexicalScope

def invalidGlobalValueMessage (spelling : String) : String :=
  "'" ++ spelling ++
    "' is not a valid configuration for a global (use 'readonly', 'writable', or 'off')"

/-- Why well-formed JSON does not describe options. -/
inductive Mismatch where
  | invalidType (found : Json.Shape) (expected : String)
  | unknownVariant (name : String)
  | duplicateField (name : String)
  | unfitGlobal
  | invalidGlobalValue (spelling : String)
deriving DecidableEq

inductive OptionsError where
  | malformed
  | truncated
  | mismatch (reason : Mismatch)
  | invalidGlobalValue (spelling : String)
deriving DecidableEq

def GlobalValue.parse (s : String) : Except OptionsError GlobalValue :=
  match ofText? s with
  | some value => .ok value
  | none => .error (.invalidGlobalValue s)

def OptionsError.ofFault : Json.Fault → OptionsError
  | .malformed => malformed
  | .truncated => truncated

/-- A character as messages show it inside quotes: as itself, with a short escape, or by its
code point if it would not be seen. -/
def displayChar (c : Char) : List Char :=
  if c = '"' then ['\\', '"']
  else if c = '\\' then ['\\', '\\']
  else if c = '\x00' then ['\\', '0']
  else if c = '\t' then ['\\', 't']
  else if c = '\n' then ['\\', 'n']
  else if c = '\r' then ['\\', 'r']
  else if Unicode.isDisplayable c then [c]
  else ['\\', 'u', '\x7b'] ++ Nat.toDigits 16 c.toNat ++ ['\x7d']

def displayString (s : String) : String :=
  String.ofList ('"' :: s.toList.flatMap displayChar ++ ['"'])

def displayNumber : Json.Number → String
  | .integer n => "integer `" ++ toString n ++ "`"
  | .double x => "floating point `" ++ x.textWith .forMessages ++ "`"

def displayShape : Json.Shape → String
  | .null => "null"
  | .boolean b => "boolean `" ++ (if b then "true" else "false") ++ "`"
  | .number n => displayNumber n
  | .string s => "string " ++ displayString s
  | .sequence => "sequence"
  | .map => "map"

def Mismatch.message : Mismatch → String
  | invalidType found expected =>
    "invalid type: " ++ displayShape found ++ ", expected " ++ expected
  | unknownVariant name =>
    "unknown variant `" ++ name ++ "`, expected one of `script`, `module`, `commonjs`"
  | duplicateField name => "duplicate field `" ++ name ++ "`"
  | unfitGlobal => "data did not match any variant of untagged enum Raw"
  | invalidGlobalValue spelling => invalidGlobalValueMessage spelling

/-- The explanation of an error; none where only its kind is reported. -/
def OptionsError.message? : OptionsError → Option String
  | malformed | truncated => none
  | mismatch reason => some ("invalid language options: " ++ reason.message)
  | invalidGlobalValue spelling => some (invalidGlobalValueMessage spelling)

end LexicalScope
