import LexicalScope.Options.Error
import LexicalScope.Options.LanguageOptions

/-!
Language options as JSON. `toJson` writes an object with all five fields. `ofJson` reads an
object with any of them, or an array with the fields by position, in a single pass that stops at
the first error. Unknown fields are skipped, a field given twice is an error, and a global given
twice keeps its place and takes the later value.
-/
namespace LexicalScope.LanguageOptions

inductive Field where
  | sourceType | env | globals | impliedStrict | globalReturn
deriving DecidableEq

namespace Field

def all : List Field :=
  [sourceType, env, globals, impliedStrict, globalReturn]

def name : Field → String
  | sourceType => "sourceType"
  | env => "env"
  | globals => "globals"
  | impliedStrict => "impliedStrict"
  | globalReturn => "globalReturn"

def ofName? : String → Option Field :=
  spelled? name all

end Field

def jsonBool (b : Bool) : List Char :=
  (if b then "true" else "false").toList

def jsonOption {α : Type} (write : α → List Char) : Option α → List Char
  | some a => write a
  | none => "null".toList

def jsonGlobal (entry : String × GlobalValue) : List Char :=
  Json.quote entry.1 ++ ':' :: Json.quote entry.2.text

def jsonMember (f : Field) (value : List Char) : List Char :=
  Json.quote f.name ++ ':' :: value

def toJsonChars (o : LanguageOptions) : List Char :=
  let members := [
    jsonMember .sourceType (jsonOption (Json.quote ·.text) o.sourceType),
    jsonMember .env ('[' :: [','].intercalate (o.env.map Json.quote) ++ [']']),
    jsonMember .globals
      ('\x7b' :: [','].intercalate (o.globals.toList.map jsonGlobal) ++ ['\x7d']),
    jsonMember .impliedStrict (jsonBool o.impliedStrict),
    jsonMember .globalReturn (jsonOption jsonBool o.globalReturn)]
  '\x7b' :: [','].intercalate members ++ ['\x7d']

def toJson (o : LanguageOptions) : String :=
  String.ofList o.toJsonChars

abbrev Reader (α : Type) := StateT (List Char) (Except OptionsError) α

namespace Reader

def ofJson {α : Type} (r : Json.Reader α) : Reader α := fun s =>
  (r s).mapError .ofFault

def ofRest (f : List Char → Except Json.Fault (List Char)) : Reader Unit := fun s =>
  ((f s).map ((), ·)).mapError .ofFault

def fail {α : Type} (reason : Mismatch) : Reader α :=
  throw (.mismatch reason)

def peek : Reader Char := do
  set (Json.skipBlanks (← get))
  match ← get with
  | [] => throw .truncated
  | c :: _ => return c

def advance : Reader Unit :=
  modify (·.drop 1)

/-- Refuses the value that begins here with character `c`, because `expected` had to stand here.
Scalars are read first, and their own errors come before this one. -/
def refuse {α : Type} (c : Char) (expected : String) : Reader α := do
  let rest := (← get).drop 1
  match Json.readScalar? c rest with
  | some (.ok (shape, _)) => fail (.invalidType shape expected)
  | some (.error e) => throw (.ofFault e)
  | none =>
    if c = '[' then fail (.invalidType .sequence expected)
    else if c = '\x7b' then fail (.invalidType .map expected)
    else throw .malformed

def string : Reader String := do
  let c ← peek
  if c = '"' then
    advance
    ofJson Json.readString
  else refuse c "a string"

def bool : Reader Bool := do
  let c ← peek
  if c = 't' then
    advance
    ofRest (Json.word "rue")
    return true
  else if c = 'f' then
    advance
    ofRest (Json.word "alse")
    return false
  else refuse c "a boolean"

def option {α : Type} (read : Reader α) : Reader (Option α) := do
  let c ← peek
  if c = 'n' then
    advance
    ofRest (Json.word "ull")
    return none
  else return some (← read)

def variant (name : String) : Reader SourceType :=
  match SourceType.ofText? name with
  | some sourceType => return sourceType
  | none => fail (.unknownVariant name)

/-- A source type is a string, or an object that maps the string to `null`. -/
def sourceType : Reader SourceType := do
  let c ← peek
  if c = '"' then
    advance
    variant (← ofJson Json.readString)
  else if c = '\x7b' then
    advance
    ofRest (Json.punctuation '"')
    let found ← variant (← ofJson Json.readString)
    ofRest (Json.punctuation ':')
    let c ← peek
    if c = 'n' then
      advance
      ofRest (Json.word "ull")
    else refuse c "unit"
    ofRest (Json.punctuation '\x7d')
    return found
  else throw .malformed

def strings : Nat → Bool → List String → Reader (List String)
  | 0, _, _ => throw .truncated
  | fuel + 1, isFirst, found => do
    if ← ofJson (Json.nextElement isFirst) then
      strings fuel false (found ++ [← string])
    else return found

def env : Reader (List String) := do
  let c ← peek
  if c = '[' then
    advance
    strings ((← get).length + 1) true []
  else refuse c "a sequence"

/-- The value of a global: a spelled value, or whether it is writable. It stands two levels
deep, so it may itself nest 125 deep before it is refused. -/
def globalValue : Reader GlobalValue := do
  match ← ofJson (Json.value 125) with
  | .boolean b => return .ofBool b
  | .string s =>
    match GlobalValue.ofText? s with
    | some value => return value
    | none => fail (.invalidGlobalValue s)
  | _ => fail .unfitGlobal

def entries : Nat → Bool → OrderedMap String GlobalValue → Reader (OrderedMap String GlobalValue)
  | 0, _, _ => throw .truncated
  | fuel + 1, isFirst, found => do
    if ← ofJson (Json.nextKey isFirst) then
      let name ← ofJson Json.readString
      ofRest (Json.punctuation ':')
      entries fuel false (found.insert name (← globalValue))
    else return found

def globals : Reader (OrderedMap String GlobalValue) := do
  let c ← peek
  if c = '\x7b' then
    advance
    entries ((← get).length + 1) true {}
  else refuse c "a map"

def field (o : LanguageOptions) : Field → Reader LanguageOptions
  | .sourceType => return { o with sourceType := ← option sourceType }
  | .env => return { o with env := ← env }
  | .globals => return { o with globals := ← globals }
  | .impliedStrict => return { o with impliedStrict := ← bool }
  | .globalReturn => return { o with globalReturn := ← option bool }

def members : Nat → Bool → List Field → LanguageOptions → Reader LanguageOptions
  | 0, _, _, _ => throw .truncated
  | fuel + 1, isFirst, seen, o => do
    if ← ofJson (Json.nextKey isFirst) then
      let name ← ofJson Json.readString
      match Field.ofName? name with
      | none =>
        ofRest (Json.punctuation ':')
        ofRest Json.afterValue
        members fuel false seen o
      | some f =>
        if f ∈ seen then fail (.duplicateField name)
        else
          ofRest (Json.punctuation ':')
          members fuel false (f :: seen) (← field o f)
    else return o

/-- The elements of an array; the fields that it leaves out keep their defaults. -/
def elements (isFirst : Bool) (o : LanguageOptions) : List Field → Reader LanguageOptions
  | [] => do
    ofRest (Json.punctuation ']')
    return o
  | f :: fs => do
    if ← ofJson (Json.nextElement isFirst) then elements false (← field o f) fs
    else return o

def options : Reader LanguageOptions := do
  let c ← peek
  if c = '\x7b' then
    advance
    members ((← get).length + 1) true [] {}
  else if c = '[' then
    advance
    elements true {} Field.all
  else refuse c "struct LanguageOptions"

end Reader

/-- The options that a text describes; nothing but blanks may stand around them. -/
def ofJson (text : String) : Except OptionsError LanguageOptions := do
  let (o, rest) ← Reader.options.run text.toList
  if (Json.skipBlanks rest).isEmpty then return o else throw .malformed

end LexicalScope.LanguageOptions
