/-!
What a file may do with a global. Configuration knows a fixed set of spellings and refuses all
others; directive comments take every other spelling for readonly.
-/
namespace LexicalScope

/-- The value `off` disables a global, also one that an environment would bring in. -/
inductive GlobalValue where
  | readonly | writable | off
deriving DecidableEq

namespace GlobalValue

def text : GlobalValue → String
  | readonly => "readonly"
  | writable => "writable"
  | off => "off"

def isWritable (v : GlobalValue) : Bool :=
  v = writable

def isOff (v : GlobalValue) : Bool :=
  v = off

def ofBool (isWritable : Bool) : GlobalValue :=
  if isWritable then writable else readonly

def ofText? (s : String) : Option GlobalValue :=
  if s = "off" then some off
  else if s = "true" || s = "writable" || s = "writeable" then some writable
  else if s = "false" || s = "readonly" || s = "readable" then some readonly
  else none

/-- The value that a directive comment gives to a name, with or without a spelled value. -/
def ofDirective (spelling : Option String) : GlobalValue :=
  match spelling with
  | none => readonly
  | some s =>
    if s = "off" then off
    else if s = "true" || s = "writable" || s = "writeable" then writable
    else readonly

end GlobalValue

end LexicalScope
