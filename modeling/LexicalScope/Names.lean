/-!
Name tables. A text that enters a table gets a small handle, and tables of scopes compare
handles instead of texts. Tables only grow, so a handle keeps its text. A pool holds the tables
of several files; files with the same table number share their names.
-/
namespace LexicalScope

structure Name where
  index : Nat
deriving DecidableEq

structure NameTable where
  texts : Array String := #[]
  distinct : texts.toList.Nodup := by simp

namespace NameTable

def size (t : NameTable) : Nat :=
  t.texts.size

def isEmpty (t : NameTable) : Bool :=
  t.texts.isEmpty

/-- The handle of `text`, which is the place of `text` in the table. A text that is not in the
table gets the handle that it would receive next. -/
def handle (t : NameTable) (text : String) : Name :=
  ⟨t.texts.idxOf text⟩

def contains (t : NameTable) (text : String) : Bool :=
  t.texts.contains text

def get? (t : NameTable) (text : String) : Option Name :=
  if t.contains text then some (t.handle text) else none

def resolve? (t : NameTable) (n : Name) : Option String :=
  t.texts[n.index]?

def resolve (t : NameTable) (n : Name) : String :=
  (t.resolve? n).getD ""

def add (t : NameTable) (text : String) : NameTable :=
  if h : t.contains text then t
  else
    { texts := t.texts.push text
      distinct := by
        have hnew : text ∉ t.texts.toList := by simpa [contains] using h
        simp only [Array.toList_push, List.nodup_append, List.mem_singleton]
        exact ⟨t.distinct, by simp, fun a ha b hb hab => hnew (hb ▸ hab ▸ ha)⟩ }

def addAll (t : NameTable) (texts : List String) : NameTable :=
  texts.foldl add t

def intern (t : NameTable) (text : String) : NameTable × Name :=
  (t.add text, (t.add text).handle text)

/-- What a table shows of itself in a log: only how many names it holds. -/
def summary (t : NameTable) : String :=
  "StringInterner(" ++ toString t.size ++ " names)"

theorem mem_texts_add (t : NameTable) (text x : String) :
    x ∈ (t.add text).texts ↔ x ∈ t.texts ∨ x = text := by
  unfold add
  split
  · next h =>
    have : text ∈ t.texts := by simpa [contains] using h
    exact ⟨.inl, fun hx => hx.elim id (· ▸ this)⟩
  · simp

end NameTable

structure TableId where
  index : Nat
deriving DecidableEq

structure NamePool where
  tables : Array NameTable := #[]

namespace NamePool

def table (p : NamePool) (id : TableId) : NameTable :=
  p.tables[id.index]?.getD {}

def fresh (p : NamePool) : NamePool × TableId :=
  (⟨p.tables.push {}⟩, ⟨p.tables.size⟩)

def set (p : NamePool) (id : TableId) (t : NameTable) : NamePool :=
  ⟨p.tables.setIfInBounds id.index t⟩

end NamePool

end LexicalScope
