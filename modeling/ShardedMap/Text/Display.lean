/-
  Texts of records and lists, on one line or spread over several. A spread record has one field a
  line, four blanks deeper than its braces and followed by a comma; lists likewise.
-/
namespace ShardedMap

/-- A value as text, in both forms. -/
structure Display where
  line : String
  lines : List String

namespace Display

/-- The text, spread or on one line. -/
def text (d : Display) (spread : Bool) : String :=
  if spread then "\n".intercalate d.lines else d.line

def number (n : Nat) : Display := ⟨toString n, [toString n]⟩

/-- Appends `mark` to the last line. -/
def closeWith (mark : String) : List String → List String
  | [] => []
  | [last] => [last ++ mark]
  | line :: rest => line :: closeWith mark rest

/-- Puts `label` before the first line. -/
def openWith (label : String) : List String → List String
  | [] => []
  | line :: rest => (label ++ line) :: rest

/-- The lines of an item inside braces or brackets. -/
def item (lines : List String) : List String := (closeWith "," lines).map ("    " ++ ·)

/-- A record by the names of its fields. -/
def record (name : String) (fields : List (String × Display)) : Display where
  line :=
    name ++ " \x7b " ++ ", ".intercalate (fields.map fun f => f.1 ++ ": " ++ f.2.line) ++ " \x7d"
  lines :=
    [name ++ " \x7b"] ++ fields.flatMap (fun f => item (openWith (f.1 ++ ": ") f.2.lines)) ++
      ["\x7d"]

def list (items : List Display) : Display where
  line := "[" ++ ", ".intercalate (items.map Display.line) ++ "]"
  lines :=
    if items.isEmpty then ["[]"] else ["["] ++ items.flatMap (fun d => item d.lines) ++ ["]"]

end Display

end ShardedMap
