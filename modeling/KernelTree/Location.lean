/-!
# Places in source text

A place is a line and a column, both counted from one; columns count characters. `Location.after`
says where a reader stands once it has read some text, and it splits over concatenation
(`after_append`), so places can be computed piece by piece.
-/

namespace KernelTree

/-- A line and a column, both counted from one. Nodes that no text produced stand at line and
column zero. -/
structure Location where
  line : Nat
  column : Nat
  deriving DecidableEq, Repr, Inhabited

namespace Location

/-- The first character of a text. -/
def start : Location := ⟨1, 1⟩

/-- The place of nodes that no text produced. -/
def none : Location := ⟨0, 0⟩

/-- A line break starts the next line; any other character moves one column on. -/
def next (l : Location) (c : Char) : Location :=
  if c = '\n' then ⟨l.line + 1, 1⟩ else ⟨l.line, l.column + 1⟩

/-- The place reached from `l` by reading `text`. -/
def after (l : Location) (text : List Char) : Location :=
  text.foldl next l

/-- Going past two texts one after the other is going past both at once. -/
theorem after_append (l : Location) (s t : List Char) :
    l.after (s ++ t) = (l.after s).after t := by
  simp [after]

instance : ToString Location where
  toString l := toString l.line ++ ":" ++ toString l.column

end Location

end KernelTree
