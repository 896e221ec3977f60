import KernelTree.Expr.Print

/-!
# Attributes

An attribute such as `@tile(16, @outer, check=false)` has arguments by position and by keyword, and
an argument may bring attributes of its own. Sets of attributes are lists sorted by name with one
entry a name; an entry replaces an earlier one of its name.
-/

namespace KernelTree

/-! ### Lists sorted by name -/

namespace ByName

variable {α : Type} (name : α → String)

/-- Puts an entry into a sorted list, in place of the entry of its name if there is one. -/
def insert (a : α) : List α → List α
  | [] => [a]
  | b :: rest =>
    if name a = name b then a :: rest
    else if name a < name b then a :: b :: rest
    else b :: insert a rest

/-- Puts entries into a sorted list one after the other. -/
def insertAll (entries : List α) (list : List α) : List α :=
  entries.foldl (fun list a => insert name a list) list

/-- The entry of a name. -/
def find? (list : List α) (key : String) : Option α := list.find? fun a => name a = key

/-- An entry that was put in is found. -/
theorem find?_insert_self (a : α) (list : List α) :
    find? name (insert name a list) (name a) = some a := by
  induction list with
  | nil => simp [insert, find?]
  | cons b rest ih =>
    unfold insert
    split
    case isTrue => simp [find?]
    case isFalse hother =>
      split
      · simp [find?]
      · simp only [find?] at ih
        simp [find?, Ne.symm hother, ih]

/-- The entries of other names are found as before. -/
theorem find?_insert_of_ne {a : α} {key : String} (h : name a ≠ key) (list : List α) :
    find? name (insert name a list) key = find? name list key := by
  induction list with
  | nil => simp [insert, find?, h]
  | cons b rest ih =>
    simp only [find?] at ih
    unfold insert
    split
    case isTrue hsame => simp [find?, h, ← hsame]
    case isFalse =>
      split
      · simp [find?, h]
      · simp [find?, List.find?_cons, ih]

end ByName

/-! ### Attributes -/

/-- An argument: a value, which may be empty, and attributes `α` of its own. -/
structure Argument (α : Type) where
  value : Expr
  attributes : List α

/-- An attribute. -/
structure Attribute where
  name : String
  args : List (Argument Attribute)
  keywords : List (String × Argument Attribute)
  location : Location

namespace Attribute

/-- The value of the argument at a position. -/
def arg? (a : Attribute) (index : Nat) : Option Expr := a.args[index]?.map Argument.value

/-- The attributes that the argument at a position brings; none if there is no argument. -/
def argAttributes (a : Attribute) (index : Nat) : List Attribute :=
  (a.args[index]?.map Argument.attributes).getD []

/-- The value of the argument with a keyword. -/
def keyword? (a : Attribute) (key : String) : Option Expr :=
  (ByName.find? Prod.fst a.keywords key).map fun k => k.2.value

mutual

/-- The attribute as source: its name, and its arguments if it has any. -/
def render (names : Names) : Attribute → String
  | ⟨name, args, keywords, _⟩ =>
    let parts := renderArgs names args ++ renderKeywords names keywords
    "@" ++ name ++ if parts.isEmpty then "" else "(" ++ ", ".intercalate parts ++ ")"

/-- An argument as source: its value and its attributes with a blank between any two. -/
def renderArg (names : Names) : Argument Attribute → String
  | ⟨value, attributes⟩ =>
    let own := if value.isEmpty then [] else [value.render names]
    " ".intercalate (own ++ renderAll names attributes)

/-- Each argument of a list as source. -/
def renderArgs (names : Names) : List (Argument Attribute) → List String
  | [] => []
  | a :: rest => renderArg names a :: renderArgs names rest

/-- An argument behind its keyword. -/
def renderKeyword (names : Names) : String × Argument Attribute → String
  | (key, arg) => key ++ "=" ++ renderArg names arg

/-- Each argument of a list as source, behind its keyword. -/
def renderKeywords (names : Names) : List (String × Argument Attribute) → List String
  | [] => []
  | k :: rest => renderKeyword names k :: renderKeywords names rest

/-- Each attribute of a list as source. -/
def renderAll (names : Names) : List Attribute → List String
  | [] => []
  | a :: rest => render names a :: renderAll names rest

end

end Attribute

/-- A set of attributes, sorted by name. -/
abbrev Attributes := List Attribute

namespace Attributes

/-- The attribute of a name. -/
def find? (attributes : Attributes) (name : String) : Option Attribute :=
  ByName.find? Attribute.name attributes name

/-- The set of the given attributes; of two with one name the later counts. -/
def ofList (attributes : List Attribute) : Attributes :=
  ByName.insertAll Attribute.name attributes []

/-- Adds all attributes of another set, in place of those of the same names. -/
def merge (into new : Attributes) : Attributes := ByName.insertAll Attribute.name new into

/-- The set without the attribute of a name. -/
def erase (attributes : Attributes) (name : String) : Attributes :=
  attributes.filter fun a => a.name ≠ name

end Attributes

end KernelTree
