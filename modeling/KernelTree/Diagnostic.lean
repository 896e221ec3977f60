import KernelTree.Location

/-!
# Diagnostics

Errors and warnings are collected in the order in which they come up. An entry can be shown as one
sentence (`Diagnostic.describe`) or in colours for a terminal (`Diagnostics.render`).
-/

namespace KernelTree

/-- How bad it is. -/
inductive Severity
  | error
  | warning
  deriving DecidableEq, Repr

/-- The word for a severity. -/
def Severity.label : Severity → String
  | error => "error"
  | warning => "warning"

/-- A message about a place. -/
structure Diagnostic where
  severity : Severity
  message : String
  location : Location
  deriving DecidableEq, Repr

/-- The message as a sentence. -/
def Diagnostic.describe (d : Diagnostic) : String :=
  d.severity.label ++ " at line " ++ toString d.location.line ++ ", column " ++
    toString d.location.column ++ ": " ++ d.message

/-- All messages so far, in order, and the file they are about. -/
structure Diagnostics where
  entries : List Diagnostic
  file : Option String

/-! ### Colours -/

/-- A colour of the terminal. -/
structure Colour where
  red : Nat
  green : Nat
  blue : Nat

namespace Colour

/-- Grey, for places. -/
def place : Colour := ⟨108, 112, 134⟩

/-- Light, for messages. -/
def text : Colour := ⟨205, 214, 244⟩

/-- Red, for errors. -/
def error : Colour := ⟨243, 139, 168⟩

/-- Yellow, for warnings. -/
def warning : Colour := ⟨249, 226, 175⟩

/-- A control sequence of the terminal. -/
def control (code : String) : String := "\x1b[" ++ code ++ "m"

/-- Sets the colour of the text that follows. -/
def set (c : Colour) : String :=
  control ("38;2;" ++ toString c.red ++ ";" ++ toString c.green ++ ";" ++ toString c.blue)

/-- A text in a colour. -/
def paint (c : Colour) (text : String) : String := c.set ++ text ++ control "39"

/-- A text in a colour and in bold. -/
def paintBold (c : Colour) (text : String) : String :=
  c.set ++ control "1" ++ text ++ control "0"

end Colour

/-- The colour of a severity. -/
def Severity.colour : Severity → Colour
  | error => .error
  | warning => .warning

namespace Diagnostics

/-- Nothing to report. -/
def empty (file : Option String) : Diagnostics := ⟨[], file⟩

/-- Adds an entry. -/
def push (d : Diagnostics) (entry : Diagnostic) : Diagnostics :=
  { d with entries := d.entries ++ [entry] }

/-- Adds an error. -/
def error (d : Diagnostics) (location : Location) (message : String) : Diagnostics :=
  d.push ⟨.error, message, location⟩

/-- Adds a warning. -/
def warning (d : Diagnostics) (location : Location) (message : String) : Diagnostics :=
  d.push ⟨.warning, message, location⟩

/-- Whether there is an error among the entries. -/
def hasErrors (d : Diagnostics) : Bool := d.entries.any fun e => e.severity = .error

/-- The messages in order. -/
def messages (d : Diagnostics) : List String := d.entries.map Diagnostic.message

/-- Forgets all entries. -/
def clear (d : Diagnostics) : Diagnostics := { d with entries := [] }

/-- The place of an entry, behind the file if it is known. -/
def origin (d : Diagnostics) (entry : Diagnostic) : String :=
  match d.file with
  | some file => file ++ ":" ++ toString entry.location ++ ":"
  | none => toString entry.location ++ ":"

/-- An entry in colours: place, severity, message. -/
def render (d : Diagnostics) (entry : Diagnostic) : String :=
  Colour.place.paint (d.origin entry) ++ " " ++
    entry.severity.colour.paintBold (entry.severity.label ++ ":") ++ " " ++
    Colour.text.paint entry.message

end Diagnostics

end KernelTree
