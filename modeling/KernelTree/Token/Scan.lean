import KernelTree.Token

/-!
# Reading tokens

`tokenize` splits text into tokens. Blanks and comments separate tokens and are dropped. Of the
symbols that begin the text the longest is taken. A type name takes the pointers behind it along,
and names are looked up while they are read where a lookup is given.

A scanner looks at the front of a text and says which text it takes off (`Scan.taken`), so places
follow from the text alone.
-/

namespace KernelTree

/-- What is wrong with a text that cannot be split into tokens. -/
inductive ScanFault
  | unterminatedComment
  | unterminatedString
  | unterminatedChar
  | emptyChar
  | invalidNumber (text : String)
  | missingConstType
  | unexpected (c : Char)
  deriving DecidableEq, Repr

/-- The fault in words. -/
def ScanFault.message : ScanFault → String
  | unterminatedComment => "Unterminated block comment"
  | unterminatedString => "Unterminated string literal"
  | unterminatedChar => "Unterminated character literal"
  | emptyChar => "Empty character literal"
  | invalidNumber text => "Invalid numeric literal: " ++ text
  | missingConstType => "Expected a type after 'const'"
  | unexpected c => "Unexpected character: '" ++ String.singleton c ++ "'"

/-- A fault and the place it is blamed on. -/
structure ScanError where
  fault : ScanFault
  location : Location
  deriving DecidableEq, Repr

/-- A fault, and the text in front of the place it is blamed on. -/
structure ScanFailure where
  fault : ScanFault
  before : List Char

/-- A scanned value and the text taken for it. -/
structure Scan (α : Type) where
  value : α
  taken : List Char

/-- A scan of the front of a text. -/
abbrev Scanned (α : Type) := Except ScanFailure (Scan α)

/-- A scan that fails where it starts. -/
def Scanned.fail {α : Type} (fault : ScanFault) : Scanned α := .error ⟨fault, []⟩

/-- The scan of what follows `front`, with `front` taken too and `f` applied to the value. -/
def Scanned.after {α β : Type} (front : List Char) (f : α → β) : Scanned α → Scanned β
  | .error e => .error ⟨e.fault, front ++ e.before⟩
  | .ok s => .ok ⟨f s.value, front ++ s.taken⟩

/-- The meaning of names while text is read. -/
abbrev Naming := String → Option Symbol

namespace Scan

/-! ### Blanks and comments -/

/-- The blanks that separate tokens. -/
def isBlank (c : Char) : Bool := c = ' ' || c = '\t' || c = '\r' || c = '\n'

/-- A block comment after its opening, up to and with its closing. -/
def blockComment? : List Char → Option (List Char)
  | '*' :: '/' :: _ => some ['*', '/']
  | c :: rest => (blockComment? rest).map (c :: ·)
  | [] => none

/-- Skips blanks and comments. A line comment ends before its line break, which is a blank. -/
def blanks : List Char → Scanned Unit
  | '/' :: '/' :: rest =>
    let comment := rest.takeWhile (· ≠ '\n')
    (blanks (rest.drop comment.length)).after ('/' :: '/' :: comment) id
  | '/' :: '*' :: rest =>
    match blockComment? rest with
    | none => .fail .unterminatedComment
    | some comment => (blanks (rest.drop comment.length)).after ('/' :: '*' :: comment) id
  -- A single slash is no comment and ends the blanks.
  | c :: rest => if isBlank c then (blanks rest).after [c] id else .ok ⟨(), []⟩
  | [] => .ok ⟨(), []⟩
termination_by text => text.length
decreasing_by all_goals simp [List.length_drop] <;> omega

/-! ### Words and types -/

/-- Words begin with a letter of the English alphabet or an underscore. -/
def isWordStart (c : Char) : Bool := c.isAlpha || c = '_'

/-- Words go on with digits too. -/
def isWordPart (c : Char) : Bool := c.isAlphanum || c = '_'

/-- The longest word at the front. -/
def word (text : List Char) : List Char := text.takeWhile isWordPart

/-- The type that a word names. -/
def typeNamed? (names : Naming) (name : String) : Option TypeId :=
  match TypeId.builtin? name with
  | some id => some id
  | none =>
    match names name with
    | some (.type id) => some id
    | _ => none

/-- The number of pointer stars that follow, blanks and comments between and after them skipped. A
star in front of an equals sign begins a compound assignment and is none of them. -/
def pointers (text : List Char) : Scanned Nat :=
  match blanks text with
  | .error e => .error e
  | .ok gap =>
    match h : text.drop gap.taken.length with
    | '*' :: rest =>
      if rest.head? = some '=' then .ok ⟨0, gap.taken⟩
      else
        have : rest.length < text.length := by
          have := congrArg List.length h
          simp at this
          omega
        (pointers rest).after (gap.taken ++ ['*']) (· + 1)
    | _ => .ok ⟨0, gap.taken⟩
termination_by text.length

/-! ### Quoted texts and numbers -/

/-- The characters before the closing quote; a backslash takes the character after it along,
whatever that is. A line break ends the attempt. -/
def quoted? (quote : Char) : List Char → Option (List Char)
  | [] => none
  | c :: rest =>
    if c = quote then some []
    else if c = '\n' then none
    -- The escaped character may be the quote or a line break.
    else if c = '\\' then
      match rest with
      | [] => none
      | escaped :: rest => (quoted? quote rest).map (c :: escaped :: ·)
    else (quoted? quote rest).map (c :: ·)

/-- The digits of base sixteen. -/
def isHexDigit (c : Char) : Bool :=
  c.isDigit || ('a' ≤ c && c ≤ 'f') || ('A' ≤ c && c ≤ 'F')

/-- The marks behind a number that tell its type. -/
def isSuffix (c : Char) : Bool :=
  c = 'u' || c = 'U' || c = 'l' || c = 'L' || c = 'f' || c = 'F'

/-- A sign at the front, if there is one. -/
def signPart (text : List Char) : List Char :=
  (text.take 1).filter fun c => c = '+' || c = '-'

/-- The exponent of a number: `e`, an optional sign and digits; without digits it is not taken. -/
def exponentPart : List Char → List Char
  | e :: rest =>
    let sign := signPart rest
    let digits := (rest.drop sign.length).takeWhile Char.isDigit
    if (e = 'e' ∨ e = 'E') ∧ digits ≠ [] then e :: sign ++ digits else []
  | [] => []

/-- A point and the digits behind it. -/
def fractionPart : List Char → List Char
  | '.' :: rest => '.' :: rest.takeWhile Char.isDigit
  | _ => []

/-- Digits, a point with digits, an exponent. -/
def decimalPart (text : List Char) : List Char :=
  let whole := text.takeWhile Char.isDigit
  let fraction := fractionPart (text.drop whole.length)
  whole ++ fraction ++ exponentPart (text.drop (whole.length + fraction.length))

/-- The text of a number without the marks for its type. -/
def numberPart : List Char → List Char
  | '0' :: 'x' :: rest => '0' :: 'x' :: rest.takeWhile isHexDigit
  | '0' :: 'X' :: rest => '0' :: 'X' :: rest.takeWhile isHexDigit
  | text => decimalPart text

/-- The text of a number with its marks. -/
def number (text : List Char) : List Char :=
  let part := numberPart text
  part ++ (text.drop part.length).takeWhile isSuffix

/-! ### Tokens -/

/-- A text in quotes, the opening one already taken. -/
def stringToken (rest : List Char) : Scanned Lexeme :=
  match quoted? '"' rest with
  | none => .fail .unterminatedString
  | some text => .ok ⟨.atom (.string (String.ofList text)), '"' :: text ++ ['"']⟩

/-- A character in quotes, the opening one already taken; there must be something in it. -/
def charToken (rest : List Char) : Scanned Lexeme :=
  match quoted? '\'' rest with
  | none => .fail .unterminatedChar
  | some [] => .fail .emptyChar
  | some text => .ok ⟨.atom (.char (String.ofList text)), '\'' :: text ++ ['\'']⟩

/-- A number. -/
def numberToken (text : List Char) : Scanned Lexeme :=
  let taken := number text
  match Value.ofLiteral? taken with
  | none => .fail (.invalidNumber (String.ofList taken))
  | some v => .ok ⟨.atom (.value v), taken⟩

/-- The word at the front and the type that it names, where there is a word and it names one. No
word is no name, whatever the empty name may stand for. -/
def typeWord? (names : Naming) (text : List Char) : Option (List Char × TypeId) :=
  if text.head?.any isWordStart then
    (typeNamed? names (String.ofList (word text))).map (word text, ·)
  else none

/-- The type behind the word `const`, with its pointers; `front` is the word. -/
def constToken (names : Naming) (front rest : List Char) : Scanned Lexeme :=
  match blanks rest with
  | .error e => .error ⟨e.fault, front ++ e.before⟩
  | .ok gap =>
    let rest := rest.drop gap.taken.length
    match typeWord? names rest with
    | none => .fail .missingConstType
    | some (name, base) =>
      (pointers (rest.drop name.length)).after (front ++ gap.taken ++ name) fun depth =>
        .atom (.vartype ⟨base, true, depth⟩)

/-- A type with the pointers behind it; `front` is its name. -/
def typeToken (base : TypeId) (front rest : List Char) : Scanned Lexeme :=
  (pointers rest).after front fun depth =>
    .atom (if depth = 0 then .type base else .vartype ⟨base, false, depth⟩)

/-- A word: an operator, a truth value, a type, a known name or an identifier. -/
def wordToken (names : Naming) (text : List Char) : Scanned Lexeme :=
  let taken := word text
  let rest := text.drop taken.length
  let name := String.ofList taken
  match Operator.keywords.lookup name with
  | some op => .ok ⟨.op op, taken⟩
  | none =>
    if name = "true" then .ok ⟨.atom (.value (.bool true)), taken⟩
    else if name = "false" then .ok ⟨.atom (.value (.bool false)), taken⟩
    else if name = "const" then constToken names taken rest
    else
      match typeNamed? names name with
      | some base => typeToken base taken rest
      | none => .ok ⟨.atom (((names name).map Atom.ofSymbol).getD (.identifier name)), taken⟩

/-- The first symbol of the table that begins the text. -/
def symbolToken (c : Char) (rest : List Char) : Scanned Lexeme :=
  match Operator.symbols.find? fun s => s.1.toList.isPrefixOf (c :: rest) with
  | some (symbol, op) => .ok ⟨.op op, symbol.toList⟩
  | none => .fail (.unexpected c)

/-- The token at the front of a text that starts with neither a blank nor a comment. -/
def token (names : Naming) (c : Char) (rest : List Char) : Scanned Lexeme :=
  if c = '"' then stringToken rest
  else if c = '\'' then charToken rest
  -- A point begins a number only with a digit behind it; else it is a symbol.
  else if c.isDigit || (c = '.' && rest.head?.any Char.isDigit) then numberToken (c :: rest)
  else if isWordStart c then wordToken names (c :: rest)
  else symbolToken c rest

end Scan

/-- The tokens of a text that starts at the place `start`. -/
def tokensAt (names : Naming) (start : Location) (text : List Char) :
    Except ScanError (List Token) :=
  match Scan.blanks text with
  | .error e => .error ⟨e.fault, start.after e.before⟩
  | .ok gap =>
    let here := start.after gap.taken
    match h : text.drop gap.taken.length with
    | [] => .ok []
    | c :: rest =>
      match Scan.token names c rest with
      | .error e => .error ⟨e.fault, here.after e.before⟩
      | .ok s =>
        have : rest.length < text.length := by
          have := congrArg List.length h
          simp at this
          omega
        (tokensAt names (here.after s.taken) (rest.drop (s.taken.length - 1))).map
          (⟨s.value, here⟩ :: ·)
termination_by text.length

/-- The tokens of a text, with names given a meaning as they are read. -/
def tokenize (names : Naming) (source : String) : Except ScanError (List Token) :=
  tokensAt names .start source.toList

/-- The meaning of names where none is known. -/
def Naming.none : Naming := fun _ => Option.none

end KernelTree
