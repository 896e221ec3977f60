import KernelTree.Expr

/-!
# From tokens to trees

`Expr.ofTokens` builds the tree of a row of tokens. Operands wait on an output stack and operators
on a stack of their own; an operator is applied as soon as one that binds no tighter follows it.

*Readings.* A symbol with two readings is settled by its neighbours: it stands in front of its
operand at the beginning, after an opening bracket, a cast or an operator that wants an operand, and
behind or between operands otherwise. An increment between two operands has no single reading.

*Brackets.* Each open bracket (`Frame`) keeps the operators outside it and the height of the output
stack, below which nothing inside may take operands. A closed bracket is a call, a subscript, a
launch or an initializer if it follows a value, and a cast, a group or a tuple otherwise.

*Conditionals.* `?` and `:` put a marker around their branch. As soon as a condition and both
markers lie on top of the output, they become one node. A new `?` leaves the pending markers alone
and a `:` goes back to its own `?`, so conditionals nest to the right.
-/

namespace KernelTree

/-- Which half of a pair of brackets is missing. -/
inductive Side
  | opening
  | closing
  deriving DecidableEq, Repr

/-- Why a row of tokens is no expression. -/
inductive BuildFault
  | ambiguousOperator
  | mismatchedPair (side : Side) (expected : String)
  | missingOperand
  | unsupported (keyword : String)
  | malformed
  | expectedExpression
  | missingThreadCount
  | tooManyKernelArguments
  deriving DecidableEq, Repr

/-- The fault in words. -/
def BuildFault.message : BuildFault → String
  | ambiguousOperator => "Ambiguous operator"
  | mismatchedPair .opening expected => "Could not find an opening '" ++ expected ++ "'"
  | mismatchedPair .closing expected => "Could not find a closing '" ++ expected ++ "'"
  | missingOperand => "Unable to apply operator"
  | unsupported keyword => "'" ++ keyword ++ "' not supported yet"
  | malformed => "Unable to form an expression"
  | expectedExpression => "Expected identifier or proper expression before"
  | missingThreadCount => "Must also have threads per block as the second argument"
  | tooManyKernelArguments => "Kernel call only takes 2 arguments"

/-- A fault and the place it is blamed on. -/
structure BuildError where
  fault : BuildFault
  location : Location
  deriving DecidableEq, Repr

namespace Build

/-- What a pending operator will do to the top of the output. -/
inductive Action
  | pre (op : PrefixOp)
  | post (op : PostfixOp)
  | binary (op : BinaryOp)
  /-- A conversion to the type in the brackets before it. -/
  | cast (type : Vartype)
  deriving DecidableEq, Repr

namespace Action

/-- How tightly the operator binds. -/
def precedence : Action → Nat
  | pre op => op.precedence
  | post op => op.precedence
  | binary op => op.precedence
  | cast _ => PrefixOp.cast.precedence

/-- Whether the operator marks a branch of a conditional. -/
def isMarker : Action → Bool
  | pre .question => true
  | pre .colon => true
  | _ => false

/-- Whether the operator stands in front of its operand; markers stand behind theirs. -/
def isPrefixed : Action → Bool
  | pre .question => false
  | pre .colon => false
  | pre _ => true
  | _ => false

end Action

/-- An operator that waits for its operands, and where it stands. -/
structure Pending where
  action : Action
  location : Location

/-- An open bracket: where it stands, the index of the token before it and whether that token ends a
value, the height of the output when it was opened, and the operators that wait outside it. -/
structure Frame where
  bracket : Bracket
  location : Location
  before : Option Nat
  afterValue : Bool
  base : Nat
  outer : List Pending

/-- A tree under construction. The tops of the stacks come first. -/
structure State where
  output : List Expr
  pending : List Pending
  frames : List Frame
  /-- The number of tokens read. -/
  index : Nat
  /-- The token read last, with its reading settled. -/
  previous : Option Lexeme
  /-- The index of the bracket that closed the latest cast. -/
  castClose : Option Nat

/-- Nothing read yet. -/
def State.initial : State := ⟨[], [], [], 0, none, none⟩

/-- The height of the output when the innermost open bracket was opened. -/
def State.base (s : State) : Nat := (s.frames.head?.map Frame.base).getD 0

/-! ### Applying operators -/

/-- Takes an operand from the output, but none from below `base`. -/
def popOperand (base : Nat) (location : Location) :
    List Expr → Except BuildError (Expr × List Expr)
  | [] => .error ⟨.missingOperand, location⟩
  | e :: rest =>
    if (e :: rest).length ≤ base then .error ⟨.missingOperand, location⟩ else .ok (e, rest)

/-- A condition and two markers on top of the output become a conditional. -/
def foldTernary (base : Nat) (output : List Expr) : List Expr :=
  match output with
  | .prefixed (.pre .colon) onFalse _ :: .prefixed (.pre .question) onTrue _ :: check :: rest =>
    if base + 3 ≤ output.length then .ternary check onTrue onFalse check.location :: rest
    else output
  | _ => output

/-- The node of a prefix operator and its operand. -/
def prefixNode (op : PrefixOp) (value : Expr) (location : Location) : Except BuildError Expr :=
  match op with
  | .cast => .error ⟨.malformed, location⟩
  | .sizeof => .ok (.sizeof value location)
  | .new => .error ⟨.unsupported PrefixOp.new.symbol, location⟩
  | .delete => .error ⟨.unsupported PrefixOp.delete.symbol, location⟩
  | .throw => .ok (.throw value location)
  | op => .ok (.prefixed (.pre op) value location)

/-- Applies an operator to the top of the output. -/
def apply (base : Nat) (p : Pending) (output : List Expr) : Except BuildError (List Expr) :=
  match p.action with
  | .binary op => do
    let (right, output) ← popOperand base p.location output
    let (left, output) ← popOperand base p.location output
    .ok (.mkBinary op left right :: output)
  | .post op => do
    let (value, output) ← popOperand base p.location output
    .ok (.mkPostfixed (.post op) value :: output)
  | .pre op => do
    let (value, output) ← popOperand base p.location output
    let node ← prefixNode op value p.location
    .ok (foldTernary base (node :: output))
  | .cast type => do
    let (value, output) ← popOperand base p.location output
    .ok (foldTernary base (.cast .paren type value p.location :: output))

/-- Applies all operators, the top one first. -/
def applyAll (base : Nat) : List Pending → List Expr → Except BuildError (List Expr)
  | [], output => .ok output
  | p :: pending, output => do applyAll base pending (← apply base p output)

/-- Whether the operator on the stack is applied before `action` is put there. -/
def yields (action top : Action) : Bool :=
  !(action = .pre .question && top.isMarker) &&
    (top.precedence < action.precedence ||
      (action.precedence = top.precedence && associativity top.precedence = .left))

/-- Applies the operators that bind tighter than `action`. A colon stops behind its own `?`. -/
def applyFaster (base : Nat) (action : Action) :
    List Pending → List Expr → Except BuildError (List Pending × List Expr)
  | [], output => .ok ([], output)
  | top :: pending, output =>
    if yields action top.action then do
      let output ← apply base top output
      -- The `?` is applied and the search ends there: those further down belong to other
      -- conditionals.
      if action = .pre .colon && top.action = .pre .question then .ok (pending, output)
      else applyFaster base action pending output
    else .ok (top :: pending, output)

/-! ### Readings -/

/-- What the token before a symbol is to it. -/
inductive Neighbour
  | opening
  /-- An operator that wants an operand behind it; a cast is one too. -/
  | wanting
  /-- An operator behind its operand. -/
  | postfixed
  /-- A leaf or a closing bracket. -/
  | value
  deriving DecidableEq, Repr

/-- What a token is to the symbol behind it. -/
def neighbour : Lexeme → Neighbour
  | .op (.opening _) => .opening
  | .op (.post _) => .postfixed
  | .op (.closing _) => .value
  | .op _ => .wanting
  | .atom _ => .value

/-- Whether a token is an operator and no bracket. -/
def isOperator : Lexeme → Bool
  | .op (.opening _) => false
  | .op (.closing _) => false
  | .op _ => true
  | .atom _ => false

/-- Whether a token counts up or down, in any reading. -/
def isStep : Lexeme → Bool
  | .op o => o.mayBe .increment || o.mayBe .decrement
  | .atom _ => false

/-- Whether the last token read closed a cast. -/
def State.afterCast (s : State) : Bool := s.index ≠ 0 && s.castClose = some (s.index - 1)

/-- Whether a symbol with two readings stands in front of its operand, judged by its neighbours. -/
def readsAsPrefix (s : State) (a : Ambiguous) (location : Location) (next : Option Lexeme) :
    Except BuildError Bool :=
  match s.previous, next with
  -- At the beginning there is nothing to be behind of, and at the end nothing to be in front of.
  | none, _ => .ok true
  | some _, none => .ok false
  | some previous, some next =>
    -- The bracket of a cast looks like the end of a value, but wants an operand.
    match if s.afterCast then Neighbour.wanting else neighbour previous with
    | .opening => .ok true
    | .wanting => .ok true
    | .postfixed =>
      if !a.isStep then .ok false
      else if !isOperator next then .ok true
      else if isStep next then .error ⟨.ambiguousOperator, location⟩
      else .ok false
    | .value =>
      if !a.isStep then .ok false
      else if isOperator next then .ok false
      else .error ⟨.ambiguousOperator, location⟩

/-! ### Brackets -/

/-- The value between two brackets: what was put on the output since the opening one, which can be
at most one expression. -/
def content (frame : Frame) (output : List Expr) : Except BuildError (Expr × List Expr) :=
  match output.length - frame.base, output with
  | 0, _ => .ok (.empty frame.location, output)
  | 1, value :: rest => .ok (value, rest)
  | count, _ =>
    let second := output[count - 2]?
    .error ⟨.malformed, (second.map Expr.location).getD frame.location⟩

/-- A closed bracket behind a value: a call or a conversion, a subscript, a launch, or an
initializer, which stays beside the value. -/
def attach (frame : Frame) (callee value : Expr) : Except BuildError (List Expr) :=
  let location := callee.location
  match frame.bracket with
  | .round =>
    match callee.vartype?, value.args with
    | some type, [arg] => .ok [.cast .function type arg location]
    | _, args => .ok [.call callee args location]
  | .square => .ok [.subscript callee value location]
  | .launch =>
    match value.args with
    | [blocks, threads] => .ok [.launch callee blocks threads location]
    | _ :: _ :: extra :: _ => .error ⟨.tooManyKernelArguments, extra.location⟩
    | _ => .error ⟨.missingThreadCount, frame.location⟩
  | .curly => .ok [.tuple value.args frame.location, callee]

/-- Whether the operator on top is `sizeof`. -/
def afterSizeof (pending : List Pending) : Bool :=
  pending.head?.any fun p => p.action = .pre .sizeof

/-- A closed bracket that follows no value: a cast, a group or a tuple. -/
def standAlone (s : State) (frame : Frame) (value : Expr) : Except BuildError State :=
  match frame.bracket, value with
  | .round, .empty _ => .error ⟨.expectedExpression, frame.location⟩
  | .round, value =>
    match value.vartype? with
    | some type =>
      -- What `sizeof` measures may be a type in brackets, which is then no cast.
      if afterSizeof s.pending then
        .ok { s with output := .parens value frame.location :: s.output }
      else
        .ok { s with
          pending := ⟨.cast type, frame.location⟩ :: s.pending
          castClose := some s.index }
    | none => .ok { s with output := .parens value frame.location :: s.output }
  | .curly, value => .ok { s with output := .tuple value.args frame.location :: s.output }
  | _, _ => .error ⟨.expectedExpression, frame.location⟩

/-- Whether a bracket follows a value. The bracket that closed the latest cast ends no value. -/
def Frame.followsValue (frame : Frame) (castClose : Option Nat) : Bool :=
  frame.afterValue && frame.before ≠ castClose

/-- Closes the innermost bracket. -/
def close (s : State) (bracket : Bracket) (location : Location) : Except BuildError State := do
  -- What waits inside the bracket is applied before it is known whether the bracket fits.
  let output ← applyAll s.base s.pending s.output
  match s.frames with
  | [] => .error ⟨.mismatchedPair .opening bracket.openSymbol, location⟩
  | frame :: frames =>
    if bracket ≠ frame.bracket then
      .error ⟨.mismatchedPair .closing frame.bracket.closeSymbol, frame.location⟩
    else
      let (value, output) ← content frame output
      match output, frame.followsValue s.castClose with
      -- A value lies below and the bracket follows it directly.
      | callee :: rest, true => do
        let nodes ← attach frame callee value
        .ok { s with output := nodes ++ rest, pending := frame.outer, frames }
      | output, _ => standAlone { s with output, pending := frame.outer, frames } frame value

/-- Opens a bracket. -/
def openBracket (s : State) (bracket : Bracket) (location : Location) : State :=
  { s with
    pending := []
    frames :=
      { bracket, location
        before := if s.index = 0 then none else some (s.index - 1)
        afterValue := s.previous.any fun p => neighbour p = .value
        base := s.output.length
        outer := s.pending } :: s.frames }

/-! ### The whole row -/

/-- Puts an operator on the stack, after those that bind tighter. -/
def push (s : State) (action : Action) (location : Location) : Except BuildError State :=
  if action.isPrefixed then .ok { s with pending := ⟨action, location⟩ :: s.pending }
  else do
    let (pending, output) ← applyFaster s.base action s.pending s.output
    .ok { s with output, pending := ⟨action, location⟩ :: pending }

/-- The operator with its reading settled. -/
def settle (s : State) (op : Operator) (location : Location) (next : Option Lexeme) :
    Except BuildError Operator :=
  match op with
  | .unresolved a => (readsAsPrefix s a location next).map a.reading
  | op => .ok op

/-- Reads an operator whose reading is settled. -/
def readOperator (s : State) (op : Operator) (location : Location) : Except BuildError State :=
  match op with
  | .opening b => .ok (openBracket s b location)
  | .closing b => close s b location
  | .pre op => push s (.pre op) location
  | .post op => push s (.post op) location
  | .binary op => push s (.binary op) location
  | .unresolved _ => .error ⟨.ambiguousOperator, location⟩

/-- Reads a token, with the one behind it in view. -/
def step (s : State) (token : Token) (next : Option Lexeme) : Except BuildError State :=
  match token.lexeme with
  | .atom a =>
    .ok { s with
      output := .atom a token.location :: s.output
      index := s.index + 1
      previous := some (.atom a) }
  | .op op => do
    let op ← settle s op token.location next
    let s ← readOperator s op token.location
    .ok { s with index := s.index + 1, previous := some (.op op) }

/-- Reads a row of tokens. -/
def run (s : State) : List Token → Except BuildError State
  | [] => .ok s
  | token :: rest => do run (← step s token (rest.head?.map Token.lexeme)) rest

/-- Applies what is left; exactly one expression has to remain, and no marker. -/
def finish (s : State) (start : Location) : Except BuildError Expr := do
  let output ← applyAll s.base s.pending s.output
  match s.frames with
  | frame :: _ => .error ⟨.mismatchedPair .closing frame.bracket.closeSymbol, frame.location⟩
  | [] =>
    match foldTernary 0 output with
    | [] => .ok (.empty start)
    -- A marker alone is a conditional that was never completed.
    | [.prefixed (.pre .question) _ l] => .error ⟨.malformed, l⟩
    | [.prefixed (.pre .colon) _ l] => .error ⟨.malformed, l⟩
    | [e] => .ok e
    | _ :: e :: _ => .error ⟨.malformed, e.location⟩

end Build

/-- The tree of a row of tokens; no tokens give an empty expression. -/
def Expr.ofTokens (tokens : List Token) : Except BuildError Expr :=
  match tokens with
  | [] => .ok (.empty .none)
  | token :: _ => do Build.finish (← Build.run .initial tokens) token.location

end KernelTree
