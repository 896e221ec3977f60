import KernelTree.Proofs.Expr.Leaves
import KernelTree.Proofs.Expr.Recover
import KernelTree.Proofs.Token.Legible

/-!
# The text of a tree

`Expr.text` are the characters that are printed for a tree, put together node by node. The printer
keeps most pieces apart by blanks. Around the access to a member there are none, so it matters there
how the operands end and begin (`Expr.keepsApart`). The first character of the text tells what the
tree does to a symbol in front of it (`Expr.Begins`).
-/

namespace KernelTree

namespace Expr

/-! ### Pieces that run together -/

/-- Whether the text begins with a star, as of a dereferenced pointer. -/
def startsInStar (e : Expr) : Bool :=
  match e.first with
  | prefixed (.pre .dereference) _ _ => true
  | _ => false

/-- Whether the text begins with a number. -/
def startsInNumber (e : Expr) : Bool := e.first.atom?.any Atom.isNumber

/-- Whether the text ends in digits that make a whole number. -/
def endsInInt (e : Expr) : Bool := e.last.atom?.any Atom.isInt

/-- Whether the text ends in a type. -/
def endsInType (e : Expr) : Bool := e.last.atom?.any fun a => a.vartype?.isSome

/-- Whether the operands of a node stay apart from its operator: a point joins the digits at either
side, a star makes one symbol with the access before it, and a type takes a star along. -/
def keepsApart : Expr → Bool
  | binary (.binary .dot) a b _ => !a.endsInInt && !b.startsInNumber && !b.startsInStar
  | binary (.binary .dotStar) a _ _ => !a.endsInInt
  | binary (.binary .arrow) _ b _ => !b.startsInStar
  | binary (.binary .mul) a _ _ => !a.endsInType
  | _ => true

/-- No two pieces of the text run together. -/
def Separated (e : Expr) : Prop := ∀ n ∈ e.nodes, n.keepsApart = true

/-! ### The text of a tree -/

/-- The characters of the text. -/
def text (e : Expr) : List Char := (e.render Names.initial).toList

/-- The characters of further arguments, each behind a comma. -/
def textMore : List Expr → List Char
  | [] => []
  | a :: rest => ',' :: ' ' :: (a.text ++ textMore rest)

/-- The characters of arguments with commas between them. -/
def textArgs : List Expr → List Char
  | [] => []
  | a :: rest => a.text ++ textMore rest

/-- Arguments are written with commas and blanks between them. -/
theorem renderAll_toList (args : List Expr) :
    (", ".intercalate (renderAll Names.initial args)).toList = textArgs args := by
  rw [String.toList_intercalate]
  cases args with
  | nil => rfl
  | cons a args =>
    induction args generalizing a with
    | nil => simp [renderAll, textArgs, textMore, text]
    | cons b args ih =>
      have hrest := ih b
      simp only [renderAll, List.map_cons, textArgs] at hrest ⊢
      rw [List.intercalate_cons_cons, hrest, textMore]
      simp [text]

/-- The characters of arguments in brackets. -/
def enclosed (b : Bracket) (args : List Expr) : List Char :=
  b.openSymbol.toList ++ (textArgs args ++ b.closeSymbol.toList)

/-- A bracketed text is that of a bracket with one thing in it. -/
theorem toList_bracketed (v : Expr) : (bracketed (v.render Names.initial)).toList
    = enclosed .round [v] := by
  simp [bracketed, enclosed, textArgs, textMore, text, Bracket.openSymbol, Bracket.closeSymbol]

variable {a b c v : Expr} {l : Location}

/-- A leaf is written as it is. -/
theorem text_atom (x : Atom) : (atom x l).text = (x.render Names.initial).toList := rfl

/-- A blank keeps a prefix operator from running into its operand. -/
theorem text_prefixed (op : Operator) : (prefixed op v l).text =
    if op.symbol.toList.getLast? = v.text.head? then op.symbol.toList ++ ' ' :: v.text
    else op.symbol.toList ++ v.text := by
  change (joinPrefixed op.symbol (v.render Names.initial)).toList = _
  rw [joinPrefixed, text]
  split
  · simp
  · exact String.toList_append

/-- A postfix operator is written right behind its operand. -/
theorem text_postfixed (op : Operator) : (postfixed op v l).text = v.text ++ op.symbol.toList :=
  String.toList_append

theorem text_binary_eq (op : Operator) : (binary op a b l).text
    = (joinBinary op (a.render Names.initial) (b.render Names.initial)).toList := rfl

/-- A comma has a blank behind it only. -/
theorem text_comma : (binary (.binary .comma) a b l).text = a.text ++ ',' :: ' ' :: b.text := by
  rw [text_binary_eq, joinBinary, if_pos rfl]
  simp [text]

/-- Access to a member is written without blanks. -/
theorem text_member {op : BinaryOp} (h : op.isMemberAccess = true) :
    (binary (.binary op) a b l).text = a.text ++ (op.symbol.toList ++ b.text) := by
  have hcomma : Operator.binary op ≠ .binary .comma := by
    rintro ⟨⟩
    cases h
  have hmember : (Operator.binary op).mayBe .memberAccess = true := by
    simpa [Operator.mayBe, Operator.readings, Operator.isOf] using h
  rw [text_binary_eq, joinBinary, if_neg hcomma, if_pos hmember]
  simp [text, Operator.symbol]

/-- All other infix operators stand between blanks. -/
theorem text_binary {op : BinaryOp} (h : op.isMemberAccess = false) (hcomma : op ≠ .comma) :
    (binary (.binary op) a b l).text = a.text ++ ' ' :: (op.symbol.toList ++ ' ' :: b.text) := by
  have hcomma : Operator.binary op ≠ .binary .comma := by simpa using hcomma
  have hmember : ¬ (Operator.binary op).mayBe .memberAccess = true := by
    simpa [Operator.mayBe, Operator.readings, Operator.isOf] using h
  rw [text_binary_eq, joinBinary, if_neg hcomma, if_neg hmember]
  simp [text, Operator.symbol]

/-- A check that does not run into the mark is written without brackets. -/
theorem render_ternary (h : c.rightEdge ≤ 13) (names : Names) : (ternary c a b l).render names
    = c.render names ++ " ? " ++ a.render names ++ " : " ++ b.render names := by
  cases c with
  | ternary =>
    simp only [rightEdge] at h
    omega
  | _ => rfl

/-- The marks of a conditional stand between blanks. -/
theorem text_ternary (h : c.rightEdge ≤ 13) : (ternary c a b l).text
    = c.text ++ ' ' :: '?' :: ' ' :: (a.text ++ ' ' :: ':' :: ' ' :: b.text) := by
  rw [text, render_ternary h]
  simp [text]

theorem text_subscript : (subscript a b l).text = a.text ++ enclosed .square [b] := by
  change (a.render Names.initial ++ "[" ++ b.render Names.initial ++ "]").toList = _
  simp [text, enclosed, textArgs, textMore, Bracket.openSymbol, Bracket.closeSymbol]

/-- The arguments of a call stand in round brackets. -/
theorem text_call {args : List Expr} : (call a args l).text = a.text ++ enclosed .round args := by
  change (a.render Names.initial ++ bracketed
    (", ".intercalate (renderAll Names.initial args))).toList = _
  rw [bracketed, String.toList_append, String.toList_append, String.toList_append, renderAll_toList]
  exact congrArg _ (List.append_assoc ..)

theorem text_launch : (launch a b c l).text = a.text ++ enclosed .launch [b, c] := by
  change (a.render Names.initial ++ "<<<" ++ b.render Names.initial ++ ", " ++
    c.render Names.initial ++ ">>>").toList = _
  simp [text, enclosed, textArgs, textMore, Bracket.openSymbol, Bracket.closeSymbol]

/-- What is measured stands in one pair of brackets, its own or those of `sizeof`. -/
theorem text_sizeof :
    (sizeof v l).text = "sizeof".toList ++ enclosed .round [v.unbracketed] := by
  have hrender : (sizeof v l).render Names.initial
      = "sizeof" ++ bracketed (v.unbracketed.render Names.initial) := by
    cases v <;> rfl
  rw [text, hrender, String.toList_append, toList_bracketed]

/-- The word `throw` has a blank behind it. -/
theorem text_throw (h : v.isEmpty = false) :
    (throw v l).text = "throw".toList ++ ' ' :: v.text := by
  change (if v.isEmpty then "throw" else "throw " ++ v.render Names.initial).toList = _
  rw [h]
  simp [text]

/-- A conversion in front of its operand has its type in brackets. -/
theorem text_parenCast (t : Vartype) : (cast .paren t v l).text
    = '(' :: ((Names.initial.vartype t).toList ++ ')' :: ' ' :: v.text) := by
  change (bracketed (Names.initial.vartype t) ++ " " ++ v.render Names.initial).toList = _
  simp [text, bracketed]

/-- A conversion that looks like a call has its operand in brackets. -/
theorem text_functionCast (t : Vartype) : (cast .function t v l).text
    = (Names.initial.vartype t).toList ++ enclosed .round [v] :=
  String.toList_append.trans (congrArg _ (toList_bracketed v))

/-- A group stands in round brackets. -/
theorem text_parens : (parens v l).text = enclosed .round [v] := toList_bracketed v

/-- The entries of a tuple stand in curly brackets. -/
theorem text_tuple {args : List Expr} : (tuple args l).text = enclosed .curly args := by
  change ("\x7b" ++ ", ".intercalate (renderAll Names.initial args) ++ "\x7d").toList = _
  rw [String.toList_append, String.toList_append, renderAll_toList]
  exact List.append_assoc ..

/-- The tokens of arguments in brackets. -/
def printedEnclosed (b : Bracket) (args : List Expr) : List Lexeme :=
  .op (.opening b) :: (printedArgs args ++ [.op (.closing b)])

/-- The tokens of a conversion that looks like a call begin with its type. -/
theorem printed_functionCast (t : Vartype) :
    (cast .function t v l).printed = .atom t.atom :: printedEnclosed .round [v] := by
  simp [printed, printedEnclosed, printedArgs, printedMore]

theorem printed_parens : (parens v l).printed = printedEnclosed .round [v] := by
  simp [printed, printedEnclosed, printedArgs, printedMore]

theorem printed_subscript :
    (subscript a b l).printed = a.printed ++ printedEnclosed .square [b] := by
  simp [printed, printedEnclosed, printedArgs, printedMore]

theorem printed_launch :
    (launch a b c l).printed = a.printed ++ printedEnclosed .launch [b, c] := by
  simp [printed, printedEnclosed, printedArgs, printedMore]

/-- The tokens of a measured operand are those of one pair of brackets. -/
theorem printed_sizeof' : (sizeof v l).printed
    = .op (.pre .sizeof) :: printedEnclosed .round [v.unbracketed] := by
  simp [printed_sizeof, printedEnclosed, printedArgs, printedMore]

/-! ### Legible trees -/

/-- All leaves are legible, and no two pieces of the text run together. -/
def Legible (e : Expr) : Prop :=
  ∀ n ∈ e.nodes, n.IsMadeOf Atom.Legible ∧ n.keepsApart = true

variable {e : Expr}

/-- A tree is legible if its root is and all trees inside are. -/
theorem legible_iff : e.Legible ↔
    (e.IsMadeOf Atom.Legible ∧ e.keepsApart = true) ∧ ∀ c ∈ e.children, c.Legible :=
  forall_mem_nodes

/-- What stands in a legible tree is legible. -/
theorem Legible.child (h : e.Legible) (hc : c ∈ e.children) : c.Legible :=
  (legible_iff.mp h).2 c hc

/-- The type of a conversion is written like a leaf. -/
theorem Legible.vartype {k : CastKind} {t : Vartype} (h : (cast k t v l).Legible) :
    t.atom.Legible := by
  obtain ⟨a, ha, ht⟩ := (legible_iff.mp h).1.1
  exact ha.vartype? ht

/-- What is measured stays legible without its brackets. -/
theorem Legible.unbracketed (h : (sizeof v l).Legible) : v.unbracketed.Legible := by
  have hv : v.Legible := h.child (by simp [children])
  cases v with
  | parens w l => exact hv.child (by simp [children, Expr.unbracketed])
  | _ => exact hv

/-! ### How a text begins -/

/-- The character begins the text. It makes no longer symbol of what stands before it, but a star or
a digit does so in places. -/
structure Begins (e : Expr) (c : Char) : Prop where
  text : ∃ tail, e.text = c :: tail
  symbol : c ≠ '=' ∧ c ≠ '>'
  star : c = '*' → e.startsInStar = true
  number : c.isDigit = true → e.startsInNumber = true

/-- A text begins like its first part. -/
theorem Begins.append {c : Char} {more : List Char} (h : v.Begins c)
    (htext : e.text = v.text ++ more) (hfirst : e.first = v.first) : e.Begins c := by
  obtain ⟨tail, hv⟩ := h.text
  refine ⟨⟨tail ++ more, by rw [htext, hv]; rfl⟩, h.symbol, ?_, ?_⟩
  · rw [startsInStar, hfirst]
    exact h.star
  · rw [startsInNumber, hfirst]
    exact h.number

/-- A text begins with a character that nothing takes along. -/
theorem begins_of_text {c : Char} {tail : List Char} (htext : e.text = c :: tail)
    (hc : c ∉ ['=', '>', '*']) (hdigit : c.isDigit = false) : e.Begins c := by
  simp only [List.mem_cons, List.not_mem_nil, or_false, not_or] at hc
  exact ⟨⟨tail, htext⟩, ⟨hc.1, hc.2.1⟩, fun h => absurd h hc.2.2, by simp [hdigit]⟩

/-- The text of a prefix operator begins with its symbol. -/
theorem begins_prefixed (op : PrefixOp) : ∃ c, (prefixed (.pre op) v l).Begins c := by
  obtain ⟨c, front, hsymbol, hequals, hstar, hdigit⟩ : ∃ c front,
      op.symbol.toList = c :: front ∧ (c ≠ '=' ∧ c ≠ '>') ∧ (c = '*' → op = .dereference) ∧
        c.isDigit = false := by
    cases op <;> exact ⟨_, _, rfl, by decide⟩
  refine ⟨c, ?_, hequals, ?_, by simp [hdigit]⟩
  · rw [text_prefixed, show (Operator.pre op).symbol = op.symbol from rfl, hsymbol]
    split
    · exact ⟨_, rfl⟩
    · exact ⟨_, rfl⟩
  · intro hc
    obtain rfl := hstar hc
    rfl

/-- Every text has a first character. -/
theorem begins (he : e.Grouped) (h : e.Legible) : ∃ c, e.Begins c := by
  induction he with
  | atom a l =>
    obtain ⟨c, tail, htext, hc, hnumber⟩ := (legible_iff.mp h).1.1.begins
    simp only [List.mem_cons, List.not_mem_nil, or_false, not_or] at hc
    refine ⟨c, ⟨tail, ?_⟩, ⟨hc.1, hc.2.1⟩, fun h => absurd h hc.2.2, fun hdigit => ?_⟩
    · rw [text_atom]
      exact htext
    · exact hnumber hdigit
  | prefixed => exact begins_prefixed _
  | postfixed hv _ _ ih =>
    obtain ⟨c, hc⟩ := ih (h.child (by simp [children]))
    exact ⟨c, hc.append (text_postfixed _) rfl⟩
  | @binary op a b l ha _ _ _ _ ih =>
    obtain ⟨c, hc⟩ := ih (h.child (by simp [children]))
    by_cases hcomma : op = .comma
    · obtain rfl := hcomma
      exact ⟨c, hc.append text_comma rfl⟩
    · cases hmember : op.isMemberAccess with
      | true => exact ⟨c, hc.append (text_member hmember) rfl⟩
      | false => exact ⟨c, hc.append (text_binary hmember hcomma) rfl⟩
  | ternary hc hcheck _ _ _ _ _ _ _ ih =>
    obtain ⟨c, hc⟩ := ih (h.child (by simp [children]))
    exact ⟨c, hc.append (text_ternary hcheck) rfl⟩
  -- A word or a bracket in front, whatever stands inside.
  | sizeof => exact ⟨'s', begins_of_text text_sizeof (by decide) (by decide)⟩
  | throw hv =>
    exact ⟨'t', begins_of_text (text_throw hv.isEmpty_eq_false) (by decide) (by decide)⟩
  | parenCast => exact ⟨'(', begins_of_text (text_parenCast _) (by decide) (by decide)⟩
  | @functionCast t v l =>
    obtain ⟨c, tail, htext, hc, hnumber⟩ := h.vartype.begins
    have hdigit : c.isDigit = false := by
      have htype : t.atom.isNumber = false := by
        rw [Vartype.atom]
        split <;> rfl
      simpa [htype] using hnumber
    rw [Vartype.render_atom] at htext
    have htext' : (cast .function t v l).text = c :: (tail ++ enclosed .round [v]) := by
      rw [text_functionCast, htext]
      rfl
    exact ⟨c, begins_of_text htext' hc hdigit⟩
  | parens => exact ⟨'(', begins_of_text text_parens (by decide) (by decide)⟩
  | tuple => exact ⟨'\x7b', begins_of_text text_tuple (by decide) (by decide)⟩
  | call _ _ _ _ _ _ ih =>
    obtain ⟨c, hc⟩ := ih (h.child (by simp [children]))
    exact ⟨c, hc.append text_call rfl⟩
  | subscript _ _ _ _ _ ih =>
    obtain ⟨c, hc⟩ := ih (h.child (by simp [children]))
    exact ⟨c, hc.append text_subscript rfl⟩
  | element _ _ ih =>
    obtain ⟨c, hc⟩ := ih (h.child (by simp [children]))
    exact ⟨c, hc.append text_subscript rfl⟩
  | launch _ _ _ _ _ _ _ ih =>
    obtain ⟨c, hc⟩ := ih (h.child (by simp [children]))
    exact ⟨c, hc.append text_launch rfl⟩

end Expr

end KernelTree
