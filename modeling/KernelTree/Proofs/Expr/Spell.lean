import KernelTree.Proofs.Expr.Text

/-!
# The tokens of a printed text

The text of a tree is split into the tokens that the tree prints (`Expr.spelled`), if its leaves are
legible and no two of its pieces run together. Whatever stands behind the text may do so, as long as
it does not run into the last leaf, so the texts of the nodes are put together from right to left.
-/

namespace KernelTree

namespace Expr

variable {a b c v e : Expr} {l : Location}

/-! ### The tokens of a text -/

/-- In front of what does not run into it, the text is split into the printed tokens. -/
def Spelled (e : Expr) : Prop :=
  ∀ rest ys, (∀ a ∈ e.last.atom?, a.EndsBefore rest) → Lexes rest ys →
    Lexes (e.text ++ rest) (e.printed ++ ys)

section

variable {rest : List Char} {ys : List Lexeme} {args : List Expr}

/-- An opening bracket is taken for itself: no symbol goes on from it. -/
theorem takes_opening (b : Bracket) :
    Scan.Takes (.op (.opening b)) b.openSymbol.toList rest :=
  Scan.takes_symbol_final (by cases b <;> decide) (by cases b <;> decide)

/-- A closing bracket is taken for itself: no symbol goes on from it. -/
theorem takes_closing (b : Bracket) :
    Scan.Takes (.op (.closing b)) b.closeSymbol.toList rest :=
  Scan.takes_symbol_final (by cases b <;> decide) (by cases b <;> decide)

/-- Every leaf ends in front of an opening bracket. -/
theorem endsBefore_opening (x : Atom) (b : Bracket) :
    x.EndsBefore (b.openSymbol.toList ++ rest) :=
  Atom.endsBefore_symbol (by cases b <;> decide) (takes_opening b) (by simp) (by simp) (by simp)

/-- Every leaf ends in front of a closing bracket. -/
theorem endsBefore_closing (x : Atom) (b : Bracket) :
    x.EndsBefore (b.closeSymbol.toList ++ rest) :=
  Atom.endsBefore_symbol (by cases b <;> decide) (takes_closing b) (by simp) (by simp) (by simp)

/-- A comma is taken for itself. -/
theorem takes_comma : Scan.Takes (.op (.binary .comma)) [','] rest :=
  Scan.takes_symbol_final (by decide) (by decide)

/-- Every leaf ends in front of a comma. -/
theorem endsBefore_comma (x : Atom) : x.EndsBefore (',' :: rest) :=
  Atom.endsBefore_symbol (by decide) takes_comma (by simp) (by simp) (by simp)

/-- Further arguments, each behind a comma and a blank. -/
theorem spelled_more (h : ∀ a ∈ args, a.Spelled) (hrest : ∀ x : Atom, x.EndsBefore rest)
    (hys : Lexes rest ys) : Lexes (textMore args ++ rest) (printedMore args ++ ys) ∧
      ∀ x : Atom, x.EndsBefore (textMore args ++ rest) := by
  induction args with
  | nil => exact ⟨hys, hrest⟩
  | cons a args ih =>
    obtain ⟨ha, hargs⟩ := List.forall_mem_cons.mp h
    obtain ⟨hmore, hends⟩ := ih hargs
    refine ⟨?_, fun x => endsBefore_comma x⟩
    rw [textMore, printedMore]
    simp only [List.cons_append, List.append_assoc]
    exact takes_comma.lexes (ha _ _ (fun x _ => hends x) hmore).blank

/-- Arguments in brackets. -/
theorem spelled_enclosed (b : Bracket) (h : ∀ a ∈ args, a.Spelled) (hys : Lexes rest ys) :
    Lexes (enclosed b args ++ rest) (printedEnclosed b args ++ ys) := by
  have hclose : Lexes (b.closeSymbol.toList ++ rest) (.op (.closing b) :: ys) :=
    (takes_closing b).lexes hys
  rw [enclosed, printedEnclosed]
  simp only [List.cons_append, List.append_assoc, List.nil_append]
  refine (takes_opening b).lexes ?_
  cases args with
  | nil => exact hclose
  | cons a args =>
    obtain ⟨ha, hargs⟩ := List.forall_mem_cons.mp h
    obtain ⟨hmore, hends⟩ := spelled_more hargs (fun x => endsBefore_closing x b) hclose
    rw [textArgs, printedArgs]
    simp only [List.append_assoc]
    exact ha _ _ (fun x _ => hends x) hmore

/-- Every leaf ends in front of something in brackets. -/
theorem endsBefore_enclosed (x : Atom) (b : Bracket) (args : List Expr) :
    x.EndsBefore (enclosed b args ++ rest) := by
  rw [enclosed, List.append_assoc]
  exact endsBefore_opening x b

/-- A value with arguments in brackets behind it. -/
theorem spelled_attached {b : Bracket} (hv : v.Spelled) (hargs : ∀ a ∈ args, a.Spelled)
    (htext : e.text = v.text ++ enclosed b args)
    (hprinted : e.printed = v.printed ++ printedEnclosed b args) : e.Spelled := by
  intro rest ys _ hys
  rw [htext, hprinted, List.append_assoc, List.append_assoc]
  exact hv _ _ (fun x _ => endsBefore_enclosed x b args) (spelled_enclosed b hargs hys)

end

/-! ### Operators -/

/-- A symbol is written alike whichever of its readings is meant. -/
theorem symbol_generic (op : Operator) : op.generic.symbol = op.symbol := by
  cases op with
  | pre op => cases op <;> decide
  | post op => cases op <;> decide
  | binary op => cases op <;> decide
  | opening b => cases b <;> decide
  | closing b => cases b <;> decide
  | unresolved a => cases a <;> decide

/-- The prefix operators that are written as symbols are in the table. -/
theorem prefix_mem_symbols {op : PrefixOp} (hop : op.isPlain = true ∨ op = .globalScope) :
    ((Operator.pre op).generic.symbol, (Operator.pre op).generic) ∈ Operator.symbols := by
  rcases hop with hop | rfl
  · cases op <;> first | decide | cases hop
  · decide

/-- The infix operators are in the table. -/
theorem binary_mem_symbols (op : BinaryOp) :
    ((Operator.binary op).generic.symbol, (Operator.binary op).generic) ∈ Operator.symbols := by
  cases op <;> decide

/-- The symbol of a prefix operator grows with its last character or with what begins no text. -/
theorem followers_prefix {op : PrefixOp} {d : Char} (h : d ∈ Scan.followers op.symbol.toList)
    (hd : d ≠ '=' ∧ d ≠ '>') : op.symbol.toList.getLast? = some d := by
  have hall : (Scan.followers op.symbol.toList).all
      (fun c => c = '=' || c = '>' || op.symbol.toList.getLast? = some c) = true := by
    cases op <;> decide
  simpa [hd] using List.all_eq_true.mp hall d h

/-- A prefix operator is spelled in front of its operand: a blank is put between the two where one
symbol would be made of them. -/
theorem spelled_prefixed {op : PrefixOp} (hop : op.isPlain = true ∨ op = .globalScope)
    (hv : v.Spelled) (hbegins : ∃ c, v.Begins c) : (prefixed (.pre op) v l).Spelled := by
  intro rest ys hrest hys
  have hsymbol := prefix_mem_symbols hop
  have hinner : Lexes (v.text ++ rest) (v.printed ++ ys) := hv rest ys hrest hys
  rw [text_prefixed, printed, ← symbol_generic]
  by_cases hlast : (Operator.pre op).generic.symbol.toList.getLast? = v.text.head?
  · rw [if_pos hlast, List.append_assoc]
    exact (Scan.takes_symbol_blank hsymbol).lexes hinner.blank
  · rw [if_neg hlast, List.append_assoc]
    refine (Scan.takes_symbol hsymbol (fun c hc hmem => ?_) ?_ ?_).lexes hinner
    · obtain ⟨d, hd⟩ := hbegins
      obtain ⟨tail, htext⟩ := hd.text
      obtain rfl : d = c := by simpa [htext] using hc
      rw [symbol_generic] at hmem hlast
      refine hlast ?_
      rw [htext]
      exact followers_prefix hmem hd.symbol
    · intro hdot
      cases op <;> cases hdot
    · intro hdiv
      cases op <;> cases hdiv

/-- A postfix operator is spelled behind its operand, which it cannot be taken for a part of. -/
theorem spelled_postfixed {op : PostfixOp} (hv : v.Spelled) :
    (postfixed (.post op) v l).Spelled := by
  intro rest ys _ hys
  have hsymbol : ((Operator.post op).generic.symbol, (Operator.post op).generic)
      ∈ Operator.symbols := by
    cases op <;> decide
  have htake : Scan.Takes (.op (Operator.post op).generic)
      (Operator.post op).generic.symbol.toList rest :=
    Scan.takes_symbol_final hsymbol (by cases op <;> decide)
  rw [text_postfixed, printed, ← symbol_generic, List.append_assoc, List.append_assoc]
  refine hv _ _ (fun x _ => Atom.endsBefore_symbol hsymbol htake ?_ ?_ ?_) (htake.lexes hys)
  · cases op <;> decide
  · intro _
    cases op <;> decide
  · intro _
    cases op <;> decide

/-- A comma is spelled with a blank behind it. -/
theorem spelled_comma (ha : a.Spelled) (hb : b.Spelled) :
    (binary (.binary .comma) a b l).Spelled := by
  intro rest ys hrest hys
  rw [text_comma, printed, List.append_assoc, List.append_assoc]
  exact ha _ _ (fun x _ => endsBefore_comma x) (takes_comma.lexes (hb rest ys hrest hys).blank)

/-- A point and an arrow make another access with a star behind them, the others stay as they
are. -/
theorem followers_member {op : BinaryOp} (hmember : op.isMemberAccess = true) :
    Scan.followers (Operator.binary op).generic.symbol.toList = [] ∨
      (Scan.followers (Operator.binary op).generic.symbol.toList = ['*'] ∧
        (op = .dot ∨ op = .arrow)) := by
  cases op <;> first | decide | cases hmember

/-- Access to a member is taken in front of an operand that stays apart from it. -/
theorem takes_member {op : BinaryOp} (hmember : op.isMemberAccess = true)
    (hbegins : ∃ c, b.Begins c) (hapart : (binary (.binary op) a b l).keepsApart = true)
    (rest : List Char) :
    Scan.Takes (.op (Operator.binary op).generic) (Operator.binary op).generic.symbol.toList
      (b.text ++ rest) := by
  obtain ⟨c, hc⟩ := hbegins
  obtain ⟨tail, htext⟩ := hc.text
  rw [htext]
  refine Scan.takes_symbol (binary_mem_symbols op) (fun d hd hmem => ?_) (fun hdot d hd => ?_)
    fun hdiv => ?_
  · obtain rfl : c = d := by simpa using hd
    rcases followers_member hmember with hnone | ⟨hstar, hop⟩
    · simp [hnone] at hmem
    · have hstarts := hc.star (by simpa [hstar] using hmem)
      rcases hop with rfl | rfl <;> simp [keepsApart, hstarts] at hapart
  · obtain rfl : c = d := by simpa using hd
    obtain rfl : op = .dot := by cases op <;> first | rfl | cases hdot
    cases hdigit : c.isDigit with
    | false => rfl
    | true => simp [keepsApart, hc.number hdigit] at hapart
  · obtain rfl : op = .div := by cases op <;> first | rfl | cases hdiv
    cases hmember

/-- Access to a member stands between its operands without blanks. -/
theorem spelled_member {op : BinaryOp} (hmember : op.isMemberAccess = true) (ha : a.Spelled)
    (hb : b.Spelled) (hbegins : ∃ c, b.Begins c)
    (hapart : (binary (.binary op) a b l).keepsApart = true) :
    (binary (.binary op) a b l).Spelled := by
  intro rest ys hrest hys
  have htake := takes_member hmember hbegins hapart rest
  rw [text_member hmember, printed, List.append_assoc, List.append_assoc,
    ← show (Operator.binary op).symbol = op.symbol from rfl, ← symbol_generic, List.append_assoc]
  refine ha _ _ (fun x hx => ?_) (htake.lexes (hb rest ys hrest hys))
  refine Atom.endsBefore_symbol (binary_mem_symbols op) htake ?_ (fun hint => ?_) fun _ => ?_
  · cases op <;> first | decide | cases hmember
  · have hends : a.endsInInt = true := by
      rw [endsInInt, Option.mem_def.mp hx]
      exact hint
    cases op <;> first | decide | simp [keepsApart, hends] at hapart
  · cases op <;> first | decide | cases hmember

/-- Other operators stand between blanks. -/
theorem spelled_binary {op : BinaryOp} (hmember : op.isMemberAccess = false) (hcomma : op ≠ .comma)
    (ha : a.Spelled) (hb : b.Spelled) (hapart : (binary (.binary op) a b l).keepsApart = true) :
    (binary (.binary op) a b l).Spelled := by
  intro rest ys hrest hys
  have hinner : Lexes (b.text ++ rest) (b.printed ++ ys) := hb rest ys hrest hys
  have htake : Scan.Takes (.op (Operator.binary op).generic)
      (Operator.binary op).generic.symbol.toList (' ' :: (b.text ++ rest)) :=
    Scan.takes_symbol_blank (binary_mem_symbols op)
  rw [text_binary hmember hcomma, printed, List.append_assoc, List.append_assoc,
    ← show (Operator.binary op).symbol = op.symbol from rfl, ← symbol_generic, List.cons_append,
    List.append_assoc]
  refine ha _ _ (fun x hx => Atom.endsBefore_blank fun htype => ?_) (htake.lexes hinner.blank).blank
  refine .symbol (binary_mem_symbols op) htake fun hstar => ?_
  obtain rfl : op = .mul := by cases op <;> first | rfl | cases hstar
  have hends : a.endsInType = true := by
    rw [endsInType, Option.mem_def.mp hx]
    exact Option.isSome_iff_ne_none.mpr htype
  simp [keepsApart, hends] at hapart

/-- The marks of a conditional stand between blanks. -/
theorem spelled_ternary (hcheck : c.rightEdge ≤ 13) (hc : c.Spelled) (ha : a.Spelled)
    (hb : b.Spelled) : (ternary c a b l).Spelled := by
  intro rest ys hrest hys
  have hmark {op : PrefixOp} (hop : op = .question ∨ op = .colon) {rest : List Char} :
      Scan.Takes (.op (.pre op)) op.symbol.toList (' ' :: rest) :=
    Scan.takes_symbol_blank (by rcases hop with rfl | rfl <;> decide)
  have hblank {op : PrefixOp} (hop : op = .question ∨ op = .colon) {rest : List Char} (x : Atom) :
      x.EndsBefore (' ' :: (op.symbol.toList ++ ' ' :: rest)) := by
    refine Atom.endsBefore_blank fun _ => .symbol ?_ (hmark hop) ?_ <;>
      rcases hop with rfl | rfl <;> decide
  have hfalse : Lexes (b.text ++ rest) (b.printed ++ ys) := hb rest ys hrest hys
  have htrue := ha _ _ (fun x _ => hblank (.inr rfl) x)
    ((hmark (.inr rfl)).lexes hfalse.blank).blank
  have hall := hc _ _ (fun x _ => hblank (.inl rfl) x)
    ((hmark (.inl rfl)).lexes htrue.blank).blank
  rw [text_ternary hcheck, printed]
  simpa [PrefixOp.symbol] using hall

/-- A legible leaf is spelled by its text. -/
theorem spelled_atom {x : Atom} (hx : x.Legible) : (atom x l).Spelled := by
  intro rest ys hrest hys
  rw [text_atom, printed]
  exact (Scan.takes_atom hx (hrest x rfl)).lexes hys

/-- Nothing is spelled by nothing. -/
theorem spelled_empty : (empty l).Spelled := by
  intro rest ys _ hys
  exact hys

/-- The word `throw` is spelled with a blank behind it. -/
theorem spelled_throw (hne : v.isEmpty = false) (hv : v.Spelled) : (throw v l).Spelled := by
  intro rest ys hrest hys
  rw [text_throw hne, printed, List.append_assoc]
  refine (Scan.takes_keyword (show (_, Operator.pre .throw) ∈ _ by decide) ?_).lexes
    (hv rest ys hrest hys).blank
  intro c hc
  obtain rfl : ' ' = c := by simpa using hc
  decide

/-- What `sizeof` measures is spelled in brackets. -/
theorem spelled_sizeof (hv : v.unbracketed.Spelled) : (sizeof v l).Spelled := by
  intro rest ys _ hys
  have hinner := spelled_enclosed .round (List.forall_mem_singleton.mpr hv) hys
  rw [text_sizeof, printed_sizeof', List.append_assoc]
  refine (Scan.takes_keyword (show (_, Operator.pre .sizeof) ∈ _ by decide) ?_).lexes hinner
  intro c hc
  obtain rfl : '(' = c := by simpa [enclosed, Bracket.openSymbol] using hc
  decide

/-- A conversion with its type in brackets. -/
theorem spelled_parenCast {t : Vartype} (ht : t.atom.Legible) (hv : v.Spelled) :
    (cast .paren t v l).Spelled := by
  intro rest ys hrest hys
  have hclose : Lexes (')' :: ' ' :: (v.text ++ rest))
      (.op (.closing .round) :: (v.printed ++ ys)) :=
    (takes_closing .round).lexes (hv rest ys hrest hys).blank
  have htype := (Scan.takes_atom ht (endsBefore_closing _ .round)).lexes hclose
  have hall := (takes_opening .round).lexes htype
  rw [Vartype.render_atom] at hall
  rw [text_parenCast, printed]
  simpa [Bracket.openSymbol, Bracket.closeSymbol] using hall

/-- A conversion that looks like a call is spelled like one. -/
theorem spelled_functionCast {t : Vartype} (ht : t.atom.Legible) (hv : v.Spelled) :
    (cast .function t v l).Spelled := by
  intro rest ys _ hys
  have hinner := spelled_enclosed .round (List.forall_mem_singleton.mpr hv) hys
  have hall := (Scan.takes_atom ht (endsBefore_enclosed _ .round [v])).lexes hinner
  rw [Vartype.render_atom] at hall
  rw [text_functionCast, printed_functionCast, List.append_assoc]
  exact hall

/-- In front of what does not run into it, the text of a tree is split into the tokens that the
tree prints. -/
theorem spelled (he : e.Grouped) (h : e.Legible) : e.Spelled := by
  induction he with
  | atom x l => exact spelled_atom (legible_iff.mp h).1.1
  | @prefixed op v l hop hv _ ih =>
    have hlegible : v.Legible := h.child (by simp [children])
    exact spelled_prefixed hop (ih hlegible) (begins hv hlegible)
  | postfixed _ _ _ ih => exact spelled_postfixed (ih (h.child (by simp [children])))
  | @binary op a b l _ _ hb _ _ iha ihb =>
    have ha := iha (h.child (by simp [children]))
    have hlegible : b.Legible := h.child (by simp [children])
    -- What is around the sign depends on the operator: nothing, one blank, or a blank behind a
    -- comma.
    have hapart := (legible_iff.mp h).1.2
    by_cases hcomma : op = .comma
    · obtain rfl := hcomma
      exact spelled_comma ha (ihb hlegible)
    · cases hmember : op.isMemberAccess with
      | true => exact spelled_member hmember ha (ihb hlegible) (begins hb hlegible) hapart
      | false => exact spelled_binary hmember hcomma ha (ihb hlegible) hapart
  | ternary _ hcheck _ _ _ _ _ _ _ ihc iha ihb =>
    exact spelled_ternary hcheck (ihc (h.child (by simp [children])))
      (iha (h.child (by simp [children]))) (ihb (h.child (by simp [children])))
  | sizeof _ _ ih => exact spelled_sizeof (ih h.unbracketed)
  | throw hv _ ih => exact spelled_throw hv.isEmpty_eq_false (ih (h.child (by simp [children])))
  | parenCast _ _ ih => exact spelled_parenCast h.vartype (ih (h.child (by simp [children])))
  | functionCast _ _ _ ih =>
    exact spelled_functionCast h.vartype (ih (h.child (by simp [children])))
  | parens _ _ _ ih =>
    intro rest ys _ hys
    rw [text_parens, printed_parens]
    exact spelled_enclosed .round
      (List.forall_mem_singleton.mpr (ih (h.child (by simp [children])))) hys
  | tuple _ _ _ _ ih =>
    intro rest ys _ hys
    rw [text_tuple]
    exact spelled_enclosed .curly (fun a ha => ih a ha (h.child ha)) hys
  | call _ _ _ _ _ _ ihf ih =>
    refine spelled_attached (ihf (h.child (by simp [children]))) (fun a ha => ?_) text_call rfl
    exact ih a ha (h.child (List.mem_cons_of_mem _ ha))
  | subscript _ _ _ _ _ ihv ihi =>
    exact spelled_attached (ihv (h.child (by simp [children])))
      (List.forall_mem_singleton.mpr (ihi (h.child (by simp [children])))) text_subscript
      printed_subscript
  | element _ _ ih =>
    exact spelled_attached (ih (h.child (by simp [children])))
      (List.forall_mem_singleton.mpr spelled_empty) text_subscript printed_subscript
  | launch _ _ _ _ _ _ _ ihk ihb iht =>
    refine spelled_attached (ihk (h.child (by simp [children]))) ?_ text_launch printed_launch
    exact List.forall_mem_cons.mpr ⟨ihb (h.child (by simp [children])),
      List.forall_mem_singleton.mpr (iht (h.child (by simp [children])))⟩

end Expr

end KernelTree
