import KernelTree.Proofs.Expr.Spell

/-!
# Printed texts and their tokens

Trees that need no further brackets are printed so that their text is split into their tokens,
left to right (`Expr.tokenize_render`). The printer only sees two neighbours at a time, and the
scanner takes the longest symbol that it can. So it must be known of each operator what it grows
with, and of each text how it begins and ends; access to members is left out, which is printed
without blanks.
-/

namespace KernelTree

/-- The leaf is among the tokens of some text. -/
def Atom.IsScanned (a : Atom) : Prop :=
  ∃ source ts, tokenize .none source = .ok ts ∧ .atom a ∈ ts.map Token.lexeme

/-- The leaves that are written the same everywhere and are no floating-point numbers. -/
inductive Atom.Plain : Atom → Prop
  | bool (b : Bool) : Plain (.value (.bool b))
  | int {n : Int32} (h : 0 ≤ n.toInt) : Plain (.value (.int n))
  | long {n : Int64} (h : 0 ≤ n.toInt) : Plain (.value (.long n))
  | char {text : String} (h : (Atom.char text).IsScanned) : Plain (.char text)
  | string {text : String} (h : (Atom.string text).IsScanned) : Plain (.string text)
  | identifier {name : String} (h : IsName name) : Plain (.identifier name)

namespace Atom

variable {a : Atom}

/-- A leaf that the scanner finds is read back, unless it is a floating-point number. -/
theorem IsScanned.legible (h : a.IsScanned) (hreal : a.isReal = false) : a.Legible := by
  obtain ⟨source, ts, hts, ha⟩ := h
  refine (legible_tokensAt hts a ha).resolve_right fun hliteral => ?_
  rw [hliteral.isReal] at hreal
  cases hreal

/-- A plain leaf is read back. -/
theorem Plain.legible (h : a.Plain) : a.Legible := by
  cases h with
  | bool b => exact .bool b
  | int h => exact .int h
  | long h => exact .long h
  | char h => exact h.legible rfl
  | string h => exact h.legible rfl
  | identifier h => exact .identifier h

/-- No handle has to be looked up to write the leaf. -/
theorem Plain.render_eq (h : a.Plain) (names : Names) :
    a.render names = a.render Names.initial := by
  cases h <;> rfl

end Atom

namespace Expr

/-- Whether the node is written like its tokens: access to members has no blanks, and the operand of
`sizeof` must have brackets of its own. -/
def isPlain : Expr → Bool
  | binary (.binary op) _ _ _ => !op.isMemberAccess
  | sizeof (parens _ _) _ => true
  | sizeof _ _ => false
  | _ => true

/-- What is measured stays grouped without its brackets. -/
theorem Grouped.unbracketed {t : Expr} (h : t.Grouped) : t.unbracketed.Grouped := by
  cases t with
  | parens v l =>
    cases h with
    | parens hv => exact hv
  | _ => exact h

namespace NormalForm

variable {t : Expr}

/-! ### Edges -/

/-- A normal form shows at most its own level to what stands before it. -/
theorem leftEdge_le (h : t.NormalForm) : t.leftEdge ≤ t.level := by
  cases h <;> simp [leftEdge, level]

/-- No operator that waits for the last operand is looser than the root. -/
theorem rightEdge_le (h : t.NormalForm) : t.rightEdge ≤ t.level := by
  induction h with
  | @prefixed op v l hop _ hlevel ih =>
    have hop : (Operator.pre op).precedence = 2 := by cases op <;> first | rfl | cases hop
    simp only [rightEdge, level, hop]
    omega
  | throw _ hlevel ih =>
    simp only [rightEdge, level]
    omega
  | leftBinary _ _ _ _ hright _ ih =>
    simp only [rightEdge, level, Operator.precedence]
    omega
  | rightBinary _ _ _ _ hright _ ih =>
    simp only [rightEdge, level, Operator.precedence]
    omega
  | ternary _ _ _ _ _ hfalse _ _ ih =>
    simp only [rightEdge, level]
    omega
  | _ => simp [rightEdge, level]

/-- Nothing in a normal form counts up or down behind its operand. -/
theorem endsInStep_eq_false (h : t.NormalForm) : t.endsInStep = false := by
  induction h with
  | prefixed _ _ _ ih => exact ih
  | throw _ _ ih => exact ih
  | leftBinary _ _ _ _ _ _ ih => exact ih
  | rightBinary _ _ _ _ _ _ ih => exact ih
  | ternary _ _ _ _ _ _ _ _ ih => exact ih
  | _ => rfl

/-- A tree in normal form does not end in a type. -/
theorem endsInType_eq_false (h : t.NormalForm) : t.endsInType = false := by
  induction h with
  | @atom a l ha => simp [endsInType, last, atom?, ha]
  | prefixed _ _ _ ih => exact ih
  | throw _ _ ih => exact ih
  | leftBinary _ _ _ _ _ _ ih => exact ih
  | rightBinary _ _ _ _ _ _ ih => exact ih
  | ternary _ _ _ _ _ _ _ _ ih => exact ih
  | _ => rfl

/-! ### Grouping -/

/-- A tree in normal form has no conversion in front of its operand. -/
theorem hasParenCast_eq_false (h : t.NormalForm) : t.hasParenCast = false := by
  induction h with
  | tuple _ _ ih => simpa using ih
  | call _ _ _ _ ihf ih => simpa [ihf] using ih
  | _ => simp_all

/-- Without casts no bracket takes a value that stands before it. -/
theorem grabs_eq_false (h : t.NormalForm) (behindCast : Bool) : t.grabs behindCast = false := by
  induction h generalizing behindCast with
  | atom => rfl
  | prefixed _ _ _ ih => exact ih false
  | sizeof _ _ ih => exact ih false
  | throw _ _ ih => exact ih false
  | leftBinary _ _ _ _ _ ih => exact ih behindCast
  | rightBinary _ _ _ _ _ ih => exact ih behindCast
  | ternary _ _ _ _ _ _ ih => exact ih behindCast
  | parens hv ih => simp [grabs, hv.hasParenCast_eq_false, ih]
  | @tuple args l hargs _ ih =>
    cases args with
    | nil => rfl
    | cons a rest =>
      have hcast : (a :: rest).any hasParenCast = false :=
        List.any_eq_false.mpr fun b hb => by simp [(hargs b hb).hasParenCast_eq_false]
      simp [grabs, hcast, ih a List.mem_cons_self]
  | call _ _ _ _ ih => exact ih behindCast
  | subscript _ _ _ ih => exact ih behindCast
  | launch _ _ _ _ _ _ ih => exact ih behindCast

/-- A tree that binds more tightly stays behind an operator. -/
theorem staysBehind {p : Nat} (h : t.NormalForm) (hlevel : t.level < p) : t.StaysBehind p :=
  .inl (lt_of_le_of_lt h.leftEdge_le hlevel)

/-- A tree of the same precedence stays behind an operator that groups to the right. -/
theorem staysBehind_of_right {p : Nat} (h : t.NormalForm) (hlevel : t.level ≤ p)
    (hp : associativity p = .right) : t.StaysBehind p := by
  rcases lt_or_eq_of_le (h.leftEdge_le.trans hlevel) with hlt | heq
  · exact .inl hlt
  · exact .inr ⟨heq, hp⟩

/-- A tree that binds more tightly gives way to an operator. -/
theorem givesWay {p : Nat} (h : t.NormalForm) (hlevel : t.level < p) : t.GivesWay p :=
  .inl (lt_of_le_of_lt h.rightEdge_le hlevel)

/-- A tree of the same precedence gives way to an operator that groups to the left. -/
theorem givesWay_of_left {p : Nat} (h : t.NormalForm) (hlevel : t.level ≤ p)
    (hp : associativity p = .left) : t.GivesWay p := by
  rcases lt_or_eq_of_le (h.rightEdge_le.trans hlevel) with hlt | heq
  · exact .inl hlt
  · exact .inr ⟨heq, hp⟩

/-- What binds more tightly than a comma may be an argument. -/
theorem argument (h : t.NormalForm) (hlevel : t.level < 16) : t.Argument :=
  ⟨lt_of_le_of_lt h.leftEdge_le hlevel, h.grabs_eq_false false⟩

/-- What a bracket follows ends in a value. -/
theorem callee (h : t.NormalForm) (hlevel : t.level = -1) : t.rightEdge < 0 := by
  have hle := h.rightEdge_le
  omega

/-- What is measured stays in normal form without its brackets. -/
theorem unbracketed (h : t.NormalForm) : t.unbracketed.NormalForm := by
  cases t with
  | parens v l =>
    cases h with
    | parens hv => exact hv
  | _ => exact h

/-- The printed tokens of a normal form tell its shape. -/
theorem grouped (h : t.NormalForm) : t.Grouped := by
  induction h with
  | atom => exact .atom _ _
  | @prefixed op v l hop hv hlevel ih =>
    -- All signs in front bind alike, so the level of the operand is enough.
    have hprecedence : op.precedence = 2 := by cases op <;> first | rfl | cases hop
    refine .prefixed (.inl hop) ih ?_
    rw [hprecedence]
    exact hv.staysBehind_of_right hlevel rfl
  | sizeof hv _ ih => exact .sizeof ih.unbracketed hv.unbracketed.endsInStep_eq_false
  | throw hv hlevel ih => exact .throw ih (hv.staysBehind_of_right hlevel rfl)
  | leftBinary hop ha hleft hb hright iha ihb =>
    exact .binary iha (ha.givesWay_of_left hleft hop) ihb (hb.staysBehind hright)
      (hb.grabs_eq_false false)
  | rightBinary hop ha hleft hb hright iha ihb =>
    exact .binary iha (ha.givesWay hleft) ihb (hb.staysBehind_of_right hright hop)
      (hb.grabs_eq_false false)
  | ternary hc hcheck ha htrue hb hfalse ihc iha ihb =>
    exact .ternary ihc (hc.rightEdge_le.trans hcheck) iha (ha.leftEdge_le.trans htrue)
      (ha.rightEdge_le.trans htrue) (ha.grabs_eq_false false) ihb (hb.leftEdge_le.trans hfalse)
      (hb.grabs_eq_false false)
  | parens hv ih => exact .parens ih hv.vartype?_eq_none hv.endsInStep_eq_false
  | tuple hargs hlevel ih =>
    refine .tuple ih (fun a ha => (hargs a ha).leftEdge_le.trans_lt (hlevel a ha)) ?_ ?_
    · exact fun a ha => (hargs a (List.mem_of_mem_tail ha)).grabs_eq_false false
    · exact fun a ha => (hargs a (List.mem_of_getLast? ha)).endsInStep_eq_false
  | call hf hcallee hargs hlevel ihf ih =>
    refine .call ihf (hf.callee hcallee) (.inl hf.vartype?_eq_none) ih ?_ ?_
    · exact fun a ha => (hargs a ha).argument (hlevel a ha)
    · exact fun a ha => (hargs a (List.mem_of_getLast? ha)).endsInStep_eq_false
  | subscript hv hcallee hi ihv ihi =>
    exact .subscript ihv (hv.callee hcallee) ihi (hi.grabs_eq_false false) hi.endsInStep_eq_false
  | launch hk hcallee hb hblocks ht hthreads ihk ihb iht =>
    exact .launch ihk (hk.callee hcallee) ihb (hb.argument hblocks) iht (ht.argument hthreads)
      ht.endsInStep_eq_false

/-- What stands in a tree in normal form is in normal form. -/
theorem children (h : t.NormalForm) : ∀ c ∈ t.children, c.NormalForm := by
  cases h with
  | atom => exact List.forall_mem_nil _
  | prefixed _ hv => exact List.forall_mem_singleton.mpr hv
  | sizeof hv => exact List.forall_mem_singleton.mpr hv
  | throw hv => exact List.forall_mem_singleton.mpr hv
  | leftBinary _ ha _ hb => exact forall_mem_pair.mpr ⟨ha, hb⟩
  | rightBinary _ ha _ hb => exact forall_mem_pair.mpr ⟨ha, hb⟩
  | ternary hc _ ha _ hb => exact List.forall_mem_cons.mpr ⟨hc, forall_mem_pair.mpr ⟨ha, hb⟩⟩
  | parens hv => exact List.forall_mem_singleton.mpr hv
  | tuple hargs => exact hargs
  | call hf _ hargs => exact List.forall_mem_cons.mpr ⟨hf, hargs⟩
  | subscript hv _ hi => exact forall_mem_pair.mpr ⟨hv, hi⟩
  | launch hk _ hb _ ht => exact List.forall_mem_cons.mpr ⟨hk, forall_mem_pair.mpr ⟨hb, ht⟩⟩

end NormalForm

/-! ### Plain trees -/

/-- The normal forms all of whose nodes and leaves are plain. -/
structure Plain (t : Expr) : Prop where
  normal : t.NormalForm
  nodes : ∀ n ∈ t.nodes, n.isPlain = true ∧ ∀ a ∈ n.atom?, a.Plain

/-- Arguments are printed as their tokens if each of them is. -/
theorem printedArgs_eq {args : List Expr} (h : ∀ a ∈ args, a.printed = a.lexemes) :
    printedArgs args = argLexemes args := by
  have hmore (rest : List Expr) (h : ∀ a ∈ rest, a.printed = a.lexemes) :
      printedMore rest = moreLexemes rest := by
    induction rest with
    | nil => rfl
    | cons a rest ih =>
      obtain ⟨ha, hrest⟩ := List.forall_mem_cons.mp h
      rw [printedMore, moreLexemes, ha, ih hrest]
  cases args with
  | nil => rfl
  | cons a rest =>
    obtain ⟨ha, hrest⟩ := List.forall_mem_cons.mp h
    rw [printedArgs, argLexemes, ha, hmore rest hrest]

/-- Arguments are written alike if each of them is. -/
theorem renderAll_eq {args : List Expr} {names names' : Names}
    (h : ∀ a ∈ args, a.render names = a.render names') :
    renderAll names args = renderAll names' args := by
  induction args with
  | nil => rfl
  | cons a rest ih =>
    obtain ⟨ha, hrest⟩ := List.forall_mem_cons.mp h
    rw [renderAll, renderAll, ha, ih hrest]

namespace Plain

variable {t c : Expr}

/-- What is asked of the root of a plain tree. -/
theorem root (h : t.Plain) : t.isPlain = true ∧ ∀ a ∈ t.atom?, a.Plain :=
  (forall_mem_nodes.mp h.nodes).1

/-- What stands in a plain tree is plain. -/
theorem child (h : t.Plain) (hc : c ∈ t.children) : c.Plain :=
  ⟨h.normal.children c hc, (forall_mem_nodes.mp h.nodes).2 c hc⟩

/-- In a plain tree `sizeof` measures something in brackets. -/
theorem sizeof {v : Expr} {l : Location} (h : (sizeof v l).Plain) : ∃ w l', v = parens w l' := by
  have hroot := h.root.1
  cases v with
  | parens w l' => exact ⟨w, l', rfl⟩
  | _ => cases hroot

/-- The printed tokens are the tokens of the tree. -/
theorem printed_eq (h : t.Plain) : t.printed = t.lexemes := by
  induction t using inductionOn with
  | step t ih =>
    have hchild {c : Expr} (hc : c ∈ t.children) : c.printed = c.lexemes := ih c hc (h.child hc)
    have hnormal := h.normal
    cases hnormal with
    | atom => rfl
    | prefixed => rw [printed, lexemes, hchild (by simp [children])]
    | sizeof =>
      obtain ⟨w, l', rfl⟩ := h.sizeof
      exact congrArg (.op (.pre .sizeof) :: ·) (hchild List.mem_cons_self)
    | throw => rw [printed, lexemes, hchild (by simp [children])]
    | leftBinary =>
      rw [printed, lexemes, hchild (by simp [children]), hchild (by simp [children])]
    | rightBinary =>
      rw [printed, lexemes, hchild (by simp [children]), hchild (by simp [children])]
    | ternary =>
      rw [printed, lexemes, hchild (by simp [children]), hchild (by simp [children]),
        hchild (by simp [children])]
    | parens => rw [printed, lexemes, hchild (by simp [children])]
    | @tuple args =>
      have hargs : printedArgs args = argLexemes args := printedArgs_eq fun a ha => hchild ha
      rw [printed, lexemes, hargs]
    | call =>
      rw [printed, lexemes, hchild (by simp [children]),
        printedArgs_eq fun a ha => hchild (List.mem_cons_of_mem _ ha)]
    | subscript =>
      rw [printed, lexemes, hchild (by simp [children]), hchild (by simp [children])]
    | launch =>
      rw [printed, lexemes, hchild (by simp [children]), hchild (by simp [children]),
        hchild (by simp [children])]

/-- No names are needed to print a plain tree. -/
theorem render_eq (h : t.Plain) (names : Names) : t.render names = t.render Names.initial := by
  induction t using inductionOn with
  | step t ih =>
    have hchild {c : Expr} (hc : c ∈ t.children) : c.render names = c.render Names.initial :=
      ih c hc (h.child hc)
    have hnormal := h.normal
    cases hnormal with
    | @atom a => exact (h.root.2 a rfl).render_eq names
    | prefixed => rw [render, render, hchild (by simp [children])]
    | sizeof =>
      obtain ⟨w, l', rfl⟩ := h.sizeof
      exact congrArg ("sizeof" ++ ·) (hchild List.mem_cons_self)
    | throw => rw [render, render, hchild (by simp [children])]
    | leftBinary =>
      rw [render, render, hchild (by simp [children]), hchild (by simp [children])]
    | rightBinary =>
      rw [render, render, hchild (by simp [children]), hchild (by simp [children])]
    | ternary hc hcheck =>
      have hedge := hc.rightEdge_le.trans hcheck
      rw [render_ternary hedge, render_ternary hedge, hchild (by simp [children]),
        hchild (by simp [children]), hchild (by simp [children])]
    | parens => rw [render, render, hchild (by simp [children])]
    | @tuple args =>
      have hargs : renderAll names args = renderAll Names.initial args :=
        renderAll_eq fun a ha => hchild ha
      rw [render, render, hargs]
    | call =>
      rw [render, render, hchild (by simp [children]),
        renderAll_eq fun a ha => hchild (List.mem_cons_of_mem _ ha)]
    | subscript =>
      rw [render, render, hchild (by simp [children]), hchild (by simp [children])]
    | launch =>
      rw [render, render, hchild (by simp [children]), hchild (by simp [children]),
        hchild (by simp [children])]

/-- The operands of a plain node stay apart from its operator. -/
theorem keepsApart (h : t.Plain) : t.keepsApart = true := by
  have hroot := h.root.1
  unfold Expr.keepsApart
  split
  · cases hroot
  · cases hroot
  · cases hroot
  · next a b l =>
    have hleft : a.NormalForm := h.normal.children a (by simp [children])
    simp [hleft.endsInType_eq_false]
  · rfl

/-- A plain tree is legible. -/
theorem legible (h : t.Plain) : t.Legible := by
  induction t using inductionOn with
  | step t ih =>
    refine legible_iff.mpr ⟨⟨?_, h.keepsApart⟩, fun c hc => ih c hc (h.child hc)⟩
    have hnormal := h.normal
    cases hnormal with
    | @atom a => exact (h.root.2 a rfl).legible
    | _ => trivial

end Plain

/-- **The text of a tree has the tokens of the tree.** Whatever the names are, the text of a normal
form of plain nodes and leaves is split into its tokens from left to right, with the readings of
symbols left open. -/
theorem tokenize_render {t : Expr} (h : t.NormalForm) (hnodes : ∀ n ∈ t.nodes, n.isPlain = true)
    (hleaves : ∀ a ∈ t.atoms, a.Plain) (names : Names) :
    ∃ ts, tokenize .none (t.render names) = .ok ts ∧ ts.map Token.lexeme = t.lexemes := by
  have ht : t.Plain := by
    refine ⟨h, fun n hn => ⟨hnodes n hn, fun a ha => hleaves a ?_⟩⟩
    exact List.mem_filterMap.mpr ⟨n, hn, ha⟩
  have hlexes := spelled h.grouped ht.legible [] [] (fun a _ => a.endsBefore_nil) lexes_nil
  rw [List.append_nil, List.append_nil, ht.printed_eq] at hlexes
  rw [ht.render_eq names]
  exact hlexes .start

/-- The tree of `throw k<<<1, p >> 2L>>>({0, 'c'}, - -p) ? & &p[!true] : sizeof(p) * *p`. -/
def thrownChoice : Expr :=
  let leaf (a : Atom) : Expr := atom a .none
  let k := leaf (.identifier "k")
  let p := leaf (.identifier "p")
  let launched := launch k (leaf (.value (.int 1)))
    (binary (.binary .shiftRight) p (leaf (.value (.long 2))) .none) .none
  throw
    (ternary
      (call launched
        [tuple [leaf (.value (.int 0)), leaf (.char "c")] .none,
          prefixed (.pre .negative) (prefixed (.pre .negative) p .none) .none]
        .none)
      (prefixed (.pre .addressOf) (prefixed (.pre .addressOf)
        (subscript p (prefixed (.pre .not) (leaf (.value (.bool true))) .none) .none) .none) .none)
      (binary (.binary .mul) (sizeof (parens p .none) .none)
        (prefixed (.pre .dereference) p .none) .none)
      .none)
    .none

/-- The tree needs no further brackets. -/
theorem normalForm_thrownChoice : thrownChoice.NormalForm := by
  refine .throw (.ternary ?_ (by decide) ?_ (by decide) ?_ (by decide)) (by decide)
  · refine .call (.launch (.atom rfl) rfl (.atom rfl) (by decide) ?_ (by decide)) rfl
      (forall_mem_pair.mpr ⟨?_, ?_⟩) (forall_mem_pair.mpr ⟨by decide, by decide⟩)
    · exact .leftBinary rfl (.atom rfl) (by decide) (.atom rfl) (by decide)
    · exact .tuple (forall_mem_pair.mpr ⟨.atom rfl, .atom rfl⟩)
        (forall_mem_pair.mpr ⟨by decide, by decide⟩)
    · exact .prefixed rfl (.prefixed rfl (.atom rfl) (by decide)) (by decide)
  · refine .prefixed rfl (.prefixed rfl (.subscript (.atom rfl) rfl ?_) (by decide)) (by decide)
    exact .prefixed rfl (.atom rfl) (by decide)
  · exact .leftBinary rfl (.sizeof (.parens (.atom rfl)) (by decide)) (by decide)
      (.prefixed rfl (.atom rfl) (by decide)) (by decide)

/-- All nodes of the tree are plain. -/
theorem isPlain_thrownChoice : ∀ n ∈ thrownChoice.nodes, n.isPlain = true := by
  have hall : thrownChoice.nodes.all isPlain = true := by cbv
  exact List.all_eq_true.mp hall

/-- All leaves of the tree are plain: their texts are read back. -/
theorem plain_thrownChoice : ∀ a ∈ thrownChoice.atoms, a.Plain := by
  have hatoms : thrownChoice.atoms = [.identifier "k", .value (.int 1), .identifier "p",
      .value (.long 2), .value (.int 0), .char "c", .identifier "p", .identifier "p",
      .value (.bool true), .identifier "p", .identifier "p"] := by
    cbv
  have hk : IsName "k" := ⟨by decide, by decide, by decide, by decide, by decide⟩
  have hp : IsName "p" := ⟨by decide, by decide, by decide, by decide, by decide⟩
  have hc : tokenize .none "'c'" = .ok [⟨.atom (.char "c"), ⟨1, 1⟩⟩] := by cbv
  rw [hatoms]
  intro a ha
  simp only [List.mem_cons, List.not_mem_nil, or_false] at ha
  rcases ha with rfl | rfl | rfl | rfl | rfl | rfl | rfl | rfl | rfl | rfl | rfl
  · exact .identifier hk
  · exact .int (by decide)
  · exact .identifier hp
  · exact .long (by decide)
  · exact .int (by decide)
  · exact .char ⟨_, _, hc, by simp⟩
  · exact .identifier hp
  · exact .identifier hp
  · exact .bool true
  · exact .identifier hp
  · exact .identifier hp

/-- Signs side by side keep a blank between them, and the closing bracket of a launch is not taken
for a shift. -/
theorem tokenize_render_thrownChoice :
    thrownChoice.render SymbolTable.initial.names
        = "throw k<<<1, p >> 2L>>>(\x7b0, 'c'\x7d, - -p) ? & &p[!true] : sizeof(p) * *p" ∧
      ∃ ts, tokenize .none (thrownChoice.render SymbolTable.initial.names) = .ok ts ∧
        ts.map Token.lexeme = thrownChoice.lexemes :=
  ⟨by decide, tokenize_render normalForm_thrownChoice isPlain_thrownChoice plain_thrownChoice _⟩

end Expr

end KernelTree
