import KernelTree.Proofs.Token.Lexes
import KernelTree.Proofs.Token.Numeral
import KernelTree.SymbolTable

/-!
# Words and types that are read as they are written

A word ends before what is no part of a word. A type takes along the stars behind it and the blanks
between them, so that no star may follow where it ends (`StarFree`).
-/

namespace KernelTree

/-- The names in a table where nothing is declared. -/
def Names.initial : Names := SymbolTable.initial.names

/-- A word that means nothing but a name. -/
structure IsName (name : String) : Prop where
  start : name.toList.head?.any Scan.isWordStart = true
  parts : name.toList.all Scan.isWordPart = true
  keyword : Operator.keywords.lookup name = none
  reserved : name ∉ ["true", "false", "const"]
  type : TypeId.builtin? name = none

/-- No star comes next that would belong to a type. -/
def StarFree (rest : List Char) : Prop :=
  ∃ gap, Scan.blanks rest = .ok ⟨(), gap⟩ ∧
    ∀ tail, rest.drop gap.length = '*' :: tail → tail.head? = some '='

namespace Scan

variable {rest : List Char}

/-! ### Words -/

/-- What begins a word begins nothing else. -/
theorem of_isWordStart {c : Char} (h : isWordStart c = true) :
    c.isDigit = false ∧ isBlank c = false ∧ c ∉ ['/', '"', '\'', '.', '*'] := by
  refine ⟨?_, ?_, ?_⟩
  · simp only [isWordStart, Char.isAlpha, Char.isUpper, Char.isLower, Bool.or_eq_true,
      Bool.and_eq_true, decide_eq_true_eq, UInt32.le_iff_toNat_le, ge_iff_le] at h
    rw [Bool.eq_false_iff]
    intro hc
    simp only [Char.isDigit, Bool.and_eq_true, decide_eq_true_eq, UInt32.le_iff_toNat_le,
      ge_iff_le] at hc
    have : '9'.val.toNat < 'A'.val.toNat := by decide
    have : 'A'.val.toNat < 'a'.val.toNat := by decide
    rcases h with (h | h) | rfl
    · omega
    · omega
    · revert hc
      decide
  · rw [Bool.eq_false_iff]
    intro hc
    simp only [isBlank, Bool.or_eq_true, decide_eq_true_eq] at hc
    rcases hc with ((rfl | rfl) | rfl) | rfl <;> revert h <;> decide
  · intro hc
    simp only [List.mem_cons, List.not_mem_nil, or_false] at hc
    rcases hc with rfl | rfl | rfl | rfl | rfl <;> revert h <;> decide

/-- A text that begins with a word is read as words are. -/
theorem takes_of_wordToken {x : Lexeme} {text gap : List Char}
    (hstart : text.head?.any isWordStart = true) (hgap : gap = [] ∨ blanks rest = .ok ⟨(), gap⟩)
    (h : wordToken .none (text ++ rest) = .ok ⟨x, text ++ gap⟩) : Takes x text rest := by
  cases text with
  | nil => cases hstart
  | cons c front =>
    obtain ⟨hdigit, hblank, hother⟩ := of_isWordStart hstart
    simp only [List.mem_cons, List.not_mem_nil, or_false, not_or] at hother
    obtain ⟨hslash, hstring, hchar, hpoint, -⟩ := hother
    refine ⟨by simp, blanks_bare hblank fun hc => absurd hc hslash, gap, hgap,
      fun c' tail heq => ?_⟩
    obtain ⟨rfl, rfl⟩ : c = c' ∧ front ++ rest = tail := by simpa using heq
    have hword : isWordStart c = true := hstart
    simp only [token, hstring, hchar, hdigit, hpoint, hword, if_false, if_true, Bool.false_or,
      decide_false, Bool.false_and, Bool.false_eq_true]
    exact h

/-- A word ends before what is no part of it. -/
theorem word_append {front : List Char} (hfront : front.all isWordPart = true)
    (hrest : ∀ c ∈ rest.head?, isWordPart c = false) : word (front ++ rest) = front :=
  takeWhile_append_all (List.all_eq_true.mp hfront) hrest

/-- A name is taken for itself where it ends. -/
theorem takes_name {name : String} (h : IsName name)
    (hrest : ∀ c ∈ rest.head?, isWordPart c = false) :
    Takes (.atom (.identifier name)) name.toList rest := by
  refine takes_of_wordToken h.start (.inl (Eq.refl [])) ?_
  have hreserved := h.reserved
  simp only [List.mem_cons, List.not_mem_nil, or_false, not_or] at hreserved
  obtain ⟨htrue, hfalse, hconst⟩ := hreserved
  simp only [wordToken, word_append h.parts hrest, String.ofList_toList, h.keyword, htrue, hfalse,
    hconst, if_false, typeNamed?, h.type, Naming.none, Option.map_none, Option.getD_none,
    List.append_nil]

/-- The words for the truth values are taken for them. -/
theorem takes_bool (b : Bool) (hrest : ∀ c ∈ rest.head?, isWordPart c = false) :
    Takes (.atom (.value (.bool b))) (Value.bool b).render.toList rest := by
  have hparts : (Value.bool b).render.toList.all isWordPart = true := by
    cases b <;> decide
  have hkeyword : Operator.keywords.lookup (Value.bool b).render = none := by
    cases b <;> decide
  refine takes_of_wordToken (by cases b <;> decide) (.inl (Eq.refl [])) ?_
  rw [wordToken, word_append hparts hrest, String.ofList_toList, hkeyword, List.append_nil]
  cases b <;> rfl

/-- Words that are operators are read as such. -/
theorem takes_keyword {op : Operator} (hop : (op.symbol, op) ∈ Operator.keywords)
    (hrest : ∀ c ∈ rest.head?, isWordPart c = false) :
    Takes (.op op) op.symbol.toList rest := by
  have hkeywords : ∀ k ∈ Operator.keywords, k.1.toList.head?.any isWordStart = true ∧
      k.1.toList.all isWordPart = true ∧ Operator.keywords.lookup k.1 = some k.2 := by
    decide
  obtain ⟨hstart, hparts, hlookup⟩ := hkeywords _ hop
  refine takes_of_wordToken hstart (.inl (Eq.refl [])) ?_
  simp only [wordToken, word_append hparts hrest, String.ofList_toList, hlookup, List.append_nil]

/-! ### Types -/

/-- A type ends where no star comes behind the blanks, or one that belongs to an assignment. -/
theorem pointers_stop {gap : List Char} (hgap : blanks rest = .ok ⟨(), gap⟩)
    (hstar : ∀ tail, rest.drop gap.length = '*' :: tail → tail.head? = some '=') :
    pointers rest = .ok ⟨0, gap⟩ := by
  rw [pointers, hgap]
  dsimp only
  split
  case h_1 tail htail => rw [if_pos (hstar tail htail)]
  case h_2 => rfl

/-- A star behind blanks is a pointer, and more may follow. -/
theorem pointers_gap_star {text : List Char} {gap : Scan Unit} (hgap : blanks text = .ok gap)
    (hrest : text.drop gap.taken.length = '*' :: rest) (h : rest.head? ≠ some '=') :
    pointers text = (pointers rest).after (gap.taken ++ ['*']) (· + 1) := by
  rw [pointers, hgap]
  dsimp only
  split
  case h_1 tail htail =>
    obtain rfl := (List.cons.inj (hrest.symm.trans htail)).2
    rw [if_neg h]
  case h_2 hno => exact absurd hrest (hno rest)

/-- A star right behind a type is a pointer. -/
theorem pointers_star (h : rest.head? ≠ some '=') :
    pointers ('*' :: rest) = (pointers rest).after ['*'] (· + 1) :=
  pointers_gap_star (blanks_bare (by decide) (by simp)) rfl h

/-- A type takes its own stars along, and the blanks behind them. -/
theorem pointers_stars {gap : List Char} (hgap : blanks rest = .ok ⟨(), gap⟩)
    (hstar : ∀ tail, rest.drop gap.length = '*' :: tail → tail.head? = some '=')
    (h : rest.head? ≠ some '=') (depth : Nat) :
    pointers (List.replicate depth '*' ++ rest)
      = .ok ⟨depth, List.replicate depth '*' ++ gap⟩ := by
  induction depth with
  | zero => exact pointers_stop hgap hstar
  | succ depth ih =>
    have hhead : (List.replicate depth '*' ++ rest).head? ≠ some '=' := by
      cases depth with
      | zero => exact h
      | succ depth => simp [List.replicate_succ]
    rw [List.replicate_succ, List.cons_append, pointers_star hhead, ih]
    rfl

/-- The words of the builtin types. -/
theorem builtin_words : ∀ i < builtinTypes.length,
    (Names.initial.type ⟨i⟩).toList.head?.any isWordStart = true ∧
      (Names.initial.type ⟨i⟩).toList.all isWordPart = true ∧
      Operator.keywords.lookup (Names.initial.type ⟨i⟩) = none ∧
      Names.initial.type ⟨i⟩ ∉ ["true", "false", "const"] ∧
      TypeId.builtin? (Names.initial.type ⟨i⟩) = some ⟨i⟩ := by
  decide

variable {base : TypeId} {depth : Nat}

/-- Before stars and what breaks a word, a word ends. -/
theorem head_stars (hrest : ∀ c ∈ rest.head?, isWordPart c = false) (depth : Nat) :
    ∀ c ∈ (List.replicate depth '*' ++ rest).head?, isWordPart c = false := by
  cases depth with
  | zero => exact hrest
  | succ depth =>
    intro c hc
    obtain rfl : '*' = c := by simpa [List.replicate_succ] using hc
    decide

/-- A type is taken with its stars, as a name alone or as a type with pointers. -/
theorem takes_type (h : base.index < builtinTypes.length)
    (hrest : ∀ c ∈ rest.head?, isWordPart c = false ∧ c ≠ '=') (hstar : StarFree rest) :
    Takes (.atom (if depth = 0 then .type base else .vartype ⟨base, false, depth⟩))
      ((Names.initial.type base).toList ++ List.replicate depth '*') rest := by
  obtain ⟨hstart, hparts, hkeyword, hreserved, htype⟩ := builtin_words base.index h
  simp only [List.mem_cons, List.not_mem_nil, or_false, not_or] at hreserved
  obtain ⟨htrue, hfalse, hconst⟩ := hreserved
  obtain ⟨gap, hgap, hno⟩ := hstar
  have hstars := pointers_stars hgap hno (fun heq => (hrest '=' heq).2 rfl) depth
  have hword := word_append hparts (head_stars (fun c hc => (hrest c hc).1) depth)
  refine takes_of_wordToken ?_ (.inr hgap) ?_
  · rw [List.head?_append]
    revert hstart
    cases (Names.initial.type ⟨base.index⟩).toList.head? <;> simp
  · simp only [List.append_assoc, wordToken, hword, String.ofList_toList, hkeyword, htrue, hfalse,
      hconst, if_false, typeNamed?, htype, typeToken, List.drop_left, hstars, Scanned.after]

/-- Behind `const`, a blank is skipped and a type is read. -/
theorem constToken_builtin {gap : List Char} (h : base.index < builtinTypes.length)
    (hrest : ∀ c ∈ rest.head?, isWordPart c = false ∧ c ≠ '=') (hgap : blanks rest = .ok ⟨(), gap⟩)
    (hstar : ∀ tail, rest.drop gap.length = '*' :: tail → tail.head? = some '=')
    (front : List Char) :
    constToken .none front
        (' ' :: ((Names.initial.type base).toList ++ (List.replicate depth '*' ++ rest)))
      = .ok ⟨.atom (.vartype ⟨base, true, depth⟩), front ++ [' '] ++
          (Names.initial.type base).toList ++ (List.replicate depth '*' ++ gap)⟩ := by
  obtain ⟨hstart, hparts, -, -, htype⟩ := builtin_words base.index h
  have hstars := pointers_stars hgap hstar (fun heq => (hrest '=' heq).2 rfl) depth
  have hword := word_append hparts (head_stars (fun c hc => (hrest c hc).1) depth)
  -- The blank behind `const` is all that is skipped, since the name begins no comment.
  obtain ⟨c, tail, hname⟩ : ∃ c tail, (Names.initial.type ⟨base.index⟩).toList = c :: tail := by
    cases hname : (Names.initial.type ⟨base.index⟩).toList with
    | nil => simp [hname] at hstart
    | cons c tail => exact ⟨c, tail, rfl⟩
  rw [hname] at hstart
  obtain ⟨-, hblank, hother⟩ := of_isWordStart hstart
  have hgap : blanks (' ' :: ((Names.initial.type ⟨base.index⟩).toList
      ++ (List.replicate depth '*' ++ rest))) = .ok ⟨(), [' ']⟩ := by
    rw [blanks_blank (by decide), hname, List.cons_append,
      blanks_bare hblank fun hc => absurd (by simp [hc]) hother]
    rfl
  have htypeWord : typeWord? .none ((Names.initial.type ⟨base.index⟩).toList
      ++ (List.replicate depth '*' ++ rest))
      = some ((Names.initial.type ⟨base.index⟩).toList, base) := by
    have hhead : ((Names.initial.type ⟨base.index⟩).toList
        ++ (List.replicate depth '*' ++ rest)).head?.any isWordStart = true := by
      rw [hname]
      exact hstart
    rw [typeWord?, if_pos hhead, hword, String.ofList_toList, typeNamed?, htype]
    rfl
  simp only [constToken, hgap, List.length_singleton, List.drop_succ_cons, List.drop_zero,
    htypeWord, List.drop_left, hstars, Scanned.after]

/-- A type that cannot be written to is taken with its word, its name and its stars. -/
theorem takes_const (h : base.index < builtinTypes.length)
    (hrest : ∀ c ∈ rest.head?, isWordPart c = false ∧ c ≠ '=') (hstar : StarFree rest) :
    Takes (.atom (.vartype ⟨base, true, depth⟩))
      ("const ".toList ++ (Names.initial.type base).toList ++ List.replicate depth '*') rest := by
  obtain ⟨gap, hgap, hno⟩ := hstar
  have htext : "const ".toList ++ (Names.initial.type base).toList ++ List.replicate depth '*'
      ++ rest = "const".toList ++
        ' ' :: ((Names.initial.type base).toList ++ (List.replicate depth '*' ++ rest)) := by
    rw [show "const ".toList = "const".toList ++ [' '] from by decide]
    simp only [List.append_assoc, List.cons_append, List.nil_append]
  have hword : word ("const".toList ++ ' ' :: ((Names.initial.type base).toList ++
      (List.replicate depth '*' ++ rest))) = "const".toList := by
    refine word_append (by decide) fun c hc => ?_
    obtain rfl : ' ' = c := by simpa using hc
    decide
  have hkeyword : Operator.keywords.lookup "const" = none := by decide
  refine takes_of_wordToken rfl (.inr hgap) ?_
  rw [htext, wordToken, hword, String.ofList_toList, hkeyword, List.drop_left]
  show constToken .none _ _ = _
  rw [constToken_builtin h hrest hgap hno]
  rw [show "const ".toList = "const".toList ++ [' '] from by decide]
  simp only [List.append_assoc]

end Scan

end KernelTree
