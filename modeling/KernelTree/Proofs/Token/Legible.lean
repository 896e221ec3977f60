import KernelTree.Proofs.Token.Word

/-!
# Leaves that are read as they are written

The text of a leaf is read as the leaf if it is a word of its own, a whole number that is not
negative, a text in quotes with its escapes or a builtin type (`Atom.Legible`). What stands behind
it must not run into it (`Atom.EndsBefore`): letters and digits go on with a word or a number, a
point with the digits of an `int`, and a star with a type.

All leaves that the scanner finds are of this sort, but for floating-point numbers
(`Scan.legible_token`): for these it is assumed that their texts read back. The texts of whole
numbers do (`whole_readsBack`).
-/

namespace KernelTree

/-- The text of the constant is a token, and it is read as the constant. -/
def Value.ReadsBack (v : Value) : Prop :=
  ∃ c tail, v.render.toList = c :: tail ∧
    Scan.token .none c tail = .ok ⟨.atom (.value v), c :: tail⟩

namespace Atom

/-- The leaves whose texts are read as they are. -/
inductive Legible : Atom → Prop
  | bool (b : Bool) : Legible (.value (.bool b))
  | int {n : Int32} (h : 0 ≤ n.toInt) : Legible (.value (.int n))
  | long {n : Int64} (h : 0 ≤ n.toInt) : Legible (.value (.long n))
  | real {v : Value} (hv : v.isReal = true) (h : v.ReadsBack) : Legible (.value v)
  | char {text : String} (hne : text.toList ≠ [])
      (h : Scan.quoted? '\'' (text.toList ++ ['\'']) = some text.toList) : Legible (.char text)
  | string {text : String} (h : Scan.quoted? '"' (text.toList ++ ['"']) = some text.toList) :
      Legible (.string text)
  | identifier {name : String} (h : IsName name) : Legible (.identifier name)
  | type {id : TypeId} (h : id.index < builtinTypes.length) : Legible (.type id)
  | vartype {t : Vartype} (h : t.base.index < builtinTypes.length)
      (h' : t.isConst = true ∨ t.pointerDepth ≠ 0) : Legible (.vartype t)

/-- Whether the leaf is a floating-point number. -/
def isReal : Atom → Bool
  | .value v => v.isReal
  | _ => false

/-- The leaf is a floating-point number that a literal stands for. -/
def IsRealLiteral (a : Atom) : Prop :=
  ∃ v text, a = .value v ∧ v.isReal = true ∧ Value.ofLiteral? (Scan.number text) = some v

/-- A literal for a floating-point number is one. -/
theorem IsRealLiteral.isReal {a : Atom} (h : a.IsRealLiteral) : a.isReal = true := by
  obtain ⟨v, text, rfl, hv, -⟩ := h
  exact hv

/-- Whether the leaf is a number. -/
def isNumber : Atom → Bool
  | .value (.int _) => true
  | .value (.long _) => true
  | .value (.float _) => true
  | .value (.double _) => true
  | _ => false

/-- Whether the leaf is a whole number that is written with digits alone. -/
def isInt : Atom → Bool
  | .value (.int _) => true
  | _ => false

end Atom

/-- The leaf that stands for a type is written like the type. -/
theorem Vartype.render_atom (names : Names) (t : Vartype) :
    t.atom.render names = names.vartype t := by
  obtain ⟨base, isConst, depth⟩ := t
  by_cases h : isConst = false ∧ depth = 0
  · obtain ⟨rfl, rfl⟩ := h
    simp [Vartype.atom, Atom.render, Names.vartype]
  · rw [Vartype.atom, if_neg h]
    rfl

/-- The type that a legible leaf names is legible. -/
theorem Atom.Legible.vartype? {a : Atom} (h : a.Legible) {t : Vartype} (ht : a.vartype? = some t) :
    t.atom.Legible := by
  have hbase : t.base.index < builtinTypes.length := by
    cases h with
    | type h =>
      obtain rfl := Option.some.inj ht
      exact h
    | vartype h =>
      obtain rfl := Option.some.inj ht
      exact h
    | _ => cases ht
  rw [Vartype.atom]
  by_cases hplain : t.isConst = false ∧ t.pointerDepth = 0
  · rw [if_pos hplain]
    exact .type hbase
  · rw [if_neg hplain]
    refine .vartype hbase ?_
    cases hconst : t.isConst with
    | true => exact .inl rfl
    | false => exact .inr fun hdepth => hplain ⟨hconst, hdepth⟩

/-- What stands behind the leaf does not run into it. -/
structure Atom.EndsBefore (a : Atom) (rest : List Char) : Prop where
  breaks : ∀ c ∈ rest.head?, Scan.isWordPart c = false ∧ c ≠ '='
  int : a.isInt = true → rest.head? ≠ some '.'
  type : a.vartype? ≠ none → StarFree rest

namespace Scan

variable {rest : List Char}

/-! ### Quoted texts -/

variable {quote : Char} {text inner : List Char}

/-- The closing quote ends the text. -/
theorem quoted?_quote (quote : Char) (text : List Char) :
    quoted? quote (quote :: text) = some [] := by
  cases text <;> simp [quoted?]

/-- A backslash takes the character behind it along. -/
theorem quoted?_escaped (hquote : '\\' ≠ quote) (c : Char) (text : List Char) :
    quoted? quote ('\\' :: c :: text) = (quoted? quote text).map ('\\' :: c :: ·) := by
  simp [quoted?, hquote]

/-- Any other character belongs to the text, unless it breaks the line. -/
theorem quoted?_other {c : Char} (hquote : c ≠ quote) (hline : c ≠ '\n') (hescape : c ≠ '\\')
    (text : List Char) : quoted? quote (c :: text) = (quoted? quote text).map (c :: ·) := by
  cases text <;> simp [quoted?, hquote, hline, hescape]

/-- Induction along the characters in front of the closing quote: there may be none, a backslash
takes the character behind it along, and any other character but a line break stands for itself. -/
@[elab_as_elim]
theorem quoted?_induction {motive : List Char → List Char → Prop}
    (closing : ∀ text, motive (quote :: text) [])
    (escaped : ∀ c text inner, '\\' ≠ quote → motive text inner →
      motive ('\\' :: c :: text) ('\\' :: c :: inner))
    (other : ∀ c text inner, c ≠ quote → c ≠ '\n' → c ≠ '\\' → motive text inner →
      motive (c :: text) (c :: inner))
    (h : quoted? quote text = some inner) : motive text inner := by
  refine quoted?.induct quote
    (fun text => ∀ inner, quoted? quote text = some inner → motive text inner)
    ?ended ?closing ?broken ?lone ?escaped ?other text inner h
  case ended =>
    intro inner h
    cases h
  case closing =>
    intro text inner h
    obtain rfl := Option.some.inj ((quoted?_quote quote text).symm.trans h)
    exact closing text
  case broken =>
    intro text hquote inner h
    cases text <;> simp [quoted?, hquote] at h
  case lone =>
    intro hquote _ inner h
    simp [quoted?, hquote] at h
  case escaped =>
    intro c text hquote _ ih inner h
    rw [quoted?_escaped hquote] at h
    obtain ⟨inner', hinner, rfl⟩ := Option.map_eq_some_iff.mp h
    exact escaped c text inner' hquote (ih inner' hinner)
  case other =>
    intro c text hquote hline hescape ih inner h
    rw [quoted?_other hquote hline hescape] at h
    obtain ⟨inner', hinner, rfl⟩ := Option.map_eq_some_iff.mp h
    exact other c text inner' hquote hline hescape (ih inner' hinner)

/-- What stands behind the closing quote does not matter. -/
theorem quoted?_append (h : quoted? quote text = some inner) (rest : List Char) :
    quoted? quote (text ++ rest) = some inner := by
  refine quoted?_induction ?closing ?escaped ?other h
  case closing => exact fun text => quoted?_quote quote (text ++ rest)
  case escaped =>
    intro c text inner hquote ih
    rw [List.cons_append, List.cons_append, quoted?_escaped hquote, ih]
    rfl
  case other =>
    intro c text inner hquote hline hescape ih
    rw [List.cons_append, quoted?_other hquote hline hescape, ih]
    rfl

/-- What was found before the closing quote is found again. -/
theorem quoted?_inner (h : quoted? quote text = some inner) :
    quoted? quote (inner ++ [quote]) = some inner := by
  refine quoted?_induction ?closing ?escaped ?other h
  case closing => exact fun _ => quoted?_quote quote []
  case escaped =>
    intro c text inner hquote ih
    rw [List.cons_append, List.cons_append, quoted?_escaped hquote, ih]
    rfl
  case other =>
    intro c text inner hquote hline hescape ih
    rw [List.cons_append, quoted?_other hquote hline hescape, ih]
    rfl

/-- A text in quotes is taken for itself, whatever comes next. -/
theorem takes_string {text : String}
    (h : quoted? '"' (text.toList ++ ['"']) = some text.toList) :
    Takes (.atom (.string text)) ('"' :: text.toList ++ ['"']) rest := by
  refine ⟨by simp, blanks_bare (by decide) (by simp), [], .inl rfl, fun c tail heq => ?_⟩
  obtain ⟨rfl, rfl⟩ : '"' = c ∧ text.toList ++ ['"'] ++ rest = tail := by
    simpa only [List.cons_append, List.cons.injEq] using heq
  rw [token, if_pos rfl, stringToken, quoted?_append h rest]
  simp

/-- A character in quotes is taken for itself, whatever comes next. -/
theorem takes_char {text : String} (hne : text.toList ≠ [])
    (h : quoted? '\'' (text.toList ++ ['\'']) = some text.toList) :
    Takes (.atom (.char text)) ('\'' :: text.toList ++ ['\'']) rest := by
  refine ⟨by simp, blanks_bare (by decide) (by simp), [], .inl rfl, fun c tail heq => ?_⟩
  obtain ⟨rfl, rfl⟩ : '\'' = c ∧ text.toList ++ ['\''] ++ rest = tail := by
    simpa only [List.cons_append, List.cons.injEq] using heq
  rw [token, if_neg (by decide), if_pos rfl, charToken, quoted?_append h rest]
  have hback : String.ofList text.toList = text := String.ofList_toList
  generalize text.toList = inner at hne hback
  cases inner with
  | nil => exact absurd rfl hne
  | cons d front => simp [hback]

/-! ### Numbers -/

/-- A number begins with a digit, or with a point and a digit behind it. -/
def StartsNumber (c : Char) (front : List Char) : Bool :=
  c.isDigit || (c = '.' && front.head?.any Char.isDigit)

/-- What begins a number begins nothing else. -/
theorem of_startsNumber {c : Char} {front : List Char} (h : StartsNumber c front = true) :
    isBlank c = false ∧ c ∉ ['/', '"', '\''] := by
  have hc : c.isDigit = true ∨ c = '.' := by
    simp only [StartsNumber, Bool.or_eq_true, Bool.and_eq_true, decide_eq_true_eq] at h
    rcases h with h | ⟨h, -⟩
    · exact .inl h
    · exact .inr h
  constructor
  · rw [Bool.eq_false_iff]
    intro hb
    simp only [isBlank, Bool.or_eq_true, decide_eq_true_eq] at hb
    rcases hb with ((rfl | rfl) | rfl) | rfl <;> revert hc <;> decide
  · intro hmem
    simp only [List.mem_cons, List.not_mem_nil, or_false] at hmem
    rcases hmem with rfl | rfl | rfl <;> revert hc <;> decide

/-- A text that begins with a number is read as one. -/
theorem token_number {names : Naming} {c : Char} {front : List Char}
    (h : StartsNumber c front = true) : token names c front = numberToken (c :: front) := by
  obtain ⟨-, hother⟩ := of_startsNumber h
  simp only [List.mem_cons, List.not_mem_nil, or_false, not_or] at hother
  obtain ⟨-, hstring, hchar⟩ := hother
  rw [token, if_neg hstring, if_neg hchar]
  exact if_pos h

/-- A numeral is taken for the number that it is read as, if letters and digits do not go on with
it, nor a point with its digits. -/
theorem takes_number {v : Value} {c : Char} {front : List Char}
    (hstart : StartsNumber c front = true) (hnumber : number (c :: front) = c :: front)
    (hvalue : Value.ofLiteral? (c :: front) = some v)
    (hrest : ∀ d ∈ rest.head?, isWordPart d = false)
    (hdot : (∀ d ∈ c :: front, d.isDigit = true) → rest.head? ≠ some '.') :
    Takes (.atom (.value v)) (c :: front) rest := by
  obtain ⟨hblank, hother⟩ := of_startsNumber hstart
  simp only [List.mem_cons, List.not_mem_nil, or_false, not_or] at hother
  refine ⟨by simp, blanks_bare hblank fun hc => absurd hc hother.1, [], .inl rfl,
    fun c' tail heq => ?_⟩
  obtain ⟨rfl, rfl⟩ : c = c' ∧ front ++ rest = tail := by simpa using heq
  -- A lone digit begins a number by itself; a point needs the digit that is already behind it.
  have hstart' : StartsNumber c (front ++ rest) = true := by
    cases front with
    | nil =>
      have hdigit : c.isDigit = true := by simpa [StartsNumber] using hstart
      simp [StartsNumber, hdigit]
    | cons d front => exact hstart
  rw [token_number hstart', ← List.cons_append, numberToken, number_append hnumber hrest hdot,
    hvalue, List.append_nil]

/-- The text of a whole number that is not negative is a numeral to its end. -/
theorem numeral_of_isNatural {v : Value} (h : v.IsNatural) :
    ∃ c front, v.render.toList = c :: front ∧ StartsNumber c front = true ∧
      number (c :: front) = c :: front ∧ Value.ofLiteral? (c :: front) = some v := by
  obtain ⟨m, marks, htext, hmarks, hvalue⟩ : ∃ m marks,
      v.render.toList = Nat.toDigits 10 m ++ marks ∧ (∀ c ∈ marks, isSuffix c = true) ∧
        Value.ofLiteral? v.render.toList = some v := by
    have hdigits {i : Int} (hi : 0 ≤ i) : (toString i).toList = Nat.toDigits 10 i.natAbs := by
      rw [Value.toString_toList, if_neg (Int.not_lt.mpr hi), List.nil_append]
    rcases h with ⟨n, rfl, hn⟩ | ⟨n, rfl, hn⟩
    · exact ⟨_, [], by rw [List.append_nil, ← hdigits hn, Value.render], by simp,
        Value.ofLiteral?_int n⟩
    · exact ⟨_, ['L'], by rw [Value.render_long, hdigits hn], by simp [isSuffix],
        Value.ofLiteral?_long n⟩
  have hdigits : ∀ c ∈ Nat.toDigits 10 m, c.isDigit = true :=
    fun c hc => Nat.isDigit_of_mem_toDigits (by decide) (by decide) hc
  have hnumber := number_whole hdigits hmarks
  obtain ⟨c, front, hcons⟩ := List.exists_cons_of_ne_nil (Nat.toDigits_ne_nil (b := 10) (n := m))
  rw [htext, hcons] at hvalue
  rw [hcons] at htext hdigits hnumber
  exact ⟨c, front ++ marks, htext, by simp [StartsNumber, hdigits c (by simp)], hnumber, hvalue⟩

/-- A number of 32 bits is taken for itself, but a point must not go on with it. -/
theorem takes_int {n : Int32} (h : 0 ≤ n.toInt) (hrest : ∀ d ∈ rest.head?, isWordPart d = false)
    (hdot : rest.head? ≠ some '.') :
    Takes (.atom (.value (.int n))) (Value.int n).render.toList rest := by
  obtain ⟨c, front, htext, hstart, hnumber, hvalue⟩ := numeral_of_isNatural (.inl ⟨n, rfl, h⟩)
  rw [htext]
  exact takes_number hstart hnumber hvalue hrest fun _ => hdot

/-- A number of 64 bits is taken for itself; its mark keeps a point away. -/
theorem takes_long {n : Int64} (h : 0 ≤ n.toInt)
    (hrest : ∀ d ∈ rest.head?, isWordPart d = false) :
    Takes (.atom (.value (.long n))) (Value.long n).render.toList rest := by
  obtain ⟨c, front, htext, hstart, hnumber, hvalue⟩ := numeral_of_isNatural (.inr ⟨n, rfl, h⟩)
  rw [htext]
  refine takes_number hstart hnumber hvalue hrest fun hdigits => ?_
  -- The mark of a long is no digit.
  have hmark : 'L' ∈ c :: front := by
    rw [← htext, Value.render_long]
    exact List.mem_append_right _ (List.mem_singleton.mpr rfl)
  cases hdigits _ hmark

/-! ### What the scanners find -/

section

variable {names : Naming} {rest text front : List Char} {s : Scan Lexeme}

/-- A text in quotes is closed by its quote. -/
theorem stringToken_ok (h : stringToken rest = .ok s) : ∃ inner, quoted? '"' rest = some inner ∧
    s = ⟨.atom (.string (String.ofList inner)), '"' :: inner ++ ['"']⟩ := by
  unfold stringToken at h
  cases hinner : quoted? '"' rest with
  | none =>
    rw [hinner] at h
    cases h
  | some inner =>
    rw [hinner] at h
    exact ⟨inner, rfl, (Except.ok.inj h).symm⟩

/-- A character in quotes is closed by its quote, and there is something between the two. -/
theorem charToken_ok (h : charToken rest = .ok s) :
    ∃ inner, inner ≠ [] ∧ quoted? '\'' rest = some inner ∧
      s = ⟨.atom (.char (String.ofList inner)), '\'' :: inner ++ ['\'']⟩ := by
  unfold charToken at h
  rcases hinner : quoted? '\'' rest with _ | _ | ⟨c, inner⟩ <;> rw [hinner] at h
  · cases h
  · cases h
  · exact ⟨c :: inner, List.cons_ne_nil c inner, rfl, (Except.ok.inj h).symm⟩

/-- A number is a numeral that stands for a value. -/
theorem numberToken_ok (h : numberToken text = .ok s) :
    ∃ v, Value.ofLiteral? (number text) = some v ∧ s = ⟨.atom (.value v), number text⟩ := by
  unfold numberToken at h
  dsimp only at h
  cases hv : Value.ofLiteral? (number text) with
  | none =>
    rw [hv] at h
    cases h
  | some v =>
    rw [hv] at h
    exact ⟨v, rfl, (Except.ok.inj h).symm⟩

/-- A word that names a type begins like a word. -/
theorem typeWord?_eq_some {name : List Char} {base : TypeId}
    (h : typeWord? names text = some (name, base)) : text.head?.any isWordStart = true ∧
      name = word text ∧ typeNamed? names (String.ofList (word text)) = some base := by
  unfold typeWord? at h
  split at h
  case isFalse => cases h
  case isTrue hstart =>
    obtain ⟨id, hid, heq⟩ := Option.map_eq_some_iff.mp h
    obtain ⟨rfl, rfl⟩ := Prod.mk.inj heq
    exact ⟨hstart, rfl, hid⟩

/-- Behind `const` stand blanks, the name of a type and its pointers. -/
theorem constToken_ok (h : constToken names front rest = .ok s) :
    ∃ gap name base depth, blanks rest = .ok gap ∧
      typeWord? names (rest.drop gap.taken.length) = some (name, base) ∧
      pointers ((rest.drop gap.taken.length).drop name.length) = .ok depth ∧
      s.value = .atom (.vartype ⟨base, true, depth.value⟩) ∧
      s.taken = front ++ gap.taken ++ name ++ depth.taken := by
  unfold constToken at h
  cases hgap : blanks rest with
  | error e =>
    rw [hgap] at h
    cases h
  | ok gap =>
    rw [hgap] at h
    dsimp only at h
    cases hname : typeWord? names (rest.drop gap.taken.length) with
    | none =>
      rw [hname] at h
      cases h
    | some type =>
      rw [hname] at h
      obtain ⟨depth, hdepth, hvalue, htaken⟩ := Scanned.after_ok h
      exact ⟨gap, type.1, type.2, depth, rfl, hname, hdepth, hvalue, htaken⟩

/-- A symbol is found in the table. -/
theorem symbolToken_ok {c : Char} (h : symbolToken c rest = .ok s) :
    ∃ symbol op, Operator.symbols.find? (fun t => t.1.toList.isPrefixOf (c :: rest))
        = some (symbol, op) ∧ s = ⟨.op op, symbol.toList⟩ := by
  unfold symbolToken at h
  cases hfind : Operator.symbols.find? (fun t => t.1.toList.isPrefixOf (c :: rest)) with
  | none =>
    rw [hfind] at h
    cases h
  | some found =>
    rw [hfind] at h
    exact ⟨found.1, found.2, rfl, (Except.ok.inj h).symm⟩

end

/-! ### Leaves that were scanned -/

/-- The index of a builtin type is among the builtin types. -/
theorem builtin?_index {name : String} {id : TypeId} (h : TypeId.builtin? name = some id) :
    id.index < builtinTypes.length := by
  obtain ⟨i, hi, rfl⟩ := Option.map_eq_some_iff.mp h
  exact (List.findIdx?_eq_some_iff_findIdx_eq.mp hi).1

/-- Where names mean nothing, only the builtin types are types. -/
theorem typeNamed?_none (name : String) : typeNamed? .none name = TypeId.builtin? name := by
  unfold typeNamed?
  split <;> simp_all [Naming.none]

/-- A `const` becomes a leaf for a type that is a builtin one and cannot be written to. -/
theorem constToken_atom {front text taken : List Char} {a : Atom}
    (h : constToken .none front text = .ok ⟨.atom a, taken⟩) :
    ∃ base depth, a = .vartype ⟨base, true, depth⟩ ∧ base.index < builtinTypes.length := by
  obtain ⟨gap, name, base, depth, -, hname, -, hvalue, -⟩ := constToken_ok h
  obtain ⟨-, -, htype⟩ := typeWord?_eq_some hname
  rw [typeNamed?_none] at htype
  exact ⟨base, depth.value, by simpa using hvalue, builtin?_index htype⟩

/-- What begins a word may also go on with one. -/
theorem isWordPart_of_start {c : Char} (h : isWordStart c = true) : isWordPart c = true := by
  simp only [isWordStart, Bool.or_eq_true] at h
  simp only [isWordPart, Char.isAlphanum, Bool.or_eq_true]
  rcases h with h | h
  · exact .inl (.inl h)
  · exact .inr h

/-- A word becomes a leaf that is read back, and no floating-point number. -/
theorem wordToken_atom {text taken : List Char} {a : Atom}
    (h : wordToken .none text = .ok ⟨.atom a, taken⟩)
    (hstart : text.head?.any isWordStart = true) :
    a.Legible ∧ a.isReal = false := by
  unfold wordToken at h
  dsimp only at h
  split at h
  case h_1 => cases h
  case h_2 hkeyword =>
    by_cases htrue : String.ofList (word text) = "true"
    · rw [if_pos htrue] at h
      obtain ⟨⟨rfl⟩, -⟩ : Lexeme.atom (.value (.bool true)) = .atom a ∧ _ := by simpa using h
      exact ⟨.bool true, rfl⟩
    rw [if_neg htrue] at h
    by_cases hfalse : String.ofList (word text) = "false"
    · rw [if_pos hfalse] at h
      obtain ⟨⟨rfl⟩, -⟩ : Lexeme.atom (.value (.bool false)) = .atom a ∧ _ := by simpa using h
      exact ⟨.bool false, rfl⟩
    rw [if_neg hfalse] at h
    by_cases hconst : String.ofList (word text) = "const"
    · rw [if_pos hconst] at h
      obtain ⟨base, depth, rfl, hbase⟩ := constToken_atom h
      exact ⟨.vartype hbase (.inl rfl), rfl⟩
    -- No word is reserved any more: it names a built-in type, or it is an identifier.
    rw [if_neg hconst, typeNamed?_none] at h
    cases htype : TypeId.builtin? (String.ofList (word text)) with
    | some base =>
      rw [htype] at h
      obtain ⟨depth, -, hvalue, -⟩ := Scanned.after_ok h
      obtain rfl : a =
          if depth.value = 0 then .type base else .vartype ⟨base, false, depth.value⟩ := by
        simpa using hvalue
      have hbase := builtin?_index htype
      by_cases hdepth : depth.value = 0
      · rw [if_pos hdepth]
        exact ⟨.type hbase, rfl⟩
      · rw [if_neg hdepth]
        exact ⟨.vartype hbase (.inr hdepth), rfl⟩
    | none =>
      rw [htype] at h
      obtain ⟨⟨rfl⟩, -⟩ : Lexeme.atom (.identifier (String.ofList (word text))) = .atom a ∧ _ := by
        simpa [Naming.none] using h
      refine ⟨.identifier ?_, rfl⟩
      refine ⟨?_, ?_, hkeyword, by simp [htrue, hfalse, hconst], htype⟩
      · cases text with
        | nil => cases hstart
        | cons c tail =>
          have hc : isWordStart c = true := hstart
          simp [word, isWordPart_of_start hc, hc]
      · rw [String.toList_ofList]
        exact List.all_takeWhile

/-- No symbol is a leaf. -/
theorem symbolToken_op {c : Char} {tail taken : List Char} {x : Lexeme}
    (h : symbolToken c tail = .ok ⟨x, taken⟩) : ∃ op, x = .op op := by
  obtain ⟨symbol, op, -, hs⟩ := symbolToken_ok h
  exact ⟨op, (Scan.mk.inj hs).1⟩

/-- A leaf is a quoted text, a number or a word. -/
theorem token_atom {c : Char} {tail taken : List Char} {a : Atom}
    (h : token .none c tail = .ok ⟨.atom a, taken⟩) :
    (c = '"' ∧ stringToken tail = .ok ⟨.atom a, taken⟩) ∨
      (c = '\'' ∧ charToken tail = .ok ⟨.atom a, taken⟩) ∨
      (StartsNumber c tail = true ∧ numberToken (c :: tail) = .ok ⟨.atom a, taken⟩) ∨
      (isWordStart c = true ∧ wordToken .none (c :: tail) = .ok ⟨.atom a, taken⟩) := by
  unfold token at h
  change (if c = '"' then stringToken tail else if c = '\'' then charToken tail
    else if StartsNumber c tail = true then numberToken (c :: tail)
    else if isWordStart c = true then wordToken .none (c :: tail) else symbolToken c tail) = _ at h
  by_cases hstring : c = '"'
  · rw [if_pos hstring] at h
    exact .inl ⟨hstring, h⟩
  rw [if_neg hstring] at h
  by_cases hchar : c = '\''
  · rw [if_pos hchar] at h
    exact .inr (.inl ⟨hchar, h⟩)
  rw [if_neg hchar] at h
  by_cases hnumber : StartsNumber c tail = true
  · rw [if_pos hnumber] at h
    exact .inr (.inr (.inl ⟨hnumber, h⟩))
  rw [if_neg hnumber] at h
  by_cases hword : isWordStart c = true
  · rw [if_pos hword] at h
    exact .inr (.inr (.inr ⟨hword, h⟩))
  rw [if_neg hword] at h
  obtain ⟨op, hop⟩ := symbolToken_op h
  cases hop

/-- A text in quotes becomes a leaf that is read back. -/
theorem stringToken_atom {tail taken : List Char} {a : Atom}
    (h : stringToken tail = .ok ⟨.atom a, taken⟩) :
    a.Legible ∧ a.isReal = false := by
  obtain ⟨inner, hinner, hs⟩ := stringToken_ok h
  obtain ⟨rfl, -⟩ : a = .string (String.ofList inner) ∧ _ := by simpa using hs
  refine ⟨.string ?_, rfl⟩
  rw [String.toList_ofList]
  exact quoted?_inner hinner

/-- A character in quotes becomes a leaf that is read back. -/
theorem charToken_atom {tail taken : List Char} {a : Atom}
    (h : charToken tail = .ok ⟨.atom a, taken⟩) :
    a.Legible ∧ a.isReal = false := by
  obtain ⟨inner, hne, hinner, hs⟩ := charToken_ok h
  obtain ⟨rfl, -⟩ : a = .char (String.ofList inner) ∧ _ := by simpa using hs
  refine ⟨.char ?_ ?_, rfl⟩
  · rw [String.toList_ofList]
    exact hne
  · rw [String.toList_ofList]
    exact quoted?_inner hinner

/-- A number becomes the leaf of its value. -/
theorem numberToken_atom {text taken : List Char} {a : Atom}
    (h : numberToken text = .ok ⟨.atom a, taken⟩) :
    ∃ v, a = .value v ∧ taken = number text ∧ Value.ofLiteral? (number text) = some v := by
  obtain ⟨v, hv, hs⟩ := numberToken_ok h
  obtain ⟨rfl, rfl⟩ : a = .value v ∧ taken = number text := by simpa using hs
  exact ⟨v, rfl, rfl, hv⟩

/-- Every leaf that is found is read back, or it is a floating-point number. -/
theorem legible_token {c : Char} {tail taken : List Char} {a : Atom}
    (h : token .none c tail = .ok ⟨.atom a, taken⟩) : a.Legible ∨ a.IsRealLiteral := by
  rcases token_atom h with ⟨-, h⟩ | ⟨-, h⟩ | ⟨-, h⟩ | ⟨hstart, h⟩
  · exact .inl (stringToken_atom h).1
  · exact .inl (charToken_atom h).1
  · obtain ⟨v, rfl, -, hv⟩ := numberToken_atom h
    rcases Value.ofLiteral?_number hv with (⟨n, rfl, hn⟩ | ⟨n, rfl, hn⟩) | hreal
    · exact .inl (.int hn)
    · exact .inl (.long hn)
    · exact .inr ⟨v, _, rfl, hreal, hv⟩
  · exact .inl (wordToken_atom h hstart).1

/-! ### Leaves that are taken -/

/-- A floating-point number is taken for itself where its text reads back. -/
theorem takes_real {v : Value} (hv : v.isReal = true) (h : v.ReadsBack)
    (hrest : ∀ d ∈ rest.head?, isWordPart d = false) :
    Takes (.atom (.value v)) v.render.toList rest := by
  obtain ⟨c, tail, htext, htoken⟩ := h
  rw [htext]
  rcases token_atom htoken with ⟨-, h⟩ | ⟨-, h⟩ | ⟨hstart, h⟩ | ⟨hstart, h⟩
  · cases hv.symm.trans (stringToken_atom h).2
  · cases hv.symm.trans (charToken_atom h).2
  · obtain ⟨v', hv', htaken, hvalue⟩ := numberToken_atom h
    obtain rfl := Atom.value.inj hv'
    rw [← htaken] at hvalue
    refine takes_number hstart htaken.symm hvalue hrest fun hdigits => ?_
    -- Digits alone are a whole number.
    have hwhole := Value.ofLiteral?_signed (fun c hc => .inl (hdigits c hc)) false
    simp only [Bool.false_eq_true, if_false, List.append_nil] at hwhole
    have hminus : '-' ∉ c :: tail := fun hc => by cases hdigits _ hc
    rcases Value.whole?_isNatural hminus (hwhole ▸ hvalue) with ⟨n, rfl, -⟩ | ⟨n, rfl, -⟩ <;>
      cases hv
  · cases hv.symm.trans (wordToken_atom h hstart).2

/-- A type is taken for the leaf that stands for it. -/
theorem takes_vartype {t : Vartype} (ht : t.base.index < builtinTypes.length)
    (hrest : ∀ c ∈ rest.head?, isWordPart c = false ∧ c ≠ '=') (hstar : StarFree rest) :
    Takes (.atom t.atom) (Names.initial.vartype t).toList rest := by
  obtain ⟨base, isConst, depth⟩ := t
  have htext : (Names.initial.vartype ⟨base, isConst, depth⟩).toList
      = (if isConst then "const ".toList else []) ++ (Names.initial.type base).toList
        ++ List.replicate depth '*' := by
    rw [Names.vartype, String.toList_append, String.toList_append, String.toList_ofList]
    cases isConst <;> rfl
  rw [htext]
  cases isConst with
  | true => exact takes_const ht hrest hstar
  | false => simpa [Vartype.atom] using @takes_type rest base depth ht hrest hstar

/-- The text of a legible leaf is taken for the leaf where it ends. -/
theorem takes_atom {a : Atom} (ha : a.Legible) (hrest : a.EndsBefore rest) :
    Takes (.atom a) (a.render Names.initial).toList rest := by
  have hbreaks : ∀ c ∈ rest.head?, isWordPart c = false := fun c hc => (hrest.breaks c hc).1
  cases ha with
  | bool b => exact takes_bool b hbreaks
  | int h => exact takes_int h hbreaks (hrest.int rfl)
  | long h => exact takes_long h hbreaks
  | real hv h => exact takes_real hv h hbreaks
  | char hne h => simpa [Atom.render] using takes_char hne h
  | string h => simpa [Atom.render] using takes_string h
  | identifier h => exact takes_name h hbreaks
  | @type id h =>
    have htake := takes_vartype (show (Vartype.plain id).base.index < _ from h) hrest.breaks
      (hrest.type (by simp [Atom.vartype?]))
    rw [← Vartype.render_atom] at htake
    exact htake
  | @vartype t h h' =>
    have hatom : t.atom = .vartype t := by
      rw [Vartype.atom, if_neg]
      rintro ⟨hconst, hdepth⟩
      simp [hconst, hdepth] at h'
    have htake := takes_vartype h hrest.breaks (hrest.type (by simp [Atom.vartype?]))
    rw [hatom] at htake
    exact htake

end Scan

/-- Every leaf among the tokens of a text is read back, or it is a floating-point number. -/
theorem legible_tokensAt {start : Location} {text : List Char} {ts : List Token}
    (h : tokensAt .none start text = .ok ts) :
    ∀ a, .atom a ∈ ts.map Token.lexeme → a.Legible ∨ a.IsRealLiteral := by
  intro a ha
  replace h := tokensAt_ok h
  induction h with
  | nil => cases ha
  | @cons _ _ _ c rest s _ _ _ ht _ ih =>
    rw [List.map_cons] at ha
    rcases List.mem_cons.mp ha with ha | ha
    · have hatom : Scan.token .none c rest = .ok ⟨.atom a, s.taken⟩ := by rw [ht, ha]
      exact Scan.legible_token hatom
    · exact ih ha

/-! ### What stands around a leaf -/

section

variable {a : Atom} {rest : List Char}

/-- At the end of a text there is no star. -/
theorem StarFree.nil : StarFree [] := ⟨[], Scan.blanks_nil, by simp⟩

/-- A blank does not hide a star, and makes none. -/
theorem StarFree.blank (h : StarFree rest) : StarFree (' ' :: rest) := by
  obtain ⟨gap, hgap, hstar⟩ := h
  refine ⟨' ' :: gap, ?_, hstar⟩
  rw [Scan.blanks_blank (by decide), hgap]
  rfl

/-- A star that belongs to a longer symbol is left alone. -/
theorem StarFree.symbol {op : Operator} (hop : (op.symbol, op) ∈ Operator.symbols)
    (h : Scan.Takes (.op op) op.symbol.toList rest) (hne : op ≠ .unresolved .asterisk) :
    StarFree (op.symbol.toList ++ rest) := by
  refine ⟨[], h.bare, fun tail heq => ?_⟩
  have hsymbols : ∀ s ∈ Operator.symbols, s.2 ≠ .unresolved .asterisk →
      s.1.toList.head? = some '*' → s.1.toList.tail.head? = some '=' := by decide
  obtain ⟨c, front, hcons⟩ := List.exists_cons_of_ne_nil h.ne_nil
  rw [hcons] at heq
  obtain ⟨rfl, rfl⟩ : c = '*' ∧ front ++ rest = tail := by simpa using heq
  have hnext := hsymbols _ hop hne (by rw [hcons]; rfl)
  rw [hcons] at hnext
  rw [List.head?_append, show front.head? = some '=' from hnext]
  rfl

namespace Atom

/-- Every leaf ends where the text does. -/
theorem endsBefore_nil (a : Atom) : a.EndsBefore [] :=
  ⟨by simp, by simp, fun _ => .nil⟩

/-- A blank ends a leaf; behind a type no star may come. -/
theorem endsBefore_blank (h : a.vartype? ≠ none → StarFree rest) : a.EndsBefore (' ' :: rest) where
  breaks c hc := by
    obtain rfl : ' ' = c := by simpa using hc
    decide
  int := by simp
  type ht := (h ht).blank

/-- Most symbols end a leaf. -/
theorem endsBefore_symbol {op : Operator} (hop : (op.symbol, op) ∈ Operator.symbols)
    (h : Scan.Takes (.op op) op.symbol.toList rest)
    (hequals : op ≠ .binary .assign ∧ op ≠ .binary .equal)
    (hint : a.isInt = true → op ≠ .binary .dot ∧ op ≠ .binary .dotStar)
    (htype : a.vartype? ≠ none → op ≠ .unresolved .asterisk) :
    a.EndsBefore (op.symbol.toList ++ rest) := by
  have hsymbols : ∀ s ∈ Operator.symbols, s.1.toList.head?.any Scan.isWordPart = false ∧
      (s.1.toList.head? = some '=' → s.2 = .binary .assign ∨ s.2 = .binary .equal) ∧
      (s.1.toList.head? = some '.' → s.2 = .binary .dot ∨ s.2 = .binary .dotStar) := by
    decide
  obtain ⟨hword, hequal, hpoint⟩ := hsymbols _ hop
  obtain ⟨c, front, hcons⟩ := List.exists_cons_of_ne_nil h.ne_nil
  rw [hcons] at hword hequal hpoint ⊢
  refine ⟨fun d hd => ?_, fun ha heq => ?_, fun ht => hcons ▸ .symbol hop h (htype ht)⟩
  · obtain rfl : c = d := by simpa using hd
    exact ⟨hword, fun hc => (hequal (congrArg some hc)).elim hequals.1 hequals.2⟩
  · exact (hpoint heq).elim (hint ha).1 (hint ha).2

/-- The text of a leaf does not go on with a symbol before it, and only that of a number goes on
with a point. -/
theorem Legible.begins (ha : a.Legible) : ∃ c tail, (a.render Names.initial).toList = c :: tail ∧
    c ∉ ['=', '>', '*'] ∧ (c.isDigit = true → a.isNumber = true) := by
  -- How its text begins is found by reading it back.
  have htake := Scan.takes_atom ha (endsBefore_nil a)
  obtain ⟨c, tail, htext⟩ := List.exists_cons_of_ne_nil htake.ne_nil
  obtain ⟨gap, -, htoken⟩ := htake.token
  refine ⟨c, tail, htext, ?_⟩
  rw [htext] at htoken
  rcases Scan.token_atom (htoken c _ rfl) with ⟨rfl, -⟩ | ⟨rfl, -⟩ | ⟨hstart, h⟩ | ⟨hstart, -⟩
  · exact ⟨by decide, by simp⟩
  · exact ⟨by decide, by simp⟩
  · constructor
    · intro hc
      simp only [List.mem_cons, List.not_mem_nil, or_false] at hc
      rcases hc with rfl | rfl | rfl <;> simp [Scan.StartsNumber] at hstart
    · intro _
      obtain ⟨v, rfl, -, hv⟩ := Scan.numberToken_atom h
      rcases Value.ofLiteral?_number hv with (⟨n, rfl, -⟩ | ⟨n, rfl, -⟩) | hreal
      · rfl
      · rfl
      · cases v <;> first | rfl | cases hreal
  · constructor
    · intro hc
      simp only [List.mem_cons, List.not_mem_nil, or_false] at hc
      rcases hc with rfl | rfl | rfl <;> revert hstart <;> decide
    · intro hdigit
      rw [(Scan.of_isWordStart hstart).1] at hdigit
      cases hdigit

end Atom

end

/-! ### Whole numbers by themselves -/

/-- A text that is a numeral to its end is one token, whatever names mean. -/
theorem tokenize_numeral {names : Naming} {c : Char} {front : List Char} {v : Value}
    (hstart : Scan.StartsNumber c front = true) (hnumber : Scan.number (c :: front) = c :: front)
    (hvalue : Value.ofLiteral? (c :: front) = some v) :
    tokenize names (String.ofList (c :: front)) = .ok [⟨.atom (.value v), .start⟩] := by
  obtain ⟨hblank, hother⟩ := Scan.of_startsNumber hstart
  simp only [List.mem_cons, List.not_mem_nil, or_false, not_or] at hother
  have hbare : Scan.blanks (c :: front) = .ok ⟨(), []⟩ :=
    Scan.blanks_bare hblank fun hc => absurd hc hother.1
  have htoken : Scan.token names c front = .ok ⟨.atom (.value v), c :: front⟩ := by
    rw [Scan.token_number hstart, Scan.numberToken, hnumber, hvalue]
  have hrest : front.drop ((c :: front).length - 1) = [] := by simp
  rw [tokenize, String.toList_ofList, tokensAt_token hbare rfl htoken, hrest,
    tokensAt_end Scan.blanks_nil rfl]
  rfl

/-- **Whole numbers read back**: the text of a number of 32 or 64 bits is read as that number, of
the same width, and by itself it is a single token if the number is not negative. -/
theorem whole_readsBack :
    (∀ n : Int32, Value.ofLiteral? (Value.int n).render.toList = some (.int n)) ∧
    (∀ n : Int64, Value.ofLiteral? (Value.long n).render.toList = some (.long n)) ∧
    ∀ (names : Naming) (v : Value), v.IsNatural →
      tokenize names v.render = .ok [⟨.atom (.value v), ⟨1, 1⟩⟩] := by
  refine ⟨Value.ofLiteral?_int, Value.ofLiteral?_long, fun names v hv => ?_⟩
  obtain ⟨c, front, htext, hstart, hnumber, hvalue⟩ := Scan.numeral_of_isNatural hv
  rw [← String.ofList_toList (s := v.render), htext]
  exact tokenize_numeral hstart hnumber hvalue

/-- The least numbers of both widths, and the first number that is too large for the lesser. -/
theorem whole_readsBack_bounds :
    Value.ofLiteral? "-2147483648".toList = some (.int Int32.minValue) ∧
    Value.ofLiteral? "-9223372036854775808L".toList = some (.long Int64.minValue) ∧
    (Value.long 2147483648).IsNatural ∧
    tokenize .none "2147483648L" = .ok [⟨.atom (.value (.long 2147483648)), ⟨1, 1⟩⟩] := by
  obtain ⟨hint, hlong, htokens⟩ := whole_readsBack
  have hnatural : (Value.long 2147483648).IsNatural := .inr ⟨2147483648, rfl, by decide⟩
  exact ⟨hint Int32.minValue, hlong Int64.minValue, hnatural, htokens .none _ hnatural⟩

end KernelTree
