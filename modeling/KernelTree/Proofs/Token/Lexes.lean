import KernelTree.Proofs.Token.Naming

/-!
# Texts and their tokens

`TokensAt` is the relation between a text and its tokens, and `Lexes text xs` says that a text is
split into the tokens `xs`, wherever it stands. Texts are put together from right to left:
`Scan.Takes x text rest` says that `text` is read as the token `x` if `rest` stands behind it, and
so `text ++ rest` has the tokens of `rest` behind `x`. How far a token reaches depends on what comes
next, mostly through a single character: a symbol may grow into a longer one (`Scan.followers`), a
word goes on with letters and digits, a type takes stars along.
-/

namespace KernelTree

namespace Scan

/-! ### Blanks -/

/-- At the end of a text nothing is skipped. -/
theorem blanks_nil : blanks [] = .ok ⟨(), []⟩ := by rw [blanks]

/-- A blank is skipped with what is skipped behind it. -/
theorem blanks_blank {c : Char} (h : isBlank c = true) (rest : List Char) :
    blanks (c :: rest) = (blanks rest).after [c] id := by
  have hc : c ≠ '/' := by
    rintro rfl
    simp [isBlank] at h
  rw [blanks]
  · rw [if_pos h]
  · rintro rest' rfl
    exact absurd rfl hc
  · rintro rest' rfl
    exact absurd rfl hc

/-- Neither a blank nor a comment begins the text. -/
theorem blanks_bare {c : Char} {rest : List Char} (hc : isBlank c = false)
    (hcomment : c = '/' → ∀ d ∈ rest.head?, d ≠ '/' ∧ d ≠ '*') :
    blanks (c :: rest) = .ok ⟨(), []⟩ := by
  rw [blanks]
  · rw [if_neg (by simp [hc])]
  · rintro rest' rfl rfl
    exact (hcomment rfl '/' rfl).1 rfl
  · rintro rest' rfl rfl
    exact (hcomment rfl '*' rfl).2 rfl

/-- A scan that goes on behind some text succeeds if it does there. -/
theorem Scanned.after_ok {α β : Type} {front : List Char} {f : α → β} {s : Scanned α} {r : Scan β}
    (h : s.after front f = .ok r) :
    ∃ r', s = .ok r' ∧ r.value = f r'.value ∧ r.taken = front ++ r'.taken := by
  cases s with
  | error e => cases h
  | ok r' =>
    obtain rfl := Except.ok.inj h
    exact ⟨r', rfl, rfl, rfl⟩

/-- Induction along the blanks and comments that are skipped: nothing is skipped, or a blank, a
comment up to the end of its line or a closed comment, each with what is skipped behind it. -/
@[elab_as_elim]
theorem blanks_induction {motive : List Char → List Char → Prop}
    (bare : ∀ text, blanks text = .ok ⟨(), []⟩ → motive text [])
    (blank : ∀ c rest gap, isBlank c = true → motive rest gap → motive (c :: rest) (c :: gap))
    (line : ∀ rest gap, motive (rest.drop (rest.takeWhile (· ≠ '\n')).length) gap →
      motive ('/' :: '/' :: rest) ('/' :: '/' :: rest.takeWhile (· ≠ '\n') ++ gap))
    (block : ∀ rest comment gap, blockComment? rest = some comment →
      motive (rest.drop comment.length) gap →
        motive ('/' :: '*' :: rest) ('/' :: '*' :: comment ++ gap))
    {text : List Char} {gap : Scan Unit} (h : blanks text = .ok gap) : motive text gap.taken := by
  -- The branches of the recursion, the unclosed comment among them, which gives no gap.
  refine blanks.induct (fun text => ∀ gap, blanks text = .ok gap → motive text gap.taken)
    ?line ?unclosed ?block ?blank ?bare ?done text gap h
  case line =>
    intro rest comment ih gap h
    rw [blanks] at h
    obtain ⟨gap', hgap, -, htaken⟩ := Scanned.after_ok h
    rw [htaken]
    exact line rest gap'.taken (ih gap' hgap)
  case unclosed =>
    intro rest hnone gap h
    rw [blanks, hnone] at h
    cases h
  case block =>
    intro rest comment hsome ih gap h
    rw [blanks, hsome] at h
    obtain ⟨gap', hgap, -, htaken⟩ := Scanned.after_ok h
    rw [htaken]
    exact block rest comment gap'.taken hsome (ih gap' hgap)
  case blank =>
    intro c rest hline hblock hblank ih gap h
    rw [blanks_blank hblank] at h
    obtain ⟨gap', hgap, -, htaken⟩ := Scanned.after_ok h
    rw [htaken]
    exact blank c rest gap'.taken hblank (ih gap' hgap)
  case bare =>
    intro c rest hline hblock hblank gap h
    have hnone : blanks (c :: rest) = .ok ⟨(), []⟩ := by
      rw [blanks.eq_3 c rest hline hblock, if_neg hblank]
    obtain rfl := Except.ok.inj (hnone.symm.trans h)
    exact bare _ hnone
  case done =>
    intro gap h
    obtain rfl := Except.ok.inj (blanks_nil.symm.trans h)
    exact bare [] blanks_nil

/-- Behind all blanks and comments there are no others. -/
theorem blanks_drop {text : List Char} {gap : Scan Unit} (h : blanks text = .ok gap) :
    blanks (text.drop gap.taken.length) = .ok ⟨(), []⟩ := by
  refine blanks_induction ?bare ?blank ?line ?block h
  case bare => exact fun text hbare => hbare
  case blank => exact fun c rest gap _ ih => ih
  case line =>
    intro rest gap ih
    simpa [← List.drop_drop] using ih
  case block =>
    intro rest comment gap _ ih
    simpa [← List.drop_drop] using ih

end Scan

/-! ### Rows of tokens -/

/-- The text has these tokens: blanks and comments, a token and the tokens of what follows it, until
only blanks and comments are left. -/
inductive TokensAt (names : Naming) : Location → List Char → List Token → Prop
  | nil {start : Location} {text : List Char} {gap : Scan Unit} (hb : Scan.blanks text = .ok gap)
      (hend : text.drop gap.taken.length = []) : TokensAt names start text []
  | cons {start : Location} {text : List Char} {gap : Scan Unit} {c : Char} {rest : List Char}
      {s : Scan Lexeme} {later : List Token} (hb : Scan.blanks text = .ok gap)
      (hrest : text.drop gap.taken.length = c :: rest) (ht : Scan.token names c rest = .ok s)
      (h : TokensAt names ((start.after gap.taken).after s.taken)
        (rest.drop (s.taken.length - 1)) later) :
      TokensAt names start text (⟨s.value, start.after gap.taken⟩ :: later)

/-- Tokens that a text has are found. -/
theorem TokensAt.eq_ok {names : Naming} {start : Location} {text : List Char} {ts : List Token}
    (h : TokensAt names start text ts) : tokensAt names start text = .ok ts := by
  induction h with
  | nil hb hend => exact tokensAt_end hb hend
  | cons hb hrest ht _ ih =>
    rw [tokensAt_token hb hrest ht, ih]
    rfl

/-- Tokens that are found are those of the text. -/
theorem tokensAt_ok {names : Naming} {start : Location} {text : List Char} {ts : List Token}
    (h : tokensAt names start text = .ok ts) : TokensAt names start text ts := by
  induction start, text using tokensAt_induction names generalizing ts with
  | unclosed start text e hb =>
    rw [tokensAt_blanks_error hb] at h
    cases h
  | finish start text gap hb hend =>
    rw [tokensAt_end hb hend] at h
    obtain rfl := Except.ok.inj h
    exact .nil hb hend
  | fault start text gap c rest e hb hrest ht =>
    rw [tokensAt_token_error hb hrest ht] at h
    cases h
  | token start text gap c rest s hb hrest ht ih =>
    rw [tokensAt_token hb hrest ht] at h
    cases hlater : tokensAt names ((start.after gap.taken).after s.taken)
        (rest.drop (s.taken.length - 1)) with
    | error e =>
      rw [hlater] at h
      cases h
    | ok later =>
      rw [hlater] at h
      obtain rfl := Except.ok.inj h
      exact .cons hb hrest ht (ih hlater)

/-- Wherever the text stands, it is split into these tokens. -/
def Lexes (text : List Char) (xs : List Lexeme) : Prop :=
  ∀ start, ∃ ts, tokensAt .none start text = .ok ts ∧ ts.map Token.lexeme = xs

/-- The tokens of a text are those behind its blanks. -/
theorem tokensAt_gap {names : Naming} {start : Location} {text : List Char} {gap : Scan Unit}
    (h : Scan.blanks text = .ok gap) :
    tokensAt names start text
      = tokensAt names (start.after gap.taken) (text.drop gap.taken.length) := by
  have hdrop := Scan.blanks_drop h
  cases hrest : text.drop gap.taken.length with
  | nil =>
    rw [tokensAt_end h hrest, tokensAt_end Scan.blanks_nil rfl]
  | cons c rest =>
    rw [hrest] at hdrop
    cases ht : Scan.token names c rest with
    | error e => rw [tokensAt_token_error h hrest ht, tokensAt_token_error hdrop rfl ht]; rfl
    | ok s => rw [tokensAt_token h hrest ht, tokensAt_token hdrop rfl ht]; rfl

/-- A text with nothing in it has no tokens. -/
theorem lexes_nil : Lexes [] [] := fun _ =>
  ⟨[], tokensAt_end Scan.blanks_nil rfl, rfl⟩

/-- A blank in front adds no token. -/
theorem Lexes.blank {text : List Char} {xs : List Lexeme} (h : Lexes text xs) :
    Lexes (' ' :: text) xs := by
  intro start
  have hblank := Scan.blanks_blank (show Scan.isBlank ' ' = true from rfl) text
  have heq : tokensAt .none start (' ' :: text) = tokensAt .none (start.next ' ') text := by
    cases hb : Scan.blanks text with
    | error e =>
      rw [hb] at hblank
      rw [tokensAt_blanks_error hb, tokensAt_blanks_error hblank]
      rfl
    | ok gap =>
      rw [hb] at hblank
      rw [tokensAt_gap hb, tokensAt_gap hblank]
      rfl
  rw [heq]
  exact h _

namespace Scan

/-- In front of `rest`, the text is read as the token. With a type, the blanks behind it are taken
too. -/
structure Takes (x : Lexeme) (text rest : List Char) : Prop where
  ne_nil : text ≠ []
  bare : blanks (text ++ rest) = .ok ⟨(), []⟩
  token : ∃ gap, (gap = [] ∨ blanks rest = .ok ⟨(), gap⟩) ∧
    ∀ c tail, text ++ rest = c :: tail → token .none c tail = .ok ⟨x, text ++ gap⟩

/-- A text that is read as a token is put in front of the others. -/
theorem Takes.lexes {x : Lexeme} {text rest : List Char} {xs : List Lexeme} (h : Takes x text rest)
    (hrest : Lexes rest xs) : Lexes (text ++ rest) (x :: xs) := by
  intro start
  obtain ⟨c, front, rfl⟩ := List.exists_cons_of_ne_nil h.ne_nil
  obtain ⟨gap, hgap, htoken⟩ := h.token
  obtain ⟨ts, hts, hxs⟩ := hrest (start.after (c :: front))
  refine ⟨⟨x, start⟩ :: ts, ?_, by simp [hxs]⟩
  have hbehind : tokensAt .none ((start.after []).after (c :: front ++ gap))
      ((front ++ rest).drop ((c :: front ++ gap).length - 1)) = .ok ts := by
    have hdrop : (front ++ rest).drop ((c :: front ++ gap).length - 1)
        = rest.drop gap.length := by
      simp [List.drop_append]
    rw [hdrop, Location.after_append]
    rcases hgap with rfl | hgap
    · exact hts
    · rw [tokensAt_gap hgap] at hts
      exact hts
  rw [tokensAt_token h.bare rfl (htoken c _ rfl)]
  exact congrArg (Except.map (⟨x, start⟩ :: ·)) hbehind

/-! ### Symbols -/

/-- The characters that make a longer symbol of what stands before them. -/
def followers (symbol : List Char) : List Char :=
  Operator.symbols.filterMap fun s =>
    if symbol.isPrefixOf s.1.toList then s.1.toList[symbol.length]? else none

/-- A character that makes a longer symbol of the table is among the followers. -/
theorem mem_followers {symbol : List Char} {c : Char} {s : String × Operator}
    (hs : s ∈ Operator.symbols) (h : (symbol ++ [c]).isPrefixOf s.1.toList = true) :
    c ∈ followers symbol := by
  obtain ⟨tail, htail⟩ := List.isPrefixOf_iff_prefix.mp h
  have hfront : symbol.isPrefixOf s.1.toList = true :=
    List.isPrefixOf_iff_prefix.mpr ⟨c :: tail, by rw [← htail]; simp⟩
  refine List.mem_filterMap.mpr ⟨s, hs, ?_⟩
  rw [if_pos hfront, ← htail]
  simp

/-- A text begins with `s` only if its front does, unless `s` goes on with what comes next. -/
theorem isPrefixOf_append {s front rest : List Char}
    (h : ∀ c ∈ rest.head?, (front ++ [c]).isPrefixOf s = false) :
    s.isPrefixOf (front ++ rest) = s.isPrefixOf front := by
  rw [Bool.eq_iff_iff, List.isPrefixOf_iff_prefix, List.isPrefixOf_iff_prefix]
  constructor
  · intro hs
    rcases List.prefix_or_prefix_of_prefix hs (List.prefix_append front rest) with hs' | ⟨u, rfl⟩
    · exact hs'
    · cases u with
      | nil => simp
      | cons c u =>
        obtain ⟨rest', rfl⟩ := (List.prefix_append_right_inj front).mp hs
        have hgrow : (front ++ [c]).isPrefixOf (front ++ c :: u) = true := by
          rw [List.isPrefixOf_iff_prefix]
          exact ⟨u, by simp⟩
        rw [h c rfl] at hgrow
        cases hgrow
  · exact fun hs => hs.trans (List.prefix_append front rest)

/-- The first characters of a symbol say that it is one. -/
def StartsSymbol (op : Operator) : List Char → Prop
  | [] => False
  | c :: tail =>
    (c ≠ '"' ∧ c ≠ '\'' ∧ c.isDigit = false ∧ isWordStart c = false ∧ isBlank c = false) ∧
      (c = '.' → (tail = [] → op = .binary .dot) ∧ tail.head?.any Char.isDigit = false) ∧
      (c = '/' → (tail = [] → op = .binary .div) ∧
        tail.head? ≠ some '/' ∧ tail.head? ≠ some '*')

/-- How a symbol begins can be computed. -/
instance (op : Operator) (symbol : List Char) : Decidable (StartsSymbol op symbol) :=
  match symbol with
  | [] => inferInstanceAs (Decidable False)
  | _ :: _ => inferInstanceAs (Decidable (_ ∧ _ ∧ _))

/-- All symbols of the table begin as symbols do. -/
theorem startsSymbol_symbols : ∀ s ∈ Operator.symbols, StartsSymbol s.2 s.1.toList := by decide

/-- No symbol is found in the place of another. -/
theorem find?_symbols : ∀ s ∈ Operator.symbols,
    Operator.symbols.find? (fun t => t.1.toList.isPrefixOf s.1.toList) = some s := by
  decide

variable {rest : List Char}

/-- A symbol is the first of the table that is found, unless the next character makes a longer
one. -/
theorem find?_symbols_append {op : Operator} (hop : (op.symbol, op) ∈ Operator.symbols)
    (hrest : ∀ c ∈ rest.head?, c ∉ followers op.symbol.toList) :
    Operator.symbols.find? (fun t => t.1.toList.isPrefixOf (op.symbol.toList ++ rest))
      = some (op.symbol, op) := by
  rw [← find?_symbols _ hop, ← List.head?_filter, ← List.head?_filter]
  congr 1
  refine List.filter_congr fun t ht => isPrefixOf_append fun c hc => ?_
  exact Bool.eq_false_iff.mpr fun hgrows => hrest c hc (mem_followers ht hgrows)

/-- A symbol is taken for itself unless the next character makes a longer one, a number or a comment
of it. -/
theorem takes_symbol {op : Operator} (hop : (op.symbol, op) ∈ Operator.symbols)
    (hrest : ∀ c ∈ rest.head?, c ∉ followers op.symbol.toList)
    (hdot : op = .binary .dot → ∀ c ∈ rest.head?, c.isDigit = false)
    (hdiv : op = .binary .div → ∀ c ∈ rest.head?, c ≠ '/' ∧ c ≠ '*') :
    Takes (.op op) op.symbol.toList rest := by
  have hstart := startsSymbol_symbols _ hop
  have hfind := find?_symbols_append hop hrest
  cases hsymbol : op.symbol.toList with
  | nil =>
    rw [hsymbol] at hstart
    cases hstart
  | cons c tail =>
    rw [hsymbol] at hstart hfind
    obtain ⟨⟨hstring, hchar, hdigit, hword, hblank⟩, hpoint, hslash⟩ := hstart
    -- What comes next is looked at where the symbol is a single character.
    have hpoint' : c = '.' → (tail ++ rest).head?.any Char.isDigit = false := by
      intro hc
      obtain ⟨hnil, hnext⟩ := hpoint hc
      cases tail with
      | nil => cases rest <;> simp_all
      | cons d tail => simpa using hnext
    have hslash' : c = '/' → ∀ d ∈ (tail ++ rest).head?, d ≠ '/' ∧ d ≠ '*' := by
      intro hc
      obtain ⟨hnil, hnext⟩ := hslash hc
      cases tail with
      | nil => exact hdiv (hnil rfl)
      | cons d tail => simpa using hnext
    refine ⟨by simp, blanks_bare hblank hslash', [], .inl rfl, fun c' tail' heq => ?_⟩
    obtain ⟨rfl, rfl⟩ : c = c' ∧ tail ++ rest = tail' := by simpa using heq
    have hnumber : (c.isDigit || (c = '.' && (tail ++ rest).head?.any Char.isDigit)) = false := by
      by_cases hc : c = '.'
      · rw [hdigit, hpoint' hc, Bool.and_false, Bool.or_false]
      · simp [hdigit, hc]
    simp only [token, hstring, hchar, hnumber, hword, symbolToken, ← List.cons_append, hfind,
      hsymbol, List.append_nil]
    rfl

/-- A blank makes no longer symbol. -/
theorem not_mem_followers_blank : ∀ s ∈ Operator.symbols, ' ' ∉ followers s.1.toList := by decide

/-- In front of a blank every symbol is taken for itself. -/
theorem takes_symbol_blank {op : Operator} (hop : (op.symbol, op) ∈ Operator.symbols) :
    Takes (.op op) op.symbol.toList (' ' :: rest) := by
  refine takes_symbol hop ?_ (fun _ => ?_) fun _ => ?_ <;>
    intro c hc <;> obtain rfl : ' ' = c := by simpa using hc
  · exact not_mem_followers_blank _ hop
  · decide
  · decide

/-- Behind a symbol that makes no longer one, everything may follow. -/
theorem takes_symbol_final {op : Operator} (hop : (op.symbol, op) ∈ Operator.symbols)
    (hfinal : followers op.symbol.toList = []) : Takes (.op op) op.symbol.toList rest := by
  refine takes_symbol hop (by simp [hfinal]) ?_ ?_ <;> rintro rfl <;>
    exact absurd hfinal (by decide)

end Scan

end KernelTree
