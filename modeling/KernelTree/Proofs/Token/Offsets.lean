import KernelTree.Proofs.Token.Legible

/-!
# Where tokens begin

Every scan takes off the front of its text (`Scan.token_taken`), and what it skips are blanks and
comments that are complete (`Scan.IsGap`). So each token has an offset: its place is found by
counting lines and characters up to there, and the text from there on has the tokens from this one
on (`tokenize_local`).
-/

namespace KernelTree

/-! ### Places by counting -/

/-- The place behind some text: a line for each of its line breaks, and a column for each of the
characters behind the last of them. -/
def Location.behind (text : List Char) : Location :=
  ⟨1 + text.count '\n', 1 + (text.reverse.takeWhile (· ≠ '\n')).length⟩

/-- Reading a text from its start moves to the place found by counting. -/
theorem Location.after_start (text : List Char) : Location.start.after text = behind text := by
  induction text using List.reverseRecOn with
  | nil => rfl
  | append_singleton text c ih =>
    rw [after_append, ih]
    show (behind text).next c = behind (text ++ [c])
    -- A line break starts a new line, and any other character moves on by a column.
    by_cases hc : c = '\n'
    · subst hc
      simp [behind, next, Nat.add_assoc]
    · simp [behind, next, hc, Nat.add_comm]

namespace Scan

/-! ### Blanks and comments -/

/-- Blanks and comments in front of `rest`. A line comment goes on to a line break or to the end of
the text, and a block comment ends where it is first closed. -/
inductive IsGap (rest : List Char) : List Char → Prop
  | nil : IsGap rest []
  | blank {c : Char} {gap : List Char} (hc : isBlank c = true) (h : IsGap rest gap) :
      IsGap rest (c :: gap)
  | line {comment gap : List Char} (hcomment : '\n' ∉ comment)
      (hend : ∀ c ∈ (gap ++ rest).head?, c = '\n') (h : IsGap rest gap) :
      IsGap rest ('/' :: '/' :: comment ++ gap)
  | block {comment gap : List Char} (hcomment : ¬ ['*', '/'] <:+: comment) (h : IsGap rest gap) :
      IsGap rest ('/' :: '*' :: (comment ++ ['*', '/']) ++ gap)

/-- A block comment ends where it is first closed. -/
theorem blockComment?_eq_some {text taken : List Char} (h : blockComment? text = some taken) :
    ∃ comment rest, taken = comment ++ ['*', '/'] ∧ text = taken ++ rest ∧
      ¬ ['*', '/'] <:+: comment := by
  induction text generalizing taken with
  | nil => cases h
  | cons c text ih =>
    by_cases hclosed : ∃ rest, c :: text = '*' :: '/' :: rest
    · obtain ⟨rest, htext⟩ := hclosed
      rw [htext, blockComment?] at h
      obtain rfl := Option.some.inj h
      exact ⟨[], rest, rfl, htext, by simp⟩
    · rw [blockComment?.eq_2 c text fun rest hc htext => hclosed ⟨rest, by rw [hc, htext]⟩] at h
      obtain ⟨taken', htaken, rfl⟩ := Option.map_eq_some_iff.mp h
      obtain ⟨comment, rest, rfl, rfl, hcomment⟩ := ih htaken
      refine ⟨c :: comment, rest, rfl, rfl, ?_⟩
      rw [List.infix_cons_iff]
      rintro (hfront | hinner)
      · -- The comment would have been closed one character earlier.
        obtain ⟨rfl, hslash⟩ := List.cons_prefix_cons.mp hfront
        obtain ⟨tail, rfl⟩ := hslash
        exact hclosed ⟨_, rfl⟩
      · exact hcomment hinner

/-- A line comment goes on until a line break comes. -/
theorem head?_of_lineComment {text rest : List Char}
    (h : text = text.takeWhile (· ≠ '\n') ++ rest) : ∀ c ∈ rest.head?, c = '\n' := by
  intro c hc
  have hdrop : text.dropWhile (· ≠ '\n') = rest :=
    List.append_cancel_left (List.takeWhile_append_dropWhile.trans h)
  have hstop := List.head?_dropWhile_not (· ≠ '\n') text
  rw [hdrop, hc] at hstop
  simpa using hstop

/-- What is skipped are blanks and complete comments. -/
theorem blanks_ok {text : List Char} {gap : Scan Unit} (h : blanks text = .ok gap) :
    ∃ rest, text = gap.taken ++ rest ∧ IsGap rest gap.taken := by
  refine blanks_induction ?bare ?blank ?line ?block h
  case bare => exact fun text _ => ⟨text, rfl, .nil⟩
  case blank =>
    rintro c _ gap hblank ⟨rest, rfl, hgap⟩
    exact ⟨rest, rfl, .blank hblank hgap⟩
  case line =>
    rintro text gap ⟨rest, hrest, hgap⟩
    have htext : text = text.takeWhile (· ≠ '\n') ++ (gap ++ rest) := by
      rw [← hrest]
      exact (List.prefix_iff_eq_append.mp (List.takeWhile_prefix _)).symm
    have hline : '\n' ∉ text.takeWhile (· ≠ '\n') := fun hmem => by
      simpa using List.all_eq_true.mp List.all_takeWhile _ hmem
    refine ⟨rest, ?_, .line hline (head?_of_lineComment htext) hgap⟩
    rw [List.append_assoc]
    exact congrArg ('/' :: '/' :: ·) htext
  case block =>
    rintro text comment gap hsome ⟨rest, hrest, hgap⟩
    obtain ⟨inner, tail, rfl, rfl, hinner⟩ := blockComment?_eq_some hsome
    rw [List.drop_left] at hrest
    subst hrest
    exact ⟨rest, by simp, .block hinner hgap⟩

/-! ### What a token takes -/

variable {text front : List Char}

/-- Two pieces are taken one after the other. -/
theorem isFront_append {more : List Char} (h : front <+: text)
    (hmore : more <+: text.drop front.length) : front ++ more <+: text := by
  rw [← List.prefix_iff_eq_append.mp h]
  exact (List.prefix_append_right_inj front).mpr (by simpa using hmore)

/-- What stands in quotes is taken with the closing one. -/
theorem quoted?_isFront {quote : Char} {inner : List Char} (h : quoted? quote text = some inner) :
    inner ++ [quote] <+: text := by
  refine quoted?_induction ?closing ?escaped ?other h
  case closing => exact fun text => ⟨text, rfl⟩
  case escaped =>
    intro c text inner _ ih
    simpa using ih
  case other =>
    intro c text inner _ _ _ ih
    simpa using ih

/-- A sign is taken from the front. -/
theorem signPart_isFront (text : List Char) : signPart text <+: text := by
  cases text with
  | nil => simp [signPart]
  | cons c text =>
    by_cases hc : c = '+' ∨ c = '-' <;> simp [signPart, hc]

/-- The exponent of a numeral is taken from the front. -/
theorem exponentPart_isFront (text : List Char) : exponentPart text <+: text := by
  cases text with
  | nil => exact List.nil_prefix
  | cons e text =>
    rw [exponentPart]
    split
    · exact List.cons_prefix_cons.mpr
        ⟨rfl, isFront_append (signPart_isFront text) (List.takeWhile_prefix _)⟩
    · exact List.nil_prefix

/-- Digits, fraction and exponent are taken one after the other. -/
theorem decimalPart_isFront (text : List Char) : decimalPart text <+: text := by
  unfold decimalPart
  refine isFront_append (isFront_append (List.takeWhile_prefix _) (fractionPart_isFront _)) ?_
  rw [List.length_append]
  exact exponentPart_isFront _

/-- The digits of a numeral are at the front, whatever their base. -/
theorem numberPart_isFront (text : List Char) : numberPart text <+: text := by
  unfold numberPart
  split
  · simpa using List.takeWhile_prefix _
  · simpa using List.takeWhile_prefix _
  · exact decimalPart_isFront text

/-- A numeral is taken from the front with the marks of its type. -/
theorem number_isFront (text : List Char) : number text <+: text :=
  isFront_append (numberPart_isFront text) (List.takeWhile_prefix _)

/-- A word is taken from the front. -/
theorem word_isFront (text : List Char) : word text <+: text := List.takeWhile_prefix _

/-- A text that begins like a word has a word at its front. -/
theorem word_ne_nil (h : text.head?.any isWordStart = true) : word text ≠ [] := by
  cases text with
  | nil => cases h
  | cons c text =>
    have hc : isWordStart c = true := h
    simp [word, isWordPart_of_start hc]

/-- What is skipped is at the front. -/
theorem blanks_isFront {gap : Scan Unit} (h : blanks text = .ok gap) : gap.taken <+: text := by
  obtain ⟨rest, htext, -⟩ := blanks_ok h
  exact ⟨rest, htext.symm⟩

/-- The pointers behind a type are stars with blanks and comments between them. -/
theorem pointers_isFront (text : List Char) {s : Scan Nat} (h : pointers text = .ok s) :
    s.taken <+: text := by
  cases hblanks : blanks text with
  | error e =>
    rw [pointers, hblanks] at h
    cases h
  | ok gap =>
    have hgap := blanks_isFront hblanks
    by_cases hstar : ∃ rest, text.drop gap.taken.length = '*' :: rest ∧ rest.head? ≠ some '='
    · obtain ⟨rest, hrest, hequals⟩ := hstar
      have hshorter : rest.length < text.length := by
        have hlength := congrArg List.length hrest
        rw [List.length_drop, List.length_cons] at hlength
        omega
      rw [pointers_gap_star hblanks hrest hequals] at h
      obtain ⟨s', hs', -, htaken⟩ := Scanned.after_ok h
      rw [htaken, List.append_assoc]
      refine isFront_append hgap ?_
      rw [hrest]
      exact List.cons_prefix_cons.mpr ⟨rfl, pointers_isFront rest hs'⟩
    · have hequals := fun tail htail => of_not_not fun hne => hstar ⟨tail, htail, hne⟩
      rw [pointers_stop hblanks hequals] at h
      obtain rfl := Except.ok.inj h
      exact hgap
termination_by text.length

/-- A scan takes off the front of its text, and at least one character. -/
def TakesFront (s : Scan Lexeme) (text : List Char) : Prop := s.taken ≠ [] ∧ s.taken <+: text

variable {names : Naming} {s : Scan Lexeme}

/-- A text in quotes is taken with both of them. -/
theorem stringToken_takesFront (h : stringToken text = .ok s) : s.TakesFront ('"' :: text) := by
  obtain ⟨inner, hinner, rfl⟩ := stringToken_ok h
  exact ⟨by simp, List.cons_prefix_cons.mpr ⟨rfl, quoted?_isFront hinner⟩⟩

/-- A character in quotes is taken with both of them. -/
theorem charToken_takesFront (h : charToken text = .ok s) : s.TakesFront ('\'' :: text) := by
  obtain ⟨inner, -, hinner, rfl⟩ := charToken_ok h
  exact ⟨by simp, List.cons_prefix_cons.mpr ⟨rfl, quoted?_isFront hinner⟩⟩

/-- A number takes at least one character, since no characters stand for no value. -/
theorem numberToken_takesFront (h : numberToken text = .ok s) : s.TakesFront text := by
  obtain ⟨v, hv, rfl⟩ := numberToken_ok h
  refine ⟨fun hnil => ?_, number_isFront text⟩
  -- No characters are no number.
  rw [show number text = [] from hnil] at hv
  cases hv

/-- The word, blanks, the name of a type and its pointers are taken one after the other. -/
theorem constToken_takesFront (hne : front ≠ []) (hfront : front <+: text)
    (h : constToken names front (text.drop front.length) = .ok s) : s.TakesFront text := by
  obtain ⟨gap, name, base, depth, hblanks, hname, hdepth, -, htaken⟩ := constToken_ok h
  obtain ⟨-, rfl, -⟩ := typeWord?_eq_some hname
  have hword := word_isFront ((text.drop front.length).drop gap.taken.length)
  have hpointers := pointers_isFront _ hdepth
  generalize word ((text.drop front.length).drop gap.taken.length) = name at *
  rw [List.drop_drop] at hword
  rw [List.drop_drop, List.drop_drop] at hpointers
  refine ⟨by simp [htaken, hne], ?_⟩
  rw [htaken]
  refine isFront_append (isFront_append (isFront_append hfront (blanks_isFront hblanks)) ?_) ?_
  · rw [List.length_append]
    exact hword
  · rw [List.length_append, List.length_append, Nat.add_assoc]
    exact hpointers

/-- The name of a type is taken with the pointers behind it. -/
theorem typeToken_takesFront {base : TypeId} (hne : front ≠ []) (hfront : front <+: text)
    (h : typeToken base front (text.drop front.length) = .ok s) : s.TakesFront text := by
  obtain ⟨depth, hdepth, -, htaken⟩ := Scanned.after_ok h
  refine ⟨by simp [htaken, hne], ?_⟩
  rw [htaken]
  exact isFront_append hfront (pointers_isFront _ hdepth)

/-- Whatever a word means, it is taken, and a type takes more. -/
theorem wordToken_takesFront (hstart : text.head?.any isWordStart = true)
    (h : wordToken names text = .ok s) : s.TakesFront text := by
  have hne := word_ne_nil hstart
  have hfront := word_isFront text
  unfold wordToken at h
  dsimp only at h
  split at h
  · obtain rfl := Except.ok.inj h
    exact ⟨hne, hfront⟩
  split at h
  · obtain rfl := Except.ok.inj h
    exact ⟨hne, hfront⟩
  split at h
  · obtain rfl := Except.ok.inj h
    exact ⟨hne, hfront⟩
  split at h
  · exact constToken_takesFront hne hfront h
  split at h
  · exact typeToken_takesFront hne hfront h
  · obtain rfl := Except.ok.inj h
    exact ⟨hne, hfront⟩

/-- A symbol of the table is taken, and none of them is empty. -/
theorem symbolToken_takesFront {c : Char} (h : symbolToken c text = .ok s) :
    s.TakesFront (c :: text) := by
  obtain ⟨symbol, op, hfind, rfl⟩ := symbolToken_ok h
  have hfront : symbol.toList.isPrefixOf (c :: text) = true := by
    simpa using List.find?_some hfind
  have hstart := startsSymbol_symbols _ (List.mem_of_find?_eq_some hfind)
  refine ⟨fun hnil => ?_, List.isPrefixOf_iff_prefix.mp hfront⟩
  rw [show symbol.toList = [] from hnil] at hstart
  exact hstart

/-- Whatever begins a token, the token is at the front. -/
theorem token_takesFront {c : Char} (h : token names c text = .ok s) :
    s.TakesFront (c :: text) := by
  unfold token at h
  by_cases hstring : c = '"'
  · subst hstring
    exact stringToken_takesFront h
  rw [if_neg hstring] at h
  by_cases hchar : c = '\''
  · subst hchar
    exact charToken_takesFront h
  rw [if_neg hchar] at h
  split at h
  case isTrue => exact numberToken_takesFront h
  case isFalse =>
    split at h
    case isTrue hword => exact wordToken_takesFront hword h
    case isFalse => exact symbolToken_takesFront h

end Scan

/-! ### Offsets of tokens -/

/-- Only the places of tokens depend on where the text stands. -/
theorem TokensAt.elsewhere {names : Naming} {start : Location} {text : List Char} {ts : List Token}
    (h : TokensAt names start text ts) (start' : Location) :
    ∃ ts', TokensAt names start' text ts' ∧ ts'.map Token.lexeme = ts.map Token.lexeme := by
  induction h generalizing start' with
  | nil hb hend => exact ⟨[], .nil hb hend, rfl⟩
  | @cons _ _ gap _ _ s _ hb hrest ht _ ih =>
    obtain ⟨later, hlater, hlexemes⟩ := ih ((start'.after gap.taken).after s.taken)
    exact ⟨_, .cons hb hrest ht hlater, by simp [hlexemes]⟩

/-- Where the tokens of a text begin: a token's place is found by counting up to its offset, and the
text from there on has the tokens from this one on. -/
structure Offsets (names : Naming) (start : Location) (text : List Char) (ts : List Token)
    (offset : Fin ts.length → ℕ) : Prop where
  strictMono : StrictMono offset
  lt_length : ∀ i, offset i < text.length
  location : ∀ i, ts[i].location = start.after (text.take (offset i))
  tokens : ∀ i, TokensAt names ts[i].location (text.drop (offset i)) (ts.drop i)
  gap : ∀ i, i.val = 0 → Scan.IsGap (text.drop (offset i)) (text.take (offset i))
  gap_nil : ts = [] → Scan.IsGap [] text

namespace Offsets

variable {names : Naming} {start : Location}

/-- Without tokens there are no offsets, and the text is a gap. -/
theorem nil {text : List Char} (h : Scan.IsGap [] text) :
    Offsets names start text [] Fin.elim0 where
  strictMono i := i.elim0
  lt_length i := i.elim0
  location i := i.elim0
  tokens i := i.elim0
  gap i := i.elim0
  gap_nil _ := h

/-- A token in front, with a gap before it. -/
theorem cons {gap taken text : List Char} {x : Lexeme} {ts : List Token}
    {offset : Fin ts.length → ℕ}
    (hgap : Scan.IsGap (taken ++ text) gap) (hne : taken ≠ [])
    (hts : TokensAt names (start.after gap) (taken ++ text) (⟨x, start.after gap⟩ :: ts))
    (h : Offsets names ((start.after gap).after taken) text ts offset) :
    Offsets names start (gap ++ (taken ++ text)) (⟨x, start.after gap⟩ :: ts)
      (Fin.cons gap.length fun i => gap.length + (taken.length + offset i)) where
  strictMono := by
    have hpos : 0 < taken.length := List.length_pos_iff.mpr hne
    refine Fin.strictMono_cons.mpr ⟨fun i => ?_, fun i j hij => ?_⟩
    · omega
    · have := h.strictMono hij
      dsimp only
      omega
  lt_length i := by
    have hpos : 0 < taken.length := List.length_pos_iff.mpr hne
    refine Fin.cases ?_ (fun i => ?_) i
    · show gap.length < (gap ++ (taken ++ text)).length
      simp only [List.length_append]
      omega
    · simpa using h.lt_length i
  location i := by
    refine Fin.cases ?_ (fun i => ?_) i
    · simp
    · simpa [List.take_length_add_append, Location.after_append] using h.location i
  tokens i := by
    refine Fin.cases ?_ (fun i => ?_) i
    · simpa using hts
    · simpa [List.drop_length_add_append] using h.tokens i
  gap i hi := by
    obtain rfl : i = 0 := Fin.ext hi
    simpa using hgap
  gap_nil hnil := by cases hnil

end Offsets

/-- Each row of tokens has offsets, by induction from its end. -/
theorem TokensAt.exists_offsets {names : Naming} {start : Location} {text : List Char}
    {ts : List Token} (h : TokensAt names start text ts) :
    ∃ offset, Offsets names start text ts offset := by
  induction h with
  | nil hb hend =>
    obtain ⟨rest, rfl, hgap⟩ := Scan.blanks_ok hb
    rw [List.drop_left] at hend
    subst hend
    exact ⟨_, .nil (by simpa using hgap)⟩
  | @cons start text gap c rest s later hb hrest ht hlater ih =>
    obtain ⟨offset, hoffset⟩ := ih
    obtain ⟨hne, tail, htail⟩ := Scan.token_takesFront ht
    have hts := (TokensAt.cons hb hrest ht hlater).eq_ok
    rw [tokensAt_gap hb, hrest, ← htail] at hts
    -- The scanner counts from behind the first character of the token, the offsets from before it.
    have hdrop : rest.drop (s.taken.length - 1) = tail := by
      obtain ⟨d, taken, htaken⟩ := List.exists_cons_of_ne_nil hne
      rw [htaken] at htail ⊢
      obtain ⟨-, rfl⟩ := List.cons.inj htail
      simp
    rw [hdrop] at hoffset
    obtain ⟨behind, rfl, hgap⟩ := Scan.blanks_ok hb
    rw [List.drop_left] at hrest
    rw [hrest, ← htail] at hgap ⊢
    exact ⟨_, hoffset.cons hgap hne (tokensAt_ok hts)⟩

/-- **Tokens are found in place**: each token has an offset in the text, and offsets grow. A token's
place counts the line breaks and the characters before its offset, the text from there on has the
same tokens from this one on, and before the first are only blanks and complete comments. -/
theorem tokenize_local {names : Naming} {source : String} {ts : List Token}
    (h : tokenize names source = .ok ts) :
    ∃ offset : Fin ts.length → ℕ, StrictMono offset ∧
      (∀ i, offset i < source.toList.length ∧
        ts[i].location = .behind (source.toList.take (offset i)) ∧
        ∃ later, tokenize names (String.ofList (source.toList.drop (offset i))) = .ok later ∧
          later.map Token.lexeme = (ts.drop i).map Token.lexeme) ∧
      (∀ i, i.val = 0 →
        Scan.IsGap (source.toList.drop (offset i)) (source.toList.take (offset i))) ∧
      (ts = [] → Scan.IsGap [] source.toList) := by
  obtain ⟨offset, hoffset⟩ := (tokensAt_ok h).exists_offsets
  refine ⟨offset, hoffset.strictMono, fun i => ⟨hoffset.lt_length i, ?_, ?_⟩, hoffset.gap,
    hoffset.gap_nil⟩
  · rw [hoffset.location, Location.after_start]
  · obtain ⟨later, hlater, hlexemes⟩ := (hoffset.tokens i).elsewhere .start
    refine ⟨later, ?_, hlexemes⟩
    rw [tokenize, String.toList_ofList]
    exact hlater.eq_ok

/-- A type goes over a comment and a line break to its star; the name behind it is found again by
itself. -/
theorem tokenize_local_pointer :
    ∃ offset : Fin 2 → ℕ, offset 0 < offset 1 ∧
      Location.behind ("// a\nconst float /*\n*/ * x".toList.take (offset 1)) = ⟨3, 6⟩ ∧
      ∃ later, tokenize .none
          (String.ofList ("// a\nconst float /*\n*/ * x".toList.drop (offset 1))) = .ok later ∧
        later.map Token.lexeme = [.atom (.identifier "x")] := by
  have htokens : tokenize .none "// a\nconst float /*\n*/ * x"
      = .ok [⟨.atom (.vartype ⟨⟨6⟩, true, 1⟩), ⟨2, 1⟩⟩, ⟨.atom (.identifier "x"), ⟨3, 6⟩⟩] := by
    cbv
  obtain ⟨offset, hmono, hoffset, -⟩ := tokenize_local htokens
  obtain ⟨-, hplace, hlater⟩ := hoffset 1
  exact ⟨offset, hmono (show (0 : Fin 2) < 1 by decide), hplace.symm, hlater⟩

end KernelTree
