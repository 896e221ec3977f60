import KernelTree.Proofs.Expr.Relabel
import KernelTree.Token.Scan

/-!
# Reading tokens with names and without

Names matter to the scanner in two places: a word that names a type takes the pointers behind it
along, and a word that is nothing else becomes what it names. Where only the builtin types are
types, the first needs no names, so the tokens read with names are those read without, each
identifier replaced by what it names (`tokensAt_naming`).
-/

namespace KernelTree

namespace Naming

/-- The leaf that an identifier becomes; other leaves stay. -/
def relabel (names : Naming) (a : Atom) : Atom :=
  match a with
  | .identifier name => ((names name).map Atom.ofSymbol).getD a
  | a => a

/-- No name but those of the builtin types is known as a type. -/
def OnlyBuiltinTypes (names : Naming) : Prop :=
  ∀ name id, names name = some (.type id) → (TypeId.builtin? name).isSome

/-- The relabelling replaces an identifier by what it names. The names of the builtin types are
left out, since no identifier is called so. -/
structure Describes (names : Naming) (f : Atom → Atom) : Prop where
  identifier : ∀ name, (TypeId.builtin? name).isNone →
    f (.identifier name) = ((names name).map Atom.ofSymbol).getD (.identifier name)
  other : ∀ a, (∀ name, a ≠ .identifier name) → f a = a

/-- Replacing identifiers by what they name describes the meaning of names. -/
theorem describes_relabel (names : Naming) : names.Describes names.relabel where
  identifier _ _ := rfl
  other a h := by
    cases a with
    | identifier name => exact absurd rfl (h name)
    | _ => rfl

end Naming

namespace Scan

/-- The scan with another value. -/
def map {α β : Type} (g : α → β) (s : Scan α) : Scan β := ⟨g s.value, s.taken⟩

variable {names : Naming}

/-- Where only the builtin types are types, names do not matter for them. -/
theorem typeNamed?_naming (h : names.OnlyBuiltinTypes) (name : String) :
    typeNamed? names name = typeNamed? .none name := by
  unfold typeNamed?
  cases hb : TypeId.builtin? name with
  | some id => rfl
  | none =>
    have hn : ∀ id, names name ≠ some (.type id) := fun id hid => by
      simpa [hb] using h name id hid
    cases hs : names name with
    | none => rfl
    | some s =>
      cases s with
      | type id => exact absurd hs (hn id)
      | _ => rfl

/-- A type behind `const` is read alike with and without names. -/
theorem constToken_naming (h : names.OnlyBuiltinTypes) (front rest : List Char) :
    constToken names front rest = constToken .none front rest := by
  simp only [constToken, typeWord?, typeNamed?_naming h]

/-- The scan of a token with its leaf passed through `f`. -/
def relabel (f : Atom → Atom) (s : Scan Lexeme) : Scan Lexeme := ⟨s.value.mapAtom f, s.taken⟩

variable {f : Atom → Atom}

/-- A scan that finds no identifier stays as it is. -/
theorem relabel_after {α : Type} (front : List Char) (k : α → Lexeme)
    (hk : ∀ a, (k a).mapAtom f = k a) (s : Scanned α) :
    (s.after front k).map (relabel f) = s.after front k := by
  cases s with
  | error e => rfl
  | ok s => simp [Scanned.after, Except.map, relabel, hk]

variable (hd : names.Describes f)

include hd

/-- Only identifiers are replaced. -/
theorem mapAtom_of_ne {a : Atom} (ha : ∀ name, a ≠ .identifier name) :
    (Lexeme.atom a).mapAtom f = .atom a :=
  congrArg Lexeme.atom (hd.other a ha)

/-- A scanned leaf that is no identifier is kept. -/
theorem relabel_of_ne {a : Atom} (ha : ∀ name, a ≠ .identifier name) (taken : List Char) :
    relabel f ⟨.atom a, taken⟩ = ⟨.atom a, taken⟩ :=
  congrArg (Scan.mk · taken) (mapAtom_of_ne hd ha)

/-- There is nothing to be replaced in a type behind `const`. -/
theorem relabel_constToken (front rest : List Char) :
    (constToken .none front rest).map (relabel f) = constToken .none front rest := by
  unfold constToken
  split
  · rfl
  · dsimp only
    split
    · rfl
    · rw [relabel_after _ _ fun depth => mapAtom_of_ne hd (by simp)]

/-- There is nothing to be replaced in a type. -/
theorem relabel_typeToken (base : TypeId) (front rest : List Char) :
    (typeToken base front rest).map (relabel f) = typeToken base front rest := by
  unfold typeToken
  rw [relabel_after _ _ fun depth => mapAtom_of_ne hd (by split <;> simp)]

/-- A word read with names is the word read without, an identifier replaced by what it names. -/
theorem wordToken_naming (h : names.OnlyBuiltinTypes) (text : List Char) :
    wordToken names text = (wordToken .none text).map (relabel f) := by
  unfold wordToken
  dsimp only
  rw [constToken_naming h, typeNamed?_naming h]
  split
  · rfl
  · split
    · rw [Except.map, relabel_of_ne hd (by simp)]
    · split
      · rw [Except.map, relabel_of_ne hd (by simp)]
      · split
        · exact (relabel_constToken hd _ _).symm
        · split
          case h_1 => exact (relabel_typeToken hd _ _ _).symm
          case h_2 hnone =>
            -- What names no type is no builtin type, and so it may be called otherwise.
            have hb : (TypeId.builtin? (String.ofList (word text))).isNone := by
              unfold typeNamed? at hnone
              split at hnone <;> simp_all
            rw [Except.map, relabel, Lexeme.mapAtom, ← hd.identifier _ hb]
            rfl

/-- There is nothing to be replaced in a quoted text. -/
theorem relabel_stringToken (rest : List Char) :
    (stringToken rest).map (relabel f) = stringToken rest := by
  unfold stringToken
  split
  · rfl
  · rw [Except.map, relabel_of_ne hd (by simp)]

/-- There is nothing to be replaced in a quoted character. -/
theorem relabel_charToken (rest : List Char) :
    (charToken rest).map (relabel f) = charToken rest := by
  unfold charToken
  split
  · rfl
  · rfl
  · rw [Except.map, relabel_of_ne hd (by simp)]

/-- There is nothing to be replaced in a number. -/
theorem relabel_numberToken (text : List Char) :
    (numberToken text).map (relabel f) = numberToken text := by
  unfold numberToken
  dsimp only
  split
  · rfl
  · rw [Except.map, relabel_of_ne hd (by simp)]

omit hd in
/-- There is nothing to be replaced in a symbol. -/
theorem relabel_symbolToken (c : Char) (rest : List Char) :
    (symbolToken c rest).map (relabel f) = symbolToken c rest := by
  unfold symbolToken
  split <;> rfl

/-- A token read with names is the token read without, an identifier replaced by what it names. -/
theorem token_naming (h : names.OnlyBuiltinTypes) (c : Char) (rest : List Char) :
    token names c rest = (token .none c rest).map (relabel f) := by
  -- The first characters decide which kind of token it is, whatever names mean.
  unfold token
  split
  · exact (relabel_stringToken hd rest).symm
  split
  · exact (relabel_charToken hd rest).symm
  split
  · exact (relabel_numberToken hd _).symm
  split
  · exact wordToken_naming hd h _
  · exact (relabel_symbolToken c rest).symm

end Scan

/-! ### Rows of tokens -/

section

variable {names : Naming} {start : Location} {text : List Char}

/-- A text has no tokens if a comment in front of them does not end. -/
theorem tokensAt_blanks_error {e : ScanFailure} (hb : Scan.blanks text = .error e) :
    tokensAt names start text = .error ⟨e.fault, start.after e.before⟩ := by
  rw [tokensAt, hb]

variable {gap : Scan Unit} (hb : Scan.blanks text = .ok gap)

include hb

/-- Behind the last token only blanks and comments are left. -/
theorem tokensAt_end (hend : text.drop gap.taken.length = []) :
    tokensAt names start text = .ok [] := by
  rw [tokensAt, hb]
  dsimp only
  split <;> simp_all

variable {c : Char} {rest : List Char} (hrest : text.drop gap.taken.length = c :: rest)

include hrest

/-- A text has no tokens if the first of them cannot be read. -/
theorem tokensAt_token_error {e : ScanFailure} (ht : Scan.token names c rest = .error e) :
    tokensAt names start text
      = .error ⟨e.fault, (start.after gap.taken).after e.before⟩ := by
  rw [tokensAt, hb]
  dsimp only
  split <;> simp_all

/-- The first token, and the tokens of what follows it. -/
theorem tokensAt_token {s : Scan Lexeme} (ht : Scan.token names c rest = .ok s) :
    tokensAt names start text
      = (tokensAt names ((start.after gap.taken).after s.taken)
          (rest.drop (s.taken.length - 1))).map (⟨s.value, start.after gap.taken⟩ :: ·) := by
  rw [tokensAt, hb]
  dsimp only
  split <;> simp_all

end

/-- Induction along the tokens of a text: the blanks in front may not end, the text may end behind
them, the token behind them may be no token, or it is one and the rest of the text follows. -/
@[elab_as_elim]
theorem tokensAt_induction (names : Naming) {motive : Location → List Char → Prop}
    (unclosed : ∀ start text e, Scan.blanks text = .error e → motive start text)
    (finish : ∀ start text gap, Scan.blanks text = .ok gap → text.drop gap.taken.length = [] →
      motive start text)
    (fault : ∀ start text gap c rest e, Scan.blanks text = .ok gap →
      text.drop gap.taken.length = c :: rest → Scan.token names c rest = .error e →
        motive start text)
    (token : ∀ start text gap c rest s, Scan.blanks text = .ok gap →
      text.drop gap.taken.length = c :: rest → Scan.token names c rest = .ok s →
        motive ((start.after gap.taken).after s.taken) (rest.drop (s.taken.length - 1)) →
          motive start text)
    (start : Location) (text : List Char) : motive start text := by
  refine tokensAt.induct names motive unclosed finish ?_ ?_ start text
  · intro start text gap hb c rest hrest e ht
    exact fault start text gap c rest e hb hrest ht
  · intro start text gap hb here c rest hrest s ht _ ih
    exact token start text gap c rest s hb hrest ht ih

/-- The tokens of a text read with names are those read without, each identifier replaced by what
it names; where the text has no tokens, the faults are the same. -/
theorem tokensAt_naming {names : Naming} {f : Atom → Atom} (hd : names.Describes f)
    (h : names.OnlyBuiltinTypes) (start : Location) (text : List Char) :
    tokensAt names start text
      = (tokensAt .none start text).map (List.map (Token.mapAtom f)) := by
  induction start, text using tokensAt_induction .none with
  | unclosed start text e hb => rw [tokensAt_blanks_error hb, tokensAt_blanks_error hb]; rfl
  | finish start text gap hb hend => rw [tokensAt_end hb hend, tokensAt_end hb hend]; rfl
  | fault start text gap c rest e hb hrest ht =>
    have ht' : Scan.token names c rest = .error e := by rw [Scan.token_naming hd h, ht]; rfl
    rw [tokensAt_token_error hb hrest ht', tokensAt_token_error hb hrest ht]
    rfl
  | token start text gap c rest s hb hrest ht ih =>
    have ht' : Scan.token names c rest = .ok (Scan.relabel f s) := by
      rw [Scan.token_naming hd h, ht]
      rfl
    rw [tokensAt_token hb hrest ht', tokensAt_token hb hrest ht]
    show Except.map _ (tokensAt names ((start.after gap.taken).after s.taken)
      (rest.drop (s.taken.length - 1))) = _
    rw [ih]
    cases tokensAt .none ((start.after gap.taken).after s.taken)
        (rest.drop (s.taken.length - 1)) with
    | error e => rfl
    | ok tokens => rfl

end KernelTree
