import Mathlib
import KernelTree.Token.Scan

/-!
# Numerals and what stands behind them

A numeral that is read to its end is read alike with other text behind it, if that does not go on
with a letter or a digit, nor with a point behind digits alone (`Scan.number_append`). The text of a
whole number is read as the number (`Value.ofLiteral?_int`, `Value.ofLiteral?_long`), and it is such
a numeral if the number is not negative.
-/

namespace KernelTree

/-- The floating-point numbers. -/
def Value.isReal : Value → Bool
  | float _ => true
  | double _ => true
  | _ => false

/-! ### Rows of characters -/

/-- What comes next does not matter if it stops the row at once. -/
theorem takeWhile_append_stop {p : Char → Bool} {rest : List Char}
    (h : ∀ c ∈ rest.head?, p c = false) (text : List Char) :
    (text ++ rest).takeWhile p = text.takeWhile p := by
  induction text with
  | nil =>
    cases rest with
    | nil => rfl
    | cons c rest => simp [h c rfl]
  | cons c text ih => simp only [List.cons_append, List.takeWhile_cons, ih]

/-- A row is taken as a whole if all of it belongs to it and what comes next does not. -/
theorem takeWhile_append_all {p : Char → Bool} {text rest : List Char}
    (htext : ∀ c ∈ text, p c = true) (h : ∀ c ∈ rest.head?, p c = false) :
    (text ++ rest).takeWhile p = text := by
  rw [List.takeWhile_append_of_pos htext]
  cases rest with
  | nil => simp
  | cons c rest => simp [h c rfl]

namespace Scan

/-! ### Classes of characters -/

/-- Digits have no lower case. -/
theorem toLower_of_isDigit {c : Char} (h : c.isDigit = true) : c.toLower = c := by
  simp only [Char.isDigit, Bool.and_eq_true, decide_eq_true_eq, UInt32.le_iff_toNat_le,
    ge_iff_le] at h
  rw [Char.toLower, dif_neg]
  rintro ⟨hlow, -⟩
  have hlow : 'A'.val.toNat ≤ c.val.toNat := hlow
  have : '9'.val.toNat < 'A'.val.toNat := by decide
  omega

/-- Lower-casing gives nothing below the letters but what was there. -/
theorem eq_of_toLower {c d : Char} (hd : d.val.toNat < 'a'.val.toNat) (h : c.toLower = d) :
    c = d := by
  unfold Char.toLower at h
  split at h
  case isTrue hupper =>
    have hlow : 'A'.val.toNat ≤ c.val.toNat := hupper.1
    have hhigh : c.val.toNat ≤ 'Z'.val.toNat := hupper.2
    have hval : (c.val + ('a'.val - 'A'.val)).toNat = d.val.toNat :=
      congrArg (fun d => d.val.toNat) h
    rw [UInt32.toNat_add, show ('a'.val - 'A'.val).toNat = 32 from rfl,
      Nat.mod_eq_of_lt (by have : 'Z'.val.toNat = 90 := rfl; omega)] at hval
    have : 'a'.val.toNat = 97 := rfl
    have : 'A'.val.toNat = 65 := rfl
    omega
  case isFalse => exact h

/-- What does not go on with a word is no digit. -/
theorem isDigit_of_not_wordPart {c : Char} (h : isWordPart c = false) : c.isDigit = false := by
  simp only [isWordPart, Char.isAlphanum, Bool.or_eq_false_iff] at h
  exact h.1.2

/-- What does not go on with a word is no mark of a type. -/
theorem isSuffix_of_not_wordPart {c : Char} (h : isWordPart c = false) : isSuffix c = false := by
  rw [Bool.eq_false_iff]
  intro hc
  simp only [isSuffix, Bool.or_eq_true, decide_eq_true_eq] at hc
  rcases hc with ((((rfl | rfl) | rfl) | rfl) | rfl) | rfl <;> simp [isWordPart] at h

/-- What does not go on with a word is no digit of base sixteen: the letters among these do so. -/
theorem isHexDigit_of_not_wordPart {c : Char} (h : isWordPart c = false) :
    isHexDigit c = false := by
  rw [Bool.eq_false_iff]
  intro hc
  simp only [isHexDigit, Bool.or_eq_true, Bool.and_eq_true, decide_eq_true_eq, Char.le_def,
    UInt32.le_iff_toNat_le] at hc
  simp only [isWordPart, Char.isAlphanum, Char.isAlpha, Char.isUpper, Char.isLower,
    Bool.or_eq_false_iff, Bool.and_eq_false_iff, decide_eq_false_iff_not, UInt32.le_iff_toNat_le,
    ge_iff_le] at h
  obtain ⟨⟨⟨hupper, hlower⟩, hdigit⟩, -⟩ := h
  rcases hc with (hc | hc) | hc
  · rw [hc] at hdigit
    cases hdigit
  · have : 'f'.val.toNat ≤ 'z'.val.toNat := by decide
    have : 'a'.val.toNat = UInt32.toNat 97 := rfl
    have : 'z'.val.toNat = UInt32.toNat 122 := rfl
    omega
  · have : 'F'.val.toNat ≤ 'Z'.val.toNat := by decide
    have : 'A'.val.toNat = UInt32.toNat 65 := rfl
    have : 'Z'.val.toNat = UInt32.toNat 90 := rfl
    omega

variable {rest : List Char}

/-! ### Parts of a numeral -/

/-- The fraction ends where no digit comes next, and there is none if no point does. -/
theorem fractionPart_append {text : List Char} (h : ∀ c ∈ rest.head?, isWordPart c = false)
    (hdot : text = [] → rest.head? ≠ some '.') :
    fractionPart (text ++ rest) = fractionPart text := by
  cases text with
  | nil =>
    cases rest with
    | nil => rfl
    | cons c rest =>
      have hc : c ≠ '.' := by simpa using hdot rfl
      simp [fractionPart, hc]
  | cons c text =>
    by_cases hc : c = '.'
    · subst hc
      simp only [List.cons_append, fractionPart]
      rw [takeWhile_append_stop fun c hc => isDigit_of_not_wordPart (h c hc)]
    · simp [fractionPart, hc]

/-- An exponent is not found in what stands behind a numeral; a lone `e` would be one if digits
came behind it. -/
theorem exponentPart_append {text : List Char} (h : ∀ c ∈ rest.head?, isWordPart c = false)
    (he : text.tail = [] → ∀ c ∈ text.head?, c ≠ 'e' ∧ c ≠ 'E') :
    exponentPart (text ++ rest) = exponentPart text := by
  have hstop : ∀ c ∈ rest.head?, Char.isDigit c = false :=
    fun c hc => isDigit_of_not_wordPart (h c hc)
  cases text with
  | nil =>
    cases rest with
    | nil => rfl
    | cons c rest =>
      have hc : ¬ (c = 'e' ∨ c = 'E') := by
        have := h c rfl
        rintro (rfl | rfl) <;> simp [isWordPart] at this
      simp [exponentPart, hc]
  | cons c text =>
    cases text with
    | nil =>
      have hc : ¬ (c = 'e' ∨ c = 'E') := by simpa using he rfl c rfl
      simp [exponentPart, hc]
    | cons d text =>
      -- The sign is looked for in the next character only, and there is one before the rest.
      have hsign : signPart (d :: text ++ rest) = signPart (d :: text) := by simp [signPart]
      have hlength : (signPart (d :: text)).length ≤ (d :: text).length := by
        have := List.length_filter_le (fun c => decide (c = '+') || decide (c = '-'))
          ((d :: text).take 1)
        simp only [signPart, List.length_take, List.length_cons] at this ⊢
        omega
      rw [List.cons_append, exponentPart, exponentPart, hsign,
        List.drop_append_of_le_length hlength, takeWhile_append_stop hstop]

/-- The fraction is at the front. -/
theorem fractionPart_isFront (text : List Char) : fractionPart text <+: text := by
  unfold fractionPart
  split
  · exact List.cons_prefix_cons.mpr ⟨rfl, List.takeWhile_prefix _⟩
  · exact List.nil_prefix

/-- Digits, point and exponent end where they would end with nothing behind them, unless digits
behind them make an exponent of a last `e`. -/
theorem decimalPart_append {text : List Char} (h : ∀ c ∈ rest.head?, isWordPart c = false)
    (hdot : (∀ c ∈ text, c.isDigit = true) → rest.head? ≠ some '.')
    (he : ∀ c, text = decimalPart text ++ [c] → c ≠ 'e' ∧ c ≠ 'E') :
    decimalPart (text ++ rest) = decimalPart text := by
  have hstop : ∀ c ∈ rest.head?, Char.isDigit c = false :=
    fun c hc => isDigit_of_not_wordPart (h c hc)
  have hwhole : text.takeWhile Char.isDigit ++ text.drop (text.takeWhile Char.isDigit).length
      = text := List.prefix_iff_eq_append.mp (List.takeWhile_prefix _)
  revert he
  unfold decimalPart
  rw [takeWhile_append_stop hstop]
  -- From here on the numeral is taken apart: what comes before the point, the fraction and the
  -- rest.
  generalize hw : text.takeWhile Char.isDigit = whole at hwhole ⊢
  intro he
  have hfraction : fractionPart (text.drop whole.length ++ rest)
      = fractionPart (text.drop whole.length) := by
    refine fractionPart_append h fun hnil => hdot ?_
    rw [hnil, List.append_nil] at hwhole
    rw [← hwhole, ← hw]
    exact List.all_eq_true.mp List.all_takeWhile
  have hfront := List.prefix_iff_eq_append.mp (fractionPart_isFront (text.drop whole.length))
  have hlength : whole.length ≤ text.length := by
    rw [← hwhole, List.length_append]
    omega
  dsimp only at he ⊢
  rw [List.drop_append_of_le_length hlength, hfraction]
  generalize fractionPart (text.drop whole.length) = fraction at hfront he ⊢
  rw [List.drop_drop] at hfront
  have hlength' : whole.length + fraction.length ≤ text.length := by
    have := congrArg List.length hwhole
    have := congrArg List.length hfront
    simp only [List.length_append] at *
    omega
  rw [List.drop_append_of_le_length hlength', exponentPart_append h]
  intro htail c hc
  refine he c ?_
  have hlone : text.drop (whole.length + fraction.length) = [c] := by
    obtain ⟨tail, hcons⟩ := List.head?_eq_some_iff.mp hc
    rw [hcons] at htail ⊢
    rw [show tail = [] from htail]
  have hnone : exponentPart [c] = [] := by simp [exponentPart]
  rw [hlone, hnone, List.append_nil]
  calc text = whole ++ text.drop whole.length := hwhole.symm
    _ = whole ++ (fraction ++ text.drop (whole.length + fraction.length)) := by rw [hfront]
    _ = whole ++ fraction ++ [c] := by rw [hlone, List.append_assoc]

/-- A numeral that does not begin with the mark for base sixteen is decimal. -/
theorem numberPart_decimal {text : List Char}
    (h : ∀ tail, text ≠ '0' :: 'x' :: tail ∧ text ≠ '0' :: 'X' :: tail) :
    numberPart text = decimalPart text :=
  numberPart.eq_3 text (fun tail => (h tail).1) fun tail => (h tail).2

/-- The digits of a numeral end where they would end with nothing behind it, whatever their base. -/
theorem numberPart_append {text : List Char} (htext : number text = text)
    (h : ∀ c ∈ rest.head?, isWordPart c = false)
    (hdot : (∀ c ∈ text, c.isDigit = true) → rest.head? ≠ some '.') :
    numberPart (text ++ rest) = numberPart text := by
  -- The mark for base sixteen stands within the numeral or not at all, since no letter comes next.
  by_cases hhex : ∃ tail, text = '0' :: 'x' :: tail ∨ text = '0' :: 'X' :: tail
  · have hstop : ∀ c ∈ rest.head?, isHexDigit c = false :=
      fun c hc => isHexDigit_of_not_wordPart (h c hc)
    obtain ⟨tail, rfl | rfl⟩ := hhex <;>
      simp only [List.cons_append, numberPart, takeWhile_append_stop hstop]
  · have hdecimal (tail : List Char) :
        text ++ rest ≠ '0' :: 'x' :: tail ∧ text ++ rest ≠ '0' :: 'X' :: tail := by
      rcases text with _ | ⟨a, _ | ⟨b, text⟩⟩
      · constructor <;> rintro rfl <;> simp [isWordPart] at h
      · constructor <;> intro heq <;> obtain ⟨rfl, rfl⟩ := List.cons.inj heq <;>
          simp [isWordPart] at h
      · constructor <;> intro heq <;> refine hhex ⟨text, ?_⟩ <;> simp_all
    have hself (tail : List Char) : text ≠ '0' :: 'x' :: tail ∧ text ≠ '0' :: 'X' :: tail :=
      ⟨fun heq => hhex ⟨tail, .inl heq⟩, fun heq => hhex ⟨tail, .inr heq⟩⟩
    have hpart := numberPart_decimal hself
    rw [numberPart_decimal hdecimal, hpart]
    refine decimalPart_append h hdot fun c hc => ?_
    -- A last character behind the digits is a mark for the type.
    have hsuffix : [c].takeWhile isSuffix = [c] := by
      have hdrop : text.drop (decimalPart text).length = [c] := by
        generalize decimalPart text = front at hc
        rw [hc]
        simp
      rw [number, hpart, hdrop] at htext
      exact List.append_cancel_left (htext.trans hc)
    have : isSuffix c = true := by
      cases hs : isSuffix c with
      | true => rfl
      | false => simp [hs] at hsuffix
    constructor <;> rintro rfl <;> simp [isSuffix] at this

/-- A numeral that is read to its end is read alike with other text behind it. -/
theorem number_append {text : List Char} (htext : number text = text)
    (h : ∀ c ∈ rest.head?, isWordPart c = false)
    (hdot : (∀ c ∈ text, c.isDigit = true) → rest.head? ≠ some '.') :
    number (text ++ rest) = text := by
  have hlength : (numberPart text).length ≤ text.length := by
    have := congrArg List.length htext
    simp only [number, List.length_append] at this
    omega
  have hpart := numberPart_append htext h hdot
  have hsuffix : ∀ c ∈ rest.head?, isSuffix c = false :=
    fun c hc => isSuffix_of_not_wordPart (h c hc)
  rw [number, hpart, List.drop_append_of_le_length hlength, takeWhile_append_stop hsuffix]
  exact htext

/-- The marks of a type are no part of the digits. -/
theorem of_isSuffix {c : Char} (h : isSuffix c = true) :
    c.isDigit = false ∧ c ≠ '.' ∧ c ≠ '0' ∧ c ∉ ['e', 'E', 'x', 'X'] := by
  simp only [isSuffix, Bool.or_eq_true, decide_eq_true_eq] at h
  rcases h with ((((rfl | rfl) | rfl) | rfl) | rfl) | rfl <;> decide

/-- Marks for the type are no part of the digits. -/
theorem decimalPart_whole {digits marks : List Char} (hdigits : ∀ c ∈ digits, c.isDigit = true)
    (hmarks : ∀ c ∈ marks, isSuffix c = true) : decimalPart (digits ++ marks) = digits := by
  have hmark (c : Char) (hc : c ∈ marks.head?) := of_isSuffix (hmarks c (List.mem_of_mem_head? hc))
  have hfraction : fractionPart marks = [] := by
    cases marks with
    | nil => rfl
    | cons c marks =>
      have := (hmark c rfl).2.1
      simp [fractionPart, this]
  have hexponent : exponentPart marks = [] := by
    cases marks with
    | nil => rfl
    | cons c marks =>
      have hc : ¬ (c = 'e' ∨ c = 'E') := by
        have := (hmark c rfl).2.2.2
        simp_all
      simp [exponentPart, hc]
  unfold decimalPart
  rw [takeWhile_append_all hdigits fun c hc => (hmark c hc).1]
  simp [hfraction, hexponent]

/-- A whole number and the marks for its type are read to their end. -/
theorem number_whole {digits marks : List Char} (hdigits : ∀ c ∈ digits, c.isDigit = true)
    (hmarks : ∀ c ∈ marks, isSuffix c = true) : number (digits ++ marks) = digits ++ marks := by
  have hmark (c : Char) (hc : c ∈ marks.head?) := of_isSuffix (hmarks c (List.mem_of_mem_head? hc))
  -- Neither a digit nor a mark is the `x` of a hexadecimal number.
  have hsecond (x : Char) (hx : x ∈ ['x', 'X']) (tail : List Char) :
      digits ++ marks ≠ '0' :: x :: tail := by
    intro heq
    rcases digits with _ | ⟨a, _ | ⟨b, digits⟩⟩
    · exact (hmark '0' (by rw [← List.nil_append marks, heq]; rfl)).2.2.1 rfl
    · have hc : marks.head? = some x := congrArg List.head? (List.cons.inj heq).2
      have hother := (hmark x hc).2.2.2
      simp_all
    · have hdigit := hdigits b (by simp)
      obtain ⟨rfl, -⟩ : b = x ∧ _ := List.cons.inj (List.cons.inj heq).2
      simp only [List.mem_cons, List.not_mem_nil, or_false] at hx
      rcases hx with rfl | rfl <;> cases hdigit
  have hpart : numberPart (digits ++ marks) = digits := by
    rw [numberPart_decimal fun tail => ⟨hsecond 'x' (by simp) tail, hsecond 'X' (by simp) tail⟩,
      decimalPart_whole hdigits hmarks]
  have hsuffix : (marks ++ []).takeWhile isSuffix = marks :=
    takeWhile_append_all hmarks (by simp)
  rw [List.append_nil] at hsuffix
  rw [number, hpart, List.drop_left, hsuffix]

/-! ### Characters of a numeral -/

/-- A fraction is made of digits and a point. -/
theorem mem_fractionPart {c : Char} {text : List Char} (h : c ∈ fractionPart text) :
    c.isDigit = true ∨ c = '.' := by
  unfold fractionPart at h
  split at h
  · rcases List.mem_cons.mp h with rfl | h
    · exact .inr rfl
    · exact .inl (List.all_eq_true.mp List.all_takeWhile c h)
  · cases h

/-- An exponent begins with its letter, with a sign and digits behind it. -/
theorem exponentPart_cases (text : List Char) :
    exponentPart text = [] ∨ ∃ e sign digits, exponentPart text = e :: sign ++ digits ∧
      (e = 'e' ∨ e = 'E') ∧ (∀ c ∈ sign, c = '+' ∨ c = '-') ∧ ∀ c ∈ digits, c.isDigit = true := by
  cases text with
  | nil => exact .inl rfl
  | cons e text =>
    rw [exponentPart]
    split
    case isTrue h =>
      refine .inr ⟨e, _, _, rfl, h.1, ?_, List.all_eq_true.mp List.all_takeWhile⟩
      intro c hc
      simpa [signPart] using (List.mem_filter.mp hc).2
    case isFalse => exact .inl rfl

/-- A numeral is hexadecimal or decimal. -/
theorem numberPart_cases (text : List Char) :
    (∃ x tail, numberPart text = '0' :: x :: tail ∧ (x = 'x' ∨ x = 'X') ∧
      ∀ c ∈ tail, isHexDigit c = true) ∨ numberPart text = decimalPart text := by
  unfold numberPart
  split
  · exact .inl ⟨'x', _, rfl, .inl rfl, List.all_eq_true.mp List.all_takeWhile⟩
  · exact .inl ⟨'X', _, rfl, .inr rfl, List.all_eq_true.mp List.all_takeWhile⟩
  · exact .inr rfl

/-- A decimal numeral is made of digits, a point and an exponent. -/
theorem mem_decimalPart {c : Char} {text : List Char} (h : c ∈ decimalPart text) :
    c.isDigit = true ∨ c ∈ ['.', 'e', 'E', '+', '-'] := by
  unfold decimalPart at h
  dsimp only at h
  rcases List.mem_append.mp h with h | h
  · rcases List.mem_append.mp h with h | h
    · exact .inl (List.all_eq_true.mp List.all_takeWhile c h)
    · rcases mem_fractionPart h with h | rfl
      · exact .inl h
      · exact .inr (by decide)
  · rcases exponentPart_cases _ with hnone | ⟨e, sign, digits, heq, he, hsign, hdigits⟩
    · rw [hnone] at h
      cases h
    · rw [heq, List.cons_append, List.mem_cons, List.mem_append] at h
      rcases h with rfl | h | h
      · rcases he with rfl | rfl <;> exact .inr (by decide)
      · rcases hsign c h with rfl | rfl <;> exact .inr (by decide)
      · exact .inl (hdigits c h)

/-- A minus in a decimal numeral stands in its exponent. -/
theorem exponent_of_minus {text : List Char} (h : '-' ∈ decimalPart text) :
    'e' ∈ decimalPart text ∨ 'E' ∈ decimalPart text := by
  unfold decimalPart at h ⊢
  dsimp only at h ⊢
  rcases exponentPart_cases (text.drop ((text.takeWhile Char.isDigit).length +
      (fractionPart (text.drop (text.takeWhile Char.isDigit).length)).length)) with
    hnone | ⟨e, sign, digits, heq, he, -⟩
  · rw [hnone, List.append_nil] at h
    rcases List.mem_append.mp h with h | h
    · cases List.all_eq_true.mp List.all_takeWhile _ h
    · rcases mem_fractionPart h with h | h <;> cases h
  · rw [heq]
    rcases he with rfl | rfl <;> simp

/-- A numeral with a minus in it has an exponent and is not hexadecimal. -/
theorem number_minus {text : List Char} (h : '-' ∈ number text) :
    ('e' ∈ number text ∨ 'E' ∈ number text) ∧ ∀ c ∈ number text, c.toLower ≠ 'x' := by
  have hmarks : ∀ c ∈ (text.drop (numberPart text).length).takeWhile isSuffix,
      isSuffix c = true := List.all_eq_true.mp List.all_takeWhile
  rw [number] at h ⊢
  generalize (text.drop (numberPart text).length).takeWhile isSuffix = marks at h hmarks ⊢
  have hpart : '-' ∈ numberPart text :=
    (List.mem_append.mp h).resolve_right fun hc => by cases hmarks _ hc
  -- Base sixteen has no sign in it, so the minus is that of an exponent.
  rcases numberPart_cases text with ⟨x, tail, heq, hx, hhex⟩ | heq
  · rw [heq, List.mem_cons, List.mem_cons] at hpart
    rcases hpart with hpart | rfl | hpart
    · cases hpart
    · rcases hx with hx | hx <;> cases hx
    · cases hhex _ hpart
  · rw [heq] at hpart ⊢
    constructor
    · exact (exponent_of_minus hpart).imp (List.mem_append_left marks) (List.mem_append_left marks)
    · intro c hc
      rcases List.mem_append.mp hc with hc | hc
      · rcases mem_decimalPart hc with hc | hc
        · rw [toLower_of_isDigit hc]
          rintro rfl
          cases hc
        · simp only [List.mem_cons, List.not_mem_nil, or_false] at hc
          rcases hc with rfl | rfl | rfl | rfl | rfl <;> decide
      · have hc := hmarks c hc
        simp only [isSuffix, Bool.or_eq_true, decide_eq_true_eq] at hc
        rcases hc with ((((rfl | rfl) | rfl) | rfl) | rfl) | rfl <;> decide

end Scan

/-! ### Whole numbers -/

namespace Value

/-- A digit stands for its distance from zero. -/
theorem digit?_of_isDigit {c : Char} (h : c.isDigit = true) :
    digit? 10 c = some (c.toNat - '0'.toNat) := by
  simp only [Char.isDigit, Bool.and_eq_true, decide_eq_true_eq, UInt32.le_iff_toNat_le,
    ge_iff_le] at h
  have hrange : '0' ≤ c ∧ c ≤ '9' := by
    simp only [Char.le_def, UInt32.le_iff_toNat_le]
    exact h
  have hlt : c.toNat - '0'.toNat < 10 := by
    have : c.toNat = c.val.toNat := rfl
    have : '9'.val.toNat = '0'.toNat + 9 := rfl
    omega
  simp only [digit?, if_pos hrange, if_pos hlt]

/-- Digits are read as the number that they write. -/
theorem natural?_digits {digits : List Char} (h : ∀ c ∈ digits, c.isDigit = true) :
    natural? 10 digits = some (Nat.ofDigitChars 10 digits 0) := by
  have hfrom (n : Nat) : List.foldlM (fun n c => (digit? 10 c).map (10 * n + ·)) n digits
      = some (Nat.ofDigitChars 10 digits n) := by
    induction digits generalizing n with
    | nil => rfl
    | cons c digits ih =>
      rw [List.foldlM_cons, digit?_of_isDigit (h c (by simp))]
      exact ih (fun d hd => h d (List.mem_cons_of_mem c hd)) _
  exact hfrom 0

/-- Digits have no sign in front. -/
theorem splitSign_digits {digits : List Char} (h : ∀ c ∈ digits, c.isDigit = true) :
    Numeral.splitSign digits = (false, digits) := by
  unfold Numeral.splitSign
  split
  · cases h '-' (by simp)
  · cases h '+' (by simp)
  · rfl

/-- An integer is written as its digits, behind a minus if it is negative. -/
theorem toString_toList (i : Int) :
    (toString i).toList = (if i < 0 then ['-'] else []) ++ Nat.toDigits 10 i.natAbs := by
  show (Int.repr i).toList = _
  rw [Int.repr_eq_if]
  by_cases hneg : i < 0
  · have habs : (-i).toNat = i.natAbs := by omega
    simp [Int.not_le.mpr hneg, hneg, habs, Nat.repr_eq_ofList_toDigits]
  · have habs : i.toNat = i.natAbs := by omega
    simp [Int.not_lt.mp hneg, hneg, habs, Nat.repr_eq_ofList_toDigits]

/-- An integer is written with digits and a minus. -/
theorem mem_toString {i : Int} {c : Char} (h : c ∈ (toString i).toList) :
    c.isDigit = true ∨ c = '-' := by
  rw [toString_toList, List.mem_append] at h
  rcases h with h | h
  · split at h
    · exact .inr (List.mem_singleton.mp h)
    · cases h
  · exact .inl (Nat.isDigit_of_mem_toDigits (by decide) (by decide) h)

/-- The text of an integer comes apart into its sign and its digits. -/
theorem splitSign_toString (i : Int) :
    Numeral.splitSign (toString i).toList = (decide (i < 0), Nat.toDigits 10 i.natAbs) := by
  rw [toString_toList]
  by_cases hneg : i < 0
  · rw [if_pos hneg, decide_eq_true hneg]
    rfl
  · rw [if_neg hneg, decide_eq_false hneg]
    exact splitSign_digits fun c hc => Nat.isDigit_of_mem_toDigits (by decide) (by decide) hc

/-- The text of an integer of 64 bits is read as the integer: it is within the bounds. -/
theorem int64?_toString (n : Int64) : int64? 10 (toString n.toInt).toList = some n := by
  have hvalue : natural? 10 (Nat.toDigits 10 n.toInt.natAbs) = some n.toInt.natAbs := by
    rw [natural?_digits fun c hc => Nat.isDigit_of_mem_toDigits (by decide) (by decide) hc,
      Nat.ofDigitChars_toDigits (by decide) (by decide)]
  have hsigned : (if decide (n.toInt < 0) = true then -(n.toInt.natAbs : Int) else n.toInt.natAbs)
      = n.toInt := by
    simp only [decide_eq_true_eq]
    split <;> omega
  have hrange : Int64.minValue.toInt ≤ n.toInt ∧ n.toInt ≤ Int64.maxValue.toInt :=
    ⟨Int64.minValue_le_toInt n, Int64.toInt_le n⟩
  simp only [int64?, splitSign_toString, Nat.toDigits_ne_nil, if_false, hvalue, hsigned,
    Option.bind_eq_bind, Option.bind_some, hrange, and_self, if_true, Int64.ofInt_toInt]

/-- Marks at the end are dropped up to the first character that is none. -/
theorem dropTrailing_append {p : Char → Bool} {front back : List Char}
    (hback : ∀ c ∈ back, p c = true) (hfront : ∀ c ∈ front.getLast?, p c = false) :
    dropTrailing p (front ++ back) = front := by
  rw [dropTrailing, List.reverse_append, List.dropWhile_append_of_pos (by simpa using hback)]
  have hstop : front.reverse.dropWhile p = front.reverse := by
    cases hrev : front.reverse with
    | nil => rfl
    | cons c rest =>
      have hlast : c ∈ front.getLast? := by
        rw [← List.head?_reverse, hrev]
        rfl
      simp [hfront c hlast]
  rw [hstop, List.reverse_reverse]

/-- Digits and signs with perhaps an `L` behind them are read as a whole number. -/
theorem ofLiteral?_signed {digits : List Char} (h : ∀ c ∈ digits, c.isDigit = true ∨ c = '-')
    (isLong : Bool) :
    ofLiteral? (digits ++ if isLong then ['L'] else [])
      = whole? false (digits ++ if isLong then ['l'] else []) := by
  have hlower : (digits ++ if isLong then ['L'] else []).map Char.toLower
      = digits ++ if isLong then ['l'] else [] := by
    have hsame : ∀ c ∈ digits, c.toLower = c := by
      intro c hc
      rcases h c hc with hc | rfl
      · exact Scan.toLower_of_isDigit hc
      · rfl
    have hdigits : digits.map Char.toLower = digits :=
      (List.map_congr_left (g := id) hsame).trans (List.map_id digits)
    rw [List.map_append, hdigits]
    cases isLong <;> rfl
  have hmem : ∀ c ∈ digits ++ if isLong then ['l'] else [],
      c.isDigit = true ∨ c = '-' ∨ c = 'l' := by
    intro c hc
    rcases List.mem_append.mp hc with hc | hc
    · exact (h c hc).imp_right .inl
    · cases isLong <;> simp_all
  have habsent (c : Char) (hc : ¬ (c.isDigit = true ∨ c = '-' ∨ c = 'l')) :
      c ∉ digits ++ if isLong then ['l'] else [] := fun hin => hc (hmem c hin)
  -- Neither a point nor an `e` makes a floating-point number of it, and no `x` a hexadecimal one.
  have hhex : "0x".toList.isPrefixOf (digits ++ if isLong then ['l'] else []) = false := by
    rw [Bool.eq_false_iff, ne_eq, List.isPrefixOf_iff_prefix]
    exact fun hfront => habsent 'x' (by decide) (hfront.subset (by decide))
  have hpoint : (digits ++ if isLong then ['l'] else []).contains '.' = false := by
    rw [Bool.eq_false_iff, ne_eq, List.contains_iff_mem]
    exact habsent '.' (by decide)
  have hexponent : (digits ++ if isLong then ['l'] else []).contains 'e' = false := by
    rw [Bool.eq_false_iff, ne_eq, List.contains_iff_mem]
    exact habsent 'e' (by decide)
  simp only [ofLiteral?, hlower, hhex, hpoint, hexponent, Bool.or_self, Bool.and_false,
    Bool.false_eq_true, if_false]

/-- A whole number is wide if it is marked so or does not fit into 32 bits. -/
theorem whole?_toString (n : Int64) (isLong : Bool) :
    whole? false ((toString n.toInt).toList ++ if isLong then ['l'] else [])
      = some (if isLong ∨ n ≠ n.toInt32.toInt64 then long n else int n.toInt32) := by
  have hdrop : dropTrailing (fun c => c = 'u' || c = 'l')
      ((toString n.toInt).toList ++ if isLong then ['l'] else []) = (toString n.toInt).toList := by
    refine dropTrailing_append (by cases isLong <;> simp) fun c hc => ?_
    rcases mem_toString (List.mem_of_getLast? hc) with hdigit | rfl
    · cases hl : (decide (c = 'u') || decide (c = 'l')) with
      | false => rfl
      | true =>
        rcases by simpa using hl with rfl | rfl <;> cases hdigit
    · decide
  have hcontains : (if isLong then ['l'] else []).contains 'l' = isLong := by
    cases isLong <;> rfl
  simp only [whole?, hdrop, Bool.false_eq_true, if_false, int64?_toString, List.drop_left,
    hcontains, Option.bind_eq_bind, Option.bind_some]
  by_cases hlong : isLong = true ∨ n ≠ n.toInt32.toInt64
  · rw [if_pos hlong, if_pos hlong]
  · rw [if_neg hlong, if_neg hlong]

/-- A whole number of 32 bits is read as it is written. -/
theorem ofLiteral?_int (n : Int32) : ofLiteral? (int n).render.toList = some (int n) := by
  have hsigned := ofLiteral?_signed (fun c => mem_toString (i := n.toInt64.toInt) (c := c)) false
  have hwhole := hsigned.trans (whole?_toString n.toInt64 false)
  rw [Int32.toInt_toInt64] at hwhole
  simpa [render, Int32.toInt32_toInt64] using hwhole

/-- A whole number of 64 bits is written with its mark. -/
theorem render_long (n : Int64) :
    (long n).render.toList = (toString n.toInt).toList ++ ['L'] := String.toList_append

/-- A whole number of 64 bits is marked by an `L`, and it is read as it is written. -/
theorem ofLiteral?_long (n : Int64) : ofLiteral? (long n).render.toList = some (long n) := by
  have hsigned := ofLiteral?_signed (fun c => mem_toString (i := n.toInt) (c := c)) true
  rw [render_long]
  simpa using hsigned.trans (whole?_toString n true)

/-! ### Constants that were read -/

/-- Without a minus no number is negative. -/
theorem int64?_nonneg {base : Nat} {text : List Char} {n : Int64} (hminus : '-' ∉ text)
    (h : int64? base text = some n) : 0 ≤ n.toInt := by
  obtain ⟨digits, hsplit⟩ : ∃ digits, Numeral.splitSign text = (false, digits) := by
    unfold Numeral.splitSign
    split
    · simp at hminus
    · exact ⟨_, rfl⟩
    · exact ⟨_, rfl⟩
  simp only [int64?, hsplit, Bool.false_eq_true, if_false, Option.bind_eq_bind] at h
  split at h
  · cases h
  · obtain ⟨m, -, h⟩ := Option.bind_eq_some_iff.mp h
    split at h
    case isTrue hrange =>
      obtain rfl := Option.some.inj h
      rw [Int64.toInt_ofInt_of_le hrange.1 (Int.lt_of_le_of_lt hrange.2 (by decide))]
      omega
    case isFalse => cases h

/-- The whole numbers that are not negative. -/
def IsNatural (v : Value) : Prop :=
  (∃ n : Int32, v = int n ∧ 0 ≤ n.toInt) ∨ ∃ n : Int64, v = long n ∧ 0 ≤ n.toInt

/-- What is left after dropping marks was there before. -/
theorem mem_of_mem_dropTrailing {p : Char → Bool} {c : Char} {text : List Char}
    (h : c ∈ dropTrailing p text) : c ∈ text := by
  rw [dropTrailing, List.mem_reverse] at h
  exact List.mem_reverse.mp ((List.dropWhile_suffix p).subset h)

/-- A whole number without a minus is not negative, of either width. -/
theorem whole?_isNatural {isHex : Bool} {text : List Char} {v : Value} (hminus : '-' ∉ text)
    (h : whole? isHex text = some v) : IsNatural v := by
  have hdigits : '-' ∉ dropTrailing (fun c => c = 'u' || c = 'l') text :=
    fun hc => hminus (mem_of_mem_dropTrailing hc)
  obtain ⟨n, hnonneg, h⟩ : ∃ n : Int64, 0 ≤ n.toInt ∧
      (if (text.drop (dropTrailing (fun c => c = 'u' || c = 'l') text).length).contains 'l' = true ∨
        n ≠ n.toInt32.toInt64 then some (long n) else some (int n.toInt32)) = some v := by
    simp only [whole?, Option.bind_eq_bind] at h
    cases isHex with
    | true =>
      obtain ⟨n, hn, h⟩ := Option.bind_eq_some_iff.mp h
      exact ⟨n, int64?_nonneg (fun hc => hdigits (List.mem_of_mem_drop hc)) hn, h⟩
    | false =>
      obtain ⟨n, hn, h⟩ := Option.bind_eq_some_iff.mp h
      exact ⟨n, int64?_nonneg hdigits hn, h⟩
  split at h
  case isTrue =>
    obtain rfl := Option.some.inj h
    exact .inr ⟨n, rfl, hnonneg⟩
  case isFalse hshort =>
    obtain rfl := Option.some.inj h
    have hback : n = n.toInt32.toInt64 := Decidable.not_not.mp fun hne => hshort (.inr hne)
    refine .inl ⟨n.toInt32, rfl, ?_⟩
    rw [← Int32.toInt_toInt64, ← hback]
    exact hnonneg

/-- A numeral with a point, an exponent or their mark is a floating-point number. -/
theorem floating?_isReal {text : List Char} {v : Value} (h : floating? text = some v) :
    v.isReal = true := by
  unfold floating? at h
  split at h <;> obtain ⟨x, -, rfl⟩ := Option.map_eq_some_iff.mp h <;> rfl

/-- A numeral is read as a whole number that is not negative or as a floating-point number. -/
theorem ofLiteral?_number {text : List Char} {v : Value}
    (h : ofLiteral? (Scan.number text) = some v) : IsNatural v ∨ v.isReal = true := by
  rw [ofLiteral?] at h
  split at h
  case isTrue => exact .inr (floating?_isReal h)
  case isFalse hwhole =>
    refine .inl (whole?_isNatural (fun hc => hwhole ?_) h)
    -- A sign stands in an exponent only, and there is none in a whole number.
    obtain ⟨c, hc, hlower⟩ := List.mem_map.mp hc
    obtain rfl := Scan.eq_of_toLower (by decide) hlower
    obtain ⟨hexponent, hx⟩ := Scan.number_minus hc
    have hhex : "0x".toList.isPrefixOf ((Scan.number text).map Char.toLower) = false := by
      rw [Bool.eq_false_iff, ne_eq, List.isPrefixOf_iff_prefix]
      intro hfront
      obtain ⟨c, hc, hcx⟩ := List.mem_map.mp (hfront.subset (show 'x' ∈ "0x".toList by decide))
      exact hx c hc hcx
    have he : ((Scan.number text).map Char.toLower).contains 'e' = true := by
      rw [List.contains_iff_mem]
      rcases hexponent with he | he
      · exact List.mem_map.mpr ⟨'e', he, by decide⟩
      · exact List.mem_map.mpr ⟨'E', he, by decide⟩
    rw [hhex, he, Bool.or_true]
    rfl

end Value

end KernelTree
