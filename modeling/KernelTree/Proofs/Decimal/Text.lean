import Mathlib
import KernelTree.Value.Text
import KernelTree.Proofs.Decimal.Shortest
import KernelTree.Proofs.Token.Numeral

/-!
# Decimals as numerals

Whether with an exponent or without, a decimal is written as a numeral of the same value
(`Decimal.exists_written`): digits, a point with digits behind it and an exponent, each where it is
needed (`Decimal.Written`). Such a numeral is scanned to its end and read as the decimal that it
writes.
-/

namespace KernelTree

namespace Decimal

/-- A numeral in its parts: digits, digits behind a point and an exponent. -/
structure Written where
  whole : List Char
  fraction : List Char
  exponent : Option ℤ
  whole_ne : whole ≠ []
  isDigit : ∀ c ∈ whole ++ fraction, c.isDigit = true

namespace Written

variable (w : Written)

/-- The point and the digits behind it. -/
def fractionText : List Char := if w.fraction = [] then [] else '.' :: w.fraction

/-- The exponent behind its letter. -/
def exponentText : List Char :=
  match w.exponent with
  | none => []
  | some e => 'e' :: (toString e).toList

/-- The numeral as it is written. -/
def text : List Char := w.whole ++ w.fractionText ++ w.exponentText

/-- The decimal that is written. -/
def decimal : Decimal :=
  ⟨Numeral.ofDigits (w.whole ++ w.fraction), w.exponent.getD 0 - w.fraction.length⟩

/-- There is a point or an exponent. -/
def IsReal : Prop := w.fraction ≠ [] ∨ w.exponent ≠ none

variable {w}

/-- Before the point stand digits. -/
theorem isDigit_whole {c : Char} (hc : c ∈ w.whole) : c.isDigit = true :=
  w.isDigit c (List.mem_append_left _ hc)

/-- Behind the point stand digits. -/
theorem isDigit_fraction {c : Char} (hc : c ∈ w.fraction) : c.isDigit = true :=
  w.isDigit c (List.mem_append_right _ hc)

/-- A numeral begins with a digit. -/
theorem exists_cons (w : Written) : ∃ c tail, w.text = c :: tail ∧ c.isDigit = true := by
  obtain ⟨c, tail, hcons⟩ := List.exists_cons_of_ne_nil w.whole_ne
  refine ⟨c, tail ++ w.fractionText ++ w.exponentText, ?_,
    isDigit_whole (hcons ▸ List.mem_cons_self)⟩
  rw [text, hcons, List.cons_append, List.cons_append]

/-- A numeral is written with digits, a point, an `e` and a minus. -/
theorem mem_text {c : Char} (h : c ∈ w.text) : c.isDigit = true ∨ c ∈ ['.', 'e', '-'] := by
  rw [text, List.mem_append, List.mem_append] at h
  rcases h with (h | h) | h
  · exact .inl (isDigit_whole h)
  · unfold fractionText at h
    split at h
    · cases h
    · rcases List.mem_cons.mp h with rfl | h
      · exact .inr (by decide)
      · exact .inl (isDigit_fraction h)
  · unfold exponentText at h
    split at h
    · cases h
    · rcases List.mem_cons.mp h with rfl | h
      · exact .inr (by decide)
      · exact (Value.mem_toString h).imp_right fun hc => by rw [hc]; decide

/-- Other characters are not in a numeral. -/
theorem not_mem_text {c : Char} (hdigit : c.isDigit = false) (hother : c ∉ ['.', 'e', '-']) :
    c ∉ w.text := by
  intro h
  rcases mem_text h with h | h
  · rw [hdigit] at h
    cases h
  · exact hother h

/-! ### Scanning -/

section

variable {marks : List Char} (hmarks : ∀ c ∈ marks, Scan.isSuffix c = true)
include hmarks

/-- The digits end where the exponent or a mark for the type begins. -/
theorem isDigit_exponentText : ∀ c ∈ (w.exponentText ++ marks).head?, c.isDigit = false := by
  unfold exponentText
  split
  · exact fun c hc => (Scan.of_isSuffix (hmarks c (List.mem_of_mem_head? hc))).1
  · simp

/-- No digit goes on with those before the point. -/
theorem isDigit_fractionText :
    ∀ c ∈ (w.fractionText ++ (w.exponentText ++ marks)).head?, c.isDigit = false := by
  unfold fractionText
  split
  · exact isDigit_exponentText hmarks
  · simp

/-- The scanner finds the fraction that was written. -/
theorem fractionPart_text :
    Scan.fractionPart (w.fractionText ++ (w.exponentText ++ marks)) = w.fractionText := by
  unfold fractionText
  split
  · unfold exponentText
    split
    · cases marks with
      | nil => rfl
      | cons c marks =>
        have hpoint := (Scan.of_isSuffix (hmarks c List.mem_cons_self)).2.1
        simp [Scan.fractionPart, hpoint]
    · simp [Scan.fractionPart]
  · simp only [List.cons_append, Scan.fractionPart]
    rw [takeWhile_append_all (fun c hc => isDigit_fraction hc) (isDigit_exponentText hmarks)]

omit hmarks in
/-- The scanner finds the minus of an integer. -/
theorem signPart_toString (i : ℤ) (rest : List Char) :
    Scan.signPart ((toString i).toList ++ rest) = if i < 0 then ['-'] else [] := by
  rw [Value.toString_toList]
  split
  · rfl
  · obtain ⟨c, tail, hcons⟩ := List.exists_cons_of_ne_nil (@Nat.toDigits_ne_nil i.natAbs 10)
    have hdigit : c.isDigit = true :=
      Nat.isDigit_of_mem_toDigits (by decide) (by decide) (hcons ▸ List.mem_cons_self)
    have hsign : ¬ (c = '+' ∨ c = '-') := by rintro (rfl | rfl) <;> cases hdigit
    simpa [hcons, Scan.signPart] using hsign

/-- The scanner finds the exponent that was written. -/
theorem exponentPart_text : Scan.exponentPart (w.exponentText ++ marks) = w.exponentText := by
  unfold exponentText
  cases w.exponent with
  | none =>
    cases marks with
    | nil => rfl
    | cons c marks =>
      have hletter : ¬ (c = 'e' ∨ c = 'E') := by
        have := (Scan.of_isSuffix (hmarks c List.mem_cons_self)).2.2.2
        simp_all
      simp [Scan.exponentPart, hletter]
  | some e =>
    have hdigits : (Nat.toDigits 10 e.natAbs ++ marks).takeWhile Char.isDigit
        = Nat.toDigits 10 e.natAbs :=
      takeWhile_append_all
        (fun c hc => Nat.isDigit_of_mem_toDigits (by decide) (by decide) hc)
        fun c hc => (Scan.of_isSuffix (hmarks c (List.mem_of_mem_head? hc))).1
    have htail : ((toString e).toList ++ marks).drop (if e < 0 then ['-'] else []).length
        = Nat.toDigits 10 e.natAbs ++ marks := by
      rw [Value.toString_toList, List.append_assoc, List.drop_left]
    simp only [List.cons_append, Scan.exponentPart, signPart_toString, htail, hdigits, true_or,
      Nat.toDigits_ne_nil, ne_eq, not_false_eq_true, and_self, if_true]
    rw [Value.toString_toList]

/-- The scanner finds the digits before the point. -/
theorem takeWhile_text : (w.text ++ marks).takeWhile Char.isDigit = w.whole := by
  rw [text, List.append_assoc, List.append_assoc]
  exact takeWhile_append_all (fun c hc => isDigit_whole hc) (isDigit_fractionText hmarks)

/-- A numeral is scanned to its end, and so are marks for its type. -/
theorem number_text : Scan.number (w.text ++ marks) = w.text ++ marks := by
  have hdecimal : Scan.decimalPart (w.text ++ marks) = w.text := by
    have hdrop : (w.text ++ marks).drop w.whole.length
        = w.fractionText ++ (w.exponentText ++ marks) := by
      rw [text, List.append_assoc, List.append_assoc, List.drop_left]
    unfold Scan.decimalPart
    dsimp only
    rw [takeWhile_text hmarks, ← List.drop_drop, hdrop, fractionPart_text hmarks, List.drop_left,
      exponentPart_text hmarks, text]
  have hpart : Scan.numberPart (w.text ++ marks) = w.text := by
    have hhex (x : Char) (hx : x ∈ ['x', 'X']) : x ∉ w.text ++ marks := by
      rw [List.mem_append, not_or]
      simp only [List.mem_cons, List.not_mem_nil, or_false] at hx
      constructor
      · rcases hx with rfl | rfl <;> exact not_mem_text (by decide) (by decide)
      · intro hmem
        have := (Scan.of_isSuffix (hmarks x hmem)).2.2.2
        rcases hx with rfl | rfl <;> simp at this
    rw [Scan.numberPart_decimal fun tail => ⟨fun heq => ?_, fun heq => ?_⟩, hdecimal]
    · exact hhex 'x' (by decide) (by simp [heq])
    · exact hhex 'X' (by decide) (by simp [heq])
  have hsuffix : (marks ++ []).takeWhile Scan.isSuffix = marks :=
    takeWhile_append_all hmarks (by simp)
  rw [List.append_nil] at hsuffix
  rw [Scan.number, hpart, List.drop_left, hsuffix]

end

/-! ### Reading -/

/-- The exponent is read as it was written, and is zero where it was not. -/
theorem exponent?_text : Numeral.exponent? w.exponentText = some (w.exponent.getD 0) := by
  unfold exponentText
  cases w.exponent with
  | none => rfl
  | some e =>
    have hdigits : (Nat.toDigits 10 e.natAbs).all Char.isDigit = true :=
      List.all_eq_true.mpr fun c hc => Nat.isDigit_of_mem_toDigits (by decide) (by decide) hc
    have hvalue : Numeral.ofDigits (Nat.toDigits 10 e.natAbs) = e.natAbs :=
      Nat.ofDigitChars_ten_toDigits
    simp only [Numeral.exponent?, Value.splitSign_toString, hdigits, hvalue, true_or,
      Nat.toDigits_ne_nil, ne_eq, not_false_eq_true, and_self, if_true, decide_eq_true_eq,
      Option.getD_some, Option.some.injEq]
    split <;> omega

/-- The digits before the point are read apart from the rest. -/
theorem takeWhile_whole (w : Written) : w.text.takeWhile Char.isDigit = w.whole := by
  have htake : (w.text ++ []).takeWhile Char.isDigit = w.whole := takeWhile_text (by simp)
  rwa [List.append_nil] at htake

/-- Behind the digits stand the fraction and the exponent. -/
theorem dropWhile_whole (w : Written) :
    w.text.dropWhile Char.isDigit = w.fractionText ++ w.exponentText := by
  have hsplit := List.takeWhile_append_dropWhile (p := Char.isDigit) (l := w.text)
  rw [takeWhile_whole] at hsplit
  refine List.append_cancel_left (hsplit.trans ?_)
  rw [text, List.append_assoc]

/-- An exponent does not begin with a point. -/
theorem head_exponentText : w.exponentText.head? ≠ some '.' := by
  unfold exponentText
  split <;> simp

/-- A numeral is read as the decimal that it writes. -/
theorem decimal?_text (w : Written) : Numeral.decimal? w.text = some w.decimal := by
  unfold Numeral.decimal?
  dsimp only
  rw [takeWhile_whole, dropWhile_whole]
  by_cases hnone : w.fraction = []
  · rw [fractionText, if_pos hnone, List.nil_append]
    split
    case h_1 tail htail => exact absurd (congrArg List.head? htail) head_exponentText
    case h_2 =>
      dsimp only
      rw [if_neg fun h => w.whole_ne h.1, exponent?_text, decimal, hnone]
      rfl
  · have htake : (w.fraction ++ w.exponentText).takeWhile Char.isDigit = w.fraction := by
      have hstop : ∀ c ∈ (w.exponentText ++ []).head?, c.isDigit = false :=
        isDigit_exponentText (by simp)
      rw [List.append_nil] at hstop
      exact takeWhile_append_all (fun c hc => isDigit_fraction hc) hstop
    have hdrop : (w.fraction ++ w.exponentText).dropWhile Char.isDigit = w.exponentText := by
      have hsplit := List.takeWhile_append_dropWhile (p := Char.isDigit)
        (l := w.fraction ++ w.exponentText)
      rw [htake] at hsplit
      exact List.append_cancel_left hsplit
    rw [fractionText, if_neg hnone, List.cons_append]
    split
    case h_1 tail htail =>
      obtain rfl := (List.cons.inj htail).2
      rw [htake, hdrop, if_neg fun h => w.whole_ne h.1, exponent?_text]
      rfl
    case h_2 hother => exact absurd rfl (hother _)

/-- A numeral is written in lower case. -/
theorem map_toLower_text (w : Written) : w.text.map Char.toLower = w.text := by
  refine (List.map_congr_left (g := id) fun c hc => ?_).trans (List.map_id w.text)
  rcases mem_text hc with hdigit | hother
  · exact Scan.toLower_of_isDigit hdigit
  · simp only [List.mem_cons, List.not_mem_nil, or_false] at hother
    rcases hother with rfl | rfl | rfl <;> rfl

/-- A numeral is no name of a number, and it has no sign. -/
theorem read?_text (w : Written) : Numeral.read? w.text = some (.finite false w.decimal) := by
  obtain ⟨c, tail, hcons, hdigit⟩ := w.exists_cons
  have hsign : Numeral.splitSign w.text = (false, w.text) := by
    rw [hcons]
    unfold Numeral.splitSign
    split
    · next heq => cases (List.cons.inj heq).1 ▸ hdigit
    · next heq => cases (List.cons.inj heq).1 ▸ hdigit
    · rfl
  -- Each name has a letter that no numeral has.
  have hname (name : String) (c : Char) (hc : c ∈ name.toList) (hdigit : c.isDigit = false)
      (hother : c ∉ ['.', 'e', '-']) : String.ofList w.text ≠ name := by
    rintro rfl
    rw [String.toList_ofList] at hc
    exact not_mem_text hdigit hother hc
  unfold Numeral.read?
  rw [hsign]
  dsimp only
  rw [map_toLower_text, if_neg, if_neg, decimal?_text]
  · rfl
  · exact hname "nan" 'n' (by decide) (by decide) (by decide)
  · rintro (h | h)
    · exact hname "inf" 'n' (by decide) (by decide) (by decide) h
    · exact hname "infinity" 'n' (by decide) (by decide) (by decide) h

/-- A numeral is read as the number that is nearest to its decimal. -/
theorem float?_text (w : Written) : Numeral.float? w.text
    = some (Float.ofBits (Numeral.magnitudeBits .double w.decimal).toUInt64) := by
  simp only [Numeral.float?, read?_text, Option.map_some, Numeral.bits, Bool.false_eq_true,
    if_false, Nat.zero_add]

/-- A numeral with a point or an exponent is read as a floating-point number, whatever its width. -/
theorem ofLiteral?_eq_floating? {marks : List Char} (h : w.IsReal) (hmarks : ∀ c ∈ marks, c = 'f') :
    Value.ofLiteral? (w.text ++ marks) = Value.floating? (w.text ++ marks) := by
  have hlower : (w.text ++ marks).map Char.toLower = w.text ++ marks := by
    have hsame : marks.map Char.toLower = marks :=
      (List.map_congr_left (g := id) fun c hc => by rw [hmarks c hc]; rfl).trans (List.map_id marks)
    rw [List.map_append, map_toLower_text, hsame]
  have hhex : "0x".toList.isPrefixOf (w.text ++ marks) = false := by
    rw [Bool.eq_false_iff, ne_eq, List.isPrefixOf_iff_prefix]
    intro hfront
    rcases List.mem_append.mp (hfront.subset (show 'x' ∈ "0x".toList by decide)) with hc | hc
    · exact not_mem_text (by decide) (by decide) hc
    · cases hmarks _ hc
  have hreal : ((w.text ++ marks).contains '.' || (w.text ++ marks).contains 'e') = true := by
    rw [Bool.or_eq_true, List.contains_iff_mem, List.contains_iff_mem, text, fractionText,
      exponentText]
    rcases h with hfraction | hexponent
    · rw [if_neg hfraction]
      simp
    · obtain ⟨e, he⟩ := Option.ne_none_iff_exists'.mp hexponent
      rw [he]
      simp
  simp only [Value.ofLiteral?, hlower, hhex, hreal, Bool.not_false, Bool.and_true, if_true]

/-- Without a mark it is read as an eight-byte number. -/
theorem ofLiteral?_text (h : w.IsReal) : Value.ofLiteral? w.text
    = some (.double (Float.ofBits (Numeral.magnitudeBits .double w.decimal).toUInt64)) := by
  have hmissing (c : Char) (hdigit : c.isDigit = false) (hother : c ∉ ['.', 'e', '-']) :
      c ∉ w.text := not_mem_text hdigit hother
  have hfour : w.text.getLast? ≠ some 'f' := fun hlast =>
    hmissing 'f' (by decide) (by decide) (List.mem_of_getLast? hlast)
  have htrailing : Value.dropTrailing (· = 'l') (w.text ++ []) = w.text :=
    Value.dropTrailing_append (by simp) fun c hc => decide_eq_false fun heq =>
      hmissing 'l' (by decide) (by decide) (heq ▸ List.mem_of_getLast? hc)
  have hfloating : Value.ofLiteral? (w.text ++ []) = Value.floating? (w.text ++ []) :=
    ofLiteral?_eq_floating? h (by simp)
  rw [List.append_nil] at htrailing hfloating
  rw [hfloating, Value.floating?, if_neg hfour, htrailing, float?_text]
  rfl

/-- With its mark it is read as a four-byte number, by way of an eight-byte one. -/
theorem ofLiteral?_text_marked (h : w.IsReal) : Value.ofLiteral? (w.text ++ ['f'])
    = some (.float (narrow
        (Float.ofBits (Numeral.magnitudeBits .double w.decimal).toUInt64))) := by
  rw [ofLiteral?_eq_floating? h (by simp), Value.floating?, if_pos (by simp), List.dropLast_concat,
    float?_text]
  rfl

end Written

/-! ### Writing -/

/-- The digits of a number are read as the number. -/
theorem ofDigits_toDigits (n : ℕ) : Numeral.ofDigits (Nat.toDigits 10 n) = n :=
  Nat.ofDigitChars_ten_toDigits

/-- Numbers are written with digits. -/
theorem isDigit_toDigits {n : ℕ} {c : Char} (hc : c ∈ Nat.toDigits 10 n) : c.isDigit = true :=
  Nat.isDigit_of_mem_toDigits (by decide) (by decide) hc

/-- The first digit, the other ones behind the point and an exponent. -/
theorem exists_written_scientific (d : Decimal) :
    ∃ w : Written, w.text = scientific (Nat.toDigits 10 d.digits)
        (d.exponent + (Nat.toDigits 10 d.digits).length - 1) ∧
      w.IsReal ∧ w.decimal.value = d.value := by
  obtain ⟨c, tail, hcons⟩ := List.exists_cons_of_ne_nil (@Nat.toDigits_ne_nil d.digits 10)
  have hdigits := ofDigits_toDigits d.digits
  have hexponent : d.exponent + (c :: tail).length - 1 - tail.length = d.exponent := by
    rw [List.length_cons]
    omega
  rw [hcons] at hdigits ⊢
  refine ⟨⟨[c], tail, some (d.exponent + (c :: tail).length - 1), List.cons_ne_nil c [], ?_⟩, rfl,
    .inr (Option.some_ne_none _), ?_⟩
  · rw [List.singleton_append, ← hcons]
    exact fun c' hc' => isDigit_toDigits hc'
  · simp only [Written.decimal, List.singleton_append, hdigits, Option.getD_some, hexponent, value]

/-- Zeros behind the digits multiply by powers of ten. -/
theorem ofDigits_append_zeros (digits : List Char) (n : ℕ) :
    Numeral.ofDigits (digits ++ List.replicate n '0') = 10 ^ n * Numeral.ofDigits digits :=
  (Nat.ofDigitChars_append 0).trans Nat.ofDigitChars_replicate_zero

/-- Zeros in front of the digits change nothing. -/
theorem ofDigits_zeros_append (digits : List Char) (n : ℕ) :
    Numeral.ofDigits (List.replicate n '0' ++ digits) = Numeral.ofDigits digits := by
  refine (Nat.ofDigitChars_append 0).trans ?_
  rw [Nat.ofDigitChars_replicate_zero, Nat.mul_zero]
  rfl

/-- Zeros are digits. -/
theorem isDigit_of_mem_zeros {n : ℕ} {c : Char} (hc : c ∈ List.replicate n '0') :
    c.isDigit = true := by
  rw [List.eq_of_mem_replicate hc]
  rfl

section

variable {d : Decimal} {digits : List Char} {point : ℤ}
  (hdigits : Numeral.ofDigits digits = d.digits) (hdigit : ∀ c ∈ digits, c.isDigit = true)
  (hpoint : point = d.exponent + digits.length)
include hdigits hdigit hpoint

/-- A number without a fraction gets zeros before the point and one behind it. -/
theorem exists_written_whole (hne : digits ≠ []) (h : digits.length ≤ point) :
    ∃ w : Written, w.text = placePoint digits point ∧ w.IsReal ∧ w.decimal.value = d.value := by
  have hlength : digits.length ≤ point.toNat := by omega
  have hnone : (-point).toNat = 0 := by omega
  have hzeros : point.toNat - digits.length = d.exponent.toNat := by omega
  have hexponent : 0 ≤ d.exponent := by omega
  have htext : placePoint digits point
      = digits ++ List.replicate d.exponent.toNat '0' ++ '.' :: ['0'] := by
    simp [placePoint, List.take_of_length_le hlength, List.drop_of_length_le hlength, hnone, hzeros,
      hne]
  refine ⟨⟨digits ++ List.replicate d.exponent.toNat '0', ['0'], none, by simp [hne], ?_⟩, ?_,
    .inl (List.cons_ne_nil _ _), ?_⟩
  · simp only [List.mem_append, List.mem_singleton]
    rintro c ((hc | hc) | rfl)
    · exact hdigit c hc
    · exact isDigit_of_mem_zeros hc
    · rfl
  · simp [Written.text, Written.fractionText, Written.exponentText, htext]
  · have hall : Numeral.ofDigits (digits ++ List.replicate d.exponent.toNat '0' ++ ['0'])
        = 10 ^ (d.exponent.toNat + 1) * d.digits := by
      rw [List.append_assoc, ← List.replicate_succ', ofDigits_append_zeros, hdigits]
    have hpow : (10 : ℚ) ^ d.exponent = 10 ^ d.exponent.toNat := by
      rw [← zpow_natCast, Int.toNat_of_nonneg hexponent]
    simp only [Written.decimal, hall, value, hpow, pow_succ, Option.getD_none,
      List.length_singleton]
    norm_num
    ring

/-- A number below one gets zeros behind the point and one before it. -/
theorem exists_written_fraction (hne : digits ≠ []) (h : point ≤ 0) :
    ∃ w : Written, w.text = placePoint digits point ∧ w.IsReal ∧ w.decimal.value = d.value := by
  have hnone : point.toNat = 0 := by omega
  have htext : placePoint digits point
      = ['0'] ++ '.' :: (List.replicate (-point).toNat '0' ++ digits) := by
    simp [placePoint, hnone, hne]
  refine ⟨⟨['0'], List.replicate (-point).toNat '0' ++ digits, none, List.cons_ne_nil _ _, ?_⟩, ?_,
    .inl (by simp [hne]), ?_⟩
  · simp only [List.mem_append, List.mem_singleton]
    rintro c (rfl | hc | hc)
    · rfl
    · exact isDigit_of_mem_zeros hc
    · exact hdigit c hc
  · simp [Written.text, Written.fractionText, Written.exponentText, htext, hne]
  · have hall : ['0'] ++ (List.replicate (-point).toNat '0' ++ digits)
        = List.replicate ((-point).toNat + 1) '0' ++ digits := by
      rw [List.replicate_succ]
      rfl
    have hexponent :
        (0 : ℤ) - (List.replicate (-point).toNat '0' ++ digits).length = d.exponent := by
      rw [List.length_append, List.length_replicate]
      omega
    simp only [Written.decimal, hall, ofDigits_zeros_append, hdigits, Option.getD_none, hexponent]

/-- The point stands among the digits. -/
theorem exists_written_inner (hpos : 0 < point) (h : point < digits.length) :
    ∃ w : Written, w.text = placePoint digits point ∧ w.IsReal ∧ w.decimal.value = d.value := by
  have hnone : (-point).toNat = 0 := by omega
  have hzeros : point.toNat - digits.length = 0 := by omega
  have hfront : digits.take point.toNat ≠ [] := by
    rw [← List.length_pos_iff, List.length_take]
    omega
  have hback : digits.drop point.toNat ≠ [] := by
    rw [← List.length_pos_iff, List.length_drop]
    omega
  have htext : placePoint digits point
      = digits.take point.toNat ++ '.' :: digits.drop point.toNat := by
    simp [placePoint, hnone, hzeros, hfront, hback]
  refine ⟨⟨digits.take point.toNat, digits.drop point.toNat, none, hfront, ?_⟩, ?_, .inl hback, ?_⟩
  · rwa [List.take_append_drop]
  · simp [Written.text, Written.fractionText, Written.exponentText, htext, hback]
  · have hexponent : (0 : ℤ) - (digits.drop point.toNat).length = d.exponent := by
      rw [List.length_drop]
      omega
    simp only [Written.decimal, List.take_append_drop, hdigits, Option.getD_none, hexponent]

end

/-- The digits with the point where it belongs. -/
theorem exists_written_placePoint (d : Decimal) :
    ∃ w : Written, w.text = placePoint (Nat.toDigits 10 d.digits)
        (d.exponent + (Nat.toDigits 10 d.digits).length) ∧
      w.IsReal ∧ w.decimal.value = d.value := by
  have hne : Nat.toDigits 10 d.digits ≠ [] := Nat.toDigits_ne_nil
  have hdigits := ofDigits_toDigits d.digits
  have hdigit : ∀ c ∈ Nat.toDigits 10 d.digits, c.isDigit = true := fun c hc => isDigit_toDigits hc
  -- By where the point goes: behind all digits, before them, or among them.
  rcases le_or_gt ((Nat.toDigits 10 d.digits).length : ℤ)
    (d.exponent + (Nat.toDigits 10 d.digits).length) with hwhole | hshort
  · exact exists_written_whole hdigits hdigit rfl hne hwhole
  · rcases le_or_gt (d.exponent + (Nat.toDigits 10 d.digits).length) 0 with hfraction | hinner
    · exact exists_written_fraction hdigits hdigit rfl hne hfraction
    · exact exists_written_inner hdigits hdigit rfl hinner hshort

/-- **Every decimal is written as a numeral of the same value**, with a point or an exponent. -/
theorem exists_written (d : Decimal) :
    ∃ w : Written, w.text = d.render ∧ w.IsReal ∧ w.decimal.value = d.value := by
  unfold render
  dsimp only
  split
  · rw [sub_add_cancel]
    exact exists_written_placePoint d
  · exact exists_written_scientific d

end Decimal

end KernelTree
