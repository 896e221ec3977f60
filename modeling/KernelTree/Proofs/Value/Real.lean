import Mathlib
import KernelTree.Proofs.Decimal.Convert
import KernelTree.Proofs.Decimal.Pattern
import KernelTree.Proofs.Decimal.Text
import KernelTree.Proofs.Token.Legible

/-!
# Floating-point numbers read back

The text of a finite number that is not negative is read as the number: of every eight-byte number
(`Value.readsBack_double`), and of the four-byte numbers with an even pattern
(`Value.readsBack_float`), since a four-byte number is read by way of an eight-byte one and only an
even number owns the ends of its interval. The finite numbers among the literals are of this sort
(`Value.toBits_of_double_literal`, `Value.toBits_of_float_literal`).
-/

namespace KernelTree

/-! ### The text of a number -/

/-- The text of a number is a numeral whose value lies in the interval of the number. -/
theorem Decoded.exists_written_render {f : BinaryFormat} {bits : ℕ}
    (hdigits : 2 * f.leadingBit < 10 ^ 16) (h : bits < f.infinityBits) :
    ∃ w : Decimal.Written, w.text = ((f.decode bits).render f).toList ∧ w.IsReal ∧
      (bits = 0 ∧ w.decimal.digits = 0 ∨ ∃ m q, f.IsNumber m q ∧ f.pattern m q = bits ∧
        (Decimal.Interval.of f m q).Mem w.decimal.value) := by
  obtain ⟨m, q, hdecode, hpattern, hnumber⟩ := BinaryFormat.decode_of_lt h
  rw [hdecode, Decoded.render, if_neg Bool.false_ne_true]
  rcases Nat.eq_zero_or_pos m with rfl | hpos
  · have hzero : bits = 0 := by
      by_contra hne
      exact absurd (hnumber hne).pos (lt_irrefl 0)
    refine ⟨⟨['0'], ['0'], none, List.cons_ne_nil _ _, by simp⟩, ?_, .inl (List.cons_ne_nil _ _),
      .inl ⟨hzero, rfl⟩⟩
    rw [if_pos rfl]
    decide
  · have hmem := hnumber (by rw [← hpattern, BinaryFormat.pattern]; omega)
    obtain ⟨w, htext, hreal, hvalue⟩ := (Decimal.shortest f m q).exists_written
    refine ⟨w, ?_, hreal, .inr ⟨m, q, hmem, hpattern, ?_⟩⟩
    · rw [if_neg hpos.ne', String.toList_ofList, htext]
    · rw [hvalue]
      exact Decimal.mem_shortest hdigits hmem

namespace Numeral

theorem magnitudeBits_of_digits {f : BinaryFormat} {d : Decimal} (h : d.digits = 0) :
    magnitudeBits f d = 0 := if_pos (.inl h)

end Numeral

theorem toBits_ofBits_toUInt64 {bits : ℕ} (h : bits < BinaryFormat.double.infinityBits) :
    (Float.ofBits bits.toUInt64).toBits.toNat = bits := by
  have hnat : bits.toUInt64.toNat = bits := UInt64.toNat_ofNat_of_lt' (h.trans (by decide))
  rw [Pattern.toBits_ofBits (by rwa [hnat]), hnat]

/-- The number of four bytes that an eight-byte number is converted to. -/
theorem narrow_ofBits {bits : ℕ} (h : bits < BinaryFormat.double.infinityBits) :
    narrow (Float.ofBits bits.toUInt64)
      = Float32.ofBits (BinaryFormat.double.convert .single bits).toUInt32 := by
  rw [narrow, toBits_ofBits_toUInt64 h]

namespace Value

/-- What is written as a numeral, with the mark of its type behind, reads back if it is what the
numeral is read as. -/
theorem readsBack_of_written {v : Value} {w : Decimal.Written} {marks : List Char}
    (hmarks : ∀ c ∈ marks, Scan.isSuffix c = true) (htext : v.render.toList = w.text ++ marks)
    (hvalue : ofLiteral? (w.text ++ marks) = some v) : v.ReadsBack := by
  obtain ⟨c, tail, hcons, hdigit⟩ := w.exists_cons
  have hnumber := w.number_text hmarks
  rw [hcons, List.cons_append] at htext hnumber hvalue
  refine ⟨c, tail ++ marks, htext, ?_⟩
  rw [Scan.token_number (by simp [Scan.StartsNumber, hdigit]), Scan.numberToken, hnumber, hvalue]

/-- **Eight-byte numbers read back.** -/
theorem readsBack_double {x : Float} (h : x.toBits.toNat < BinaryFormat.double.infinityBits) :
    (double x).ReadsBack := by
  obtain ⟨w, htext, hreal, hcases⟩ := Decoded.exists_written_render (by decide) h
  have hbits : Numeral.magnitudeBits .double w.decimal = x.toBits.toNat := by
    rcases hcases with ⟨hzero, hnone⟩ | ⟨m, q, hnumber, hpattern, hmem⟩
    · rw [hzero, Numeral.magnitudeBits_of_digits hnone]
    · rw [← hpattern] at h ⊢
      exact Numeral.magnitudeBits_of_mem hnumber h.le hmem
  have hvalue := w.ofLiteral?_text hreal
  rw [hbits, Nat.toUInt64, UInt64.ofNat_toNat, Pattern.ofBits_toBits h] at hvalue
  rw [← List.append_nil w.text] at htext hvalue
  exact readsBack_of_written (by simp) htext.symm hvalue

/-- **Even four-byte numbers read back.** -/
theorem readsBack_float {x : Float32} (h : x.toBits.toNat < BinaryFormat.single.infinityBits)
    (heven : x.toBits.toNat % 2 = 0) : (float x).ReadsBack := by
  obtain ⟨w, htext, hreal, hcases⟩ := Decoded.exists_written_render (by decide) h
  obtain ⟨hlt, hbits⟩ : Numeral.magnitudeBits .double w.decimal < BinaryFormat.double.infinityBits ∧
      BinaryFormat.double.convert .single (Numeral.magnitudeBits .double w.decimal)
        = x.toBits.toNat := by
    rcases hcases with ⟨hzero, hnone⟩ | ⟨m, q, hnumber, hpattern, hmem⟩
    · rw [hzero, Numeral.magnitudeBits_of_digits hnone]
      decide
    · rw [← hpattern] at h heven ⊢
      have hleading : BinaryFormat.single.leadingBit = 2 * 2 ^ 22 := rfl
      rw [BinaryFormat.pattern, hleading, Nat.mul_left_comm, Nat.mul_add_mod] at heven
      exact Numeral.convert_magnitudeBits hnumber h.le heven hmem
  have hvalue := w.ofLiteral?_text_marked hreal
  rw [narrow_ofBits hlt, hbits, Nat.toUInt32, UInt32.ofNat_toNat,
    Pattern.ofBits_toBits32 h] at hvalue
  refine readsBack_of_written (by simp [Scan.isSuffix]) ?_ hvalue
  rw [render, String.toList_append, renderFloat32, ← htext]
  rfl

/-- An odd number may be lost: the nearest eight-byte number to this text lies halfway to the next
four-byte number, which is even. -/
theorem not_readsBack_float : ¬ (float (Float32.ofBits 0x15AE43FD)).ReadsBack := by
  rintro ⟨c, tail, htext, htoken⟩
  have hrender : (float (Float32.ofBits 0x15AE43FD)).render = "7.038531e-26f" := by decide +kernel
  have hnext : Scan.token .none '7' ".038531e-26f".toList
      = .ok ⟨.atom (.value (float (Float32.ofBits 0x15AE43FE))), "7.038531e-26f".toList⟩ := by
    rfl
  rw [hrender] at htext
  obtain ⟨rfl, rfl⟩ := List.cons.inj htext
  have hsame := (Scan.mk.inj (Except.ok.inj (hnext.symm.trans htoken))).1
  have hsame : Float32.ofBits 0x15AE43FE = Float32.ofBits 0x15AE43FD :=
    Value.float.inj (Atom.value.inj (Lexeme.atom.inj hsame))
  exact absurd (congrArg Float32.toBits hsame) (by decide)

end Value

/-! ### Literals -/

namespace Scan

theorem mem_head?_append {c : Char} {front back : List Char} (h : c ∈ (front ++ back).head?) :
    c ∈ front.head? ∨ c ∈ back.head? := by
  cases front with
  | nil => exact .inr h
  | cons d front => exact .inl h

/-- A numeral does not begin with a sign. -/
theorem head_number {c : Char} {text : List Char} (h : c ∈ (number text).head?) :
    c ≠ '-' ∧ c ≠ '+' := by
  have hdigit (hc : c.isDigit = true) : c ≠ '-' ∧ c ≠ '+' := by
    constructor <;> rintro rfl <;> cases hc
  rcases mem_head?_append h with h | h
  · -- A numeral begins with a zero, a digit, a point or an `e`.
    rcases numberPart_cases text with ⟨x, tail, heq, -⟩ | heq
    · rw [heq] at h
      obtain rfl : '0' = c := by simpa using h
      decide
    · rw [heq, decimalPart] at h
      rcases mem_head?_append h with h | h
      · rcases mem_head?_append h with h | h
        · exact hdigit (List.all_eq_true.mp List.all_takeWhile c (List.mem_of_mem_head? h))
        · rcases mem_fractionPart (List.mem_of_mem_head? h) with hc | rfl
          · exact hdigit hc
          · decide
      · rcases exponentPart_cases _ with hnone | ⟨e, sign, digits, hsome, he, -⟩
        · rw [hnone] at h
          cases h
        · rw [hsome] at h
          obtain rfl : e = c := by simpa using h
          rcases he with rfl | rfl <;> decide
  · have hmark := List.all_eq_true.mp List.all_takeWhile c (List.mem_of_mem_head? h)
    constructor <;> rintro rfl <;> cases hmark

end Scan

namespace Numeral

/-- No decimal is read as more than infinity. -/
theorem magnitudeBits_le (f : BinaryFormat) (d : Decimal) : magnitudeBits f d ≤ f.infinityBits := by
  unfold magnitudeBits
  dsimp only
  split
  · exact Nat.zero_le _
  · split
    · exact le_rfl
    · exact f.nearest_le _ _

/-- Without a sign in front nothing is split off. -/
theorem splitSign_of_head {text : List Char} (h : ∀ c ∈ text.head?, c ≠ '-' ∧ c ≠ '+') :
    splitSign text = (false, text) := by
  unfold splitSign
  split
  · exact absurd rfl (h '-' rfl).1
  · exact absurd rfl (h '+' rfl).2
  · rfl

/-- Without a sign a number is read that is not negative, infinity or what is no number. -/
theorem toBits_of_float? {text : List Char} {x : Float}
    (htext : ∀ c ∈ text.head?, c ≠ '-' ∧ c ≠ '+') (h : float? text = some x) :
    x = .ofBits (bits .double .nan).toUInt64 ∨
      x.toBits.toNat ≤ BinaryFormat.double.infinityBits := by
  obtain ⟨n, hn, rfl⟩ := Option.map_eq_some_iff.mp h
  unfold read? at hn
  rw [splitSign_of_head htext] at hn
  dsimp only at hn
  have hinfinity : (Float.ofBits BinaryFormat.double.infinityBits.toUInt64).toBits.toNat
      = BinaryFormat.double.infinityBits := by
    decide
  split at hn
  case isTrue =>
    obtain rfl := Option.some.inj hn
    exact .inr hinfinity.le
  case isFalse =>
    split at hn
    case isTrue =>
      obtain rfl := Option.some.inj hn
      exact .inl rfl
    case isFalse =>
      obtain ⟨d, -, rfl⟩ := Option.map_eq_some_iff.mp hn
      have hbits : bits .double (.finite false d) = magnitudeBits .double d := Nat.zero_add _
      rw [hbits]
      rcases (magnitudeBits_le .double d).lt_or_eq with hlt | heq
      · exact .inr ((toBits_ofBits_toUInt64 hlt).trans_le hlt.le)
      · rw [heq]
        exact .inr hinfinity.le

end Numeral

/-- A finite number that is not negative has a pattern below that of infinity. -/
theorem toBits_lt_of_isFinite {x : Float} (h : x.toBits.toNat ≤ BinaryFormat.double.infinityBits)
    (hfinite : x.isFinite = true) : x.toBits.toNat < BinaryFormat.double.infinityBits := by
  refine lt_of_le_of_ne h fun heq => ?_
  obtain rfl : x = .ofBits BinaryFormat.double.infinityBits.toUInt64 :=
    Pattern.toBits_inj (UInt64.toNat_inj.mp (heq.trans (by decide)))
  exact absurd hfinite (by decide)

/-- A number that is not negative stays so when it is converted. -/
theorem toBits_narrow {x : Float} (h : x.toBits.toNat ≤ BinaryFormat.double.infinityBits)
    (hfinite : (narrow x).isFinite = true) :
    (narrow x).toBits.toNat < BinaryFormat.single.infinityBits := by
  have hle := BinaryFormat.convert_le .single h
  rw [narrow] at hfinite ⊢
  generalize BinaryFormat.double.convert .single x.toBits.toNat = bits at hfinite hle ⊢
  rcases hle.lt_or_eq with hlt | rfl
  · have hnat : bits.toUInt32.toNat = bits := UInt32.toNat_ofNat_of_lt' (hlt.trans (by decide))
    rwa [Pattern.toBits_ofBits32 (by rwa [hnat]), hnat]
  · exact absurd hfinite (by decide)

namespace Value

/-- A whole number is no floating-point number. -/
theorem isReal_of_whole? {isHex : Bool} {text : List Char} {v : Value}
    (h : whole? isHex text = some v) : v.isReal = false := by
  simp only [whole?, Option.bind_eq_bind] at h
  cases isHex <;> obtain ⟨n, -, h⟩ := Option.bind_eq_some_iff.mp h <;> split at h <;>
    obtain rfl := Option.some.inj h <;> rfl

theorem dropTrailing_front (p : Char → Bool) (text : List Char) : dropTrailing p text <+: text := by
  have hfront := List.reverse_prefix.mpr (List.dropWhile_suffix p (l := text.reverse))
  rwa [List.reverse_reverse] at hfront

/-- A floating-point literal is read from a part of it that has no sign. -/
theorem exists_float?_of_literal {text : List Char} {v : Value} (hreal : v.isReal = true)
    (h : ofLiteral? (Scan.number text) = some v) :
    ∃ front x, (∀ c ∈ front.head?, c ≠ '-' ∧ c ≠ '+') ∧ Numeral.float? front = some x ∧
      (v = float (narrow x) ∨ v = double x) := by
  have hfront {front : List Char} (hf : front <+: (Scan.number text).map Char.toLower) :
      ∀ c ∈ front.head?, c ≠ '-' ∧ c ≠ '+' := by
    intro c hc
    obtain ⟨back, hback⟩ := hf
    have hhead := List.mem_head?_append_of_mem_head? (t := back) hc
    rw [hback, List.head?_map] at hhead
    obtain ⟨d, hd, rfl⟩ := Option.map_eq_some_iff.mp hhead
    have hsign := Scan.head_number hd
    exact ⟨fun heq => hsign.1 (Scan.eq_of_toLower (by decide) heq),
      fun heq => hsign.2 (Scan.eq_of_toLower (by decide) heq)⟩
  unfold ofLiteral? at h
  dsimp only at h
  split at h
  · -- The last `f` or the last marks are dropped; what is left begins as the numeral does.
    unfold floating? at h
    split at h
    · have hlast := List.dropLast_prefix ((Scan.number text).map Char.toLower)
      obtain ⟨x, hx, rfl⟩ := Option.map_eq_some_iff.mp h
      exact ⟨_, x, hfront hlast, hx, .inl rfl⟩
    · obtain ⟨x, hx, rfl⟩ := Option.map_eq_some_iff.mp h
      exact ⟨_, x, hfront (dropTrailing_front _ _), hx, .inr rfl⟩
  · rw [isReal_of_whole? h] at hreal
    cases hreal

/-- The finite eight-byte numbers among the literals are not negative. -/
theorem toBits_of_double_literal {text : List Char} {x : Float}
    (h : ofLiteral? (Scan.number text) = some (double x)) (hfinite : x.isFinite = true) :
    x.toBits.toNat < BinaryFormat.double.infinityBits := by
  obtain ⟨front, y, hfront, hy, hvalue | hvalue⟩ := exists_float?_of_literal rfl h
  · cases hvalue
  · obtain rfl := Value.double.inj hvalue
    rcases Numeral.toBits_of_float? hfront hy with rfl | hle
    · exact absurd hfinite (by decide)
    · exact toBits_lt_of_isFinite hle hfinite

/-- The finite four-byte numbers among the literals are not negative. -/
theorem toBits_of_float_literal {text : List Char} {x : Float32}
    (h : ofLiteral? (Scan.number text) = some (float x)) (hfinite : x.isFinite = true) :
    x.toBits.toNat < BinaryFormat.single.infinityBits := by
  obtain ⟨front, y, hfront, hy, hvalue | hvalue⟩ := exists_float?_of_literal rfl h
  · obtain rfl := Value.float.inj hvalue
    rcases Numeral.toBits_of_float? hfront hy with rfl | hle
    · exact absurd hfinite (by decide)
    · exact toBits_narrow hle hfinite
  · cases hvalue

end Value

end KernelTree
