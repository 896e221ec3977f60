import Mathlib
import KernelTree.Expr.Parse
import KernelTree.Proofs.Expr.Spell
import KernelTree.Proofs.Value.Real

/-!
# Printing and reading again

The text of a tree that was read is read as the same tree (`Expr.parse_render`), but for places and
for the brackets around the operands of `sizeof`, if the tree is grouped, no two pieces of its text
run together, its floating-point numbers are finite and the texts of its odd four-byte numbers read
back. Pieces that run together make another tree: `a. *b` is printed as `a.*b`.
-/

namespace KernelTree

namespace Expr

variable {source : String} {e : Expr}

/-- A text that is read has tokens, and the tree is built of them. -/
theorem parse_ok {names : Naming} (h : parse names source = .ok e) :
    ∃ ts, tokenize names source = .ok ts ∧ ofTokens ts = .ok e := by
  unfold parse at h
  split at h
  case h_1 => cases h
  case h_2 ts hts =>
    split at h
    case h_1 => cases h
    case h_2 e' he =>
      obtain rfl := Except.ok.inj h
      exact ⟨ts, hts, he⟩

/-- A text is read as the tree that its tokens make. -/
theorem parse_of_tokens {names : Naming} {ts : List Token} (hts : tokenize names source = .ok ts)
    (he : ofTokens ts = .ok e) : parse names source = .ok e := by
  simp only [parse, hts, he]

/-- The leaves of a tree that was read are legible, if its floating-point numbers are finite and its
odd four-byte numbers read back. -/
theorem legible_of_parse (h : parse .none source = .ok e)
    (hdouble : ∀ x, .value (.double x) ∈ e.atoms → x.isFinite = true)
    (hfloat : ∀ x, .value (.float x) ∈ e.atoms → x.isFinite = true)
    (hodd : ∀ x, .value (.float x) ∈ e.atoms → x.toBits.toNat % 2 = 1 →
      (Value.float x).ReadsBack) :
    e.MadeOf Atom.Legible := by
  obtain ⟨ts, hts, he⟩ := parse_ok h
  intro n hn
  have hleaf := leaves_ofTokens he n hn
  cases n with
  | atom a l =>
    rcases legible_tokensAt hts a hleaf with hlegible | ⟨v, text, rfl, hreal, hliteral⟩
    · exact hlegible
    · have hmem : .value v ∈ e.atoms := List.mem_filterMap.mpr ⟨_, hn, rfl⟩
      refine .real hreal ?_
      cases v with
      | float x =>
        -- Four-byte numbers are rounded twice when they are read, which an even pattern survives in
        -- any case.
        rcases Nat.mod_two_eq_zero_or_one x.toBits.toNat with heven | hone
        · have hbits := Value.toBits_of_float_literal hliteral (hfloat x hmem)
          exact Value.readsBack_float hbits heven
        · exact hodd x hmem hone
      | double x =>
        exact Value.readsBack_double (Value.toBits_of_double_literal hliteral (hdouble x hmem))
      | _ => cases hreal
  | cast k t v l =>
    obtain ⟨a, ha, ht⟩ := hleaf
    refine ⟨a, (legible_tokensAt hts a ha).resolve_right fun hliteral => ?_, ht⟩
    obtain ⟨v, text, rfl, -⟩ := hliteral
    cases ht
  | _ => trivial

/-- **What was read is read again from its text**: the same tree, but for places and for the
brackets around the operands of `sizeof`. -/
theorem parse_render (h : parse .none source = .ok e) (he : e.isEmpty = false → e.Grouped)
    (hsep : e.Separated) (hdouble : ∀ x, .value (.double x) ∈ e.atoms → x.isFinite = true)
    (hfloat : ∀ x, .value (.float x) ∈ e.atoms → x.isFinite = true)
    (hodd : ∀ x, .value (.float x) ∈ e.atoms → x.toBits.toNat % 2 = 1 →
      (Value.float x).ReadsBack) :
    ∃ e', parse .none (e.render SymbolTable.initial.names) = .ok e' ∧
      e'.unplaced = e.reprint := by
  cases hempty : e.isEmpty with
  | true =>
    cases e with
    | empty l =>
      exact ⟨.empty .none, parse_of_tokens (tokensAt_end Scan.blanks_nil rfl) rfl, rfl⟩
    | _ => cases hempty
  | false =>
    have hgrouped := he hempty
    have hlegible : e.Legible := fun n hn =>
      ⟨legible_of_parse h hdouble hfloat hodd n hn, hsep n hn⟩
    -- Printed, split into tokens and built again: each step is undone by the next.
    have hlexes := spelled hgrouped hlegible [] [] (fun a _ => a.endsBefore_nil) lexes_nil
    rw [List.append_nil, List.append_nil] at hlexes
    obtain ⟨ts, hts, hprinted⟩ := hlexes .start
    obtain ⟨e', he', hreprint⟩ := ofTokens_printed hgrouped hprinted
    exact ⟨e', parse_of_tokens hts he', hreprint⟩

/-- The tree of `p->x ? f(a, - -b[1]) : (int*) sizeof x`. -/
def accessChoice : Expr :=
  ternary
    (binary (.binary .arrow) (atom (.identifier "p") ⟨1, 1⟩) (atom (.identifier "x") ⟨1, 4⟩) ⟨1, 1⟩)
    (call (atom (.identifier "f") ⟨1, 8⟩)
      [atom (.identifier "a") ⟨1, 10⟩,
        prefixed (.pre .negative)
          (prefixed (.pre .negative)
            (subscript (atom (.identifier "b") ⟨1, 16⟩) (atom (.value (.int 1)) ⟨1, 18⟩) ⟨1, 16⟩)
            ⟨1, 15⟩)
          ⟨1, 13⟩]
      ⟨1, 8⟩)
    (cast .paren ⟨⟨4⟩, false, 1⟩ (sizeof (atom (.identifier "x") ⟨1, 38⟩) ⟨1, 31⟩) ⟨1, 24⟩)
    ⟨1, 1⟩

theorem parse_accessChoice :
    parse .none "p->x ? f(a, - -b[1]) : (int*) sizeof x" = .ok accessChoice := by
  cbv

/-- Every operand of the tree stands where it needs no further brackets. -/
theorem grouped_accessChoice : accessChoice.Grouped := by
  refine .ternary ?_ (by decide) ?_ (by decide) (by decide) rfl ?_ (by decide) rfl
  · exact .binary (.atom ..) (.inl (by decide)) (.atom ..) (.inl (by decide)) rfl
  · refine .call (.atom ..) (by decide) (.inl rfl) ?_ ?_ ?_
    · refine List.forall_mem_cons.mpr ⟨.atom .., List.forall_mem_singleton.mpr ?_⟩
      refine .prefixed (.inl rfl) (.prefixed (.inl rfl) ?_ (.inl (by decide))) (.inl (by decide))
      exact .subscript (.atom ..) (by decide) (.atom ..) rfl rfl
    · exact List.forall_mem_cons.mpr
        ⟨⟨by decide, rfl⟩, List.forall_mem_singleton.mpr ⟨by decide, rfl⟩⟩
    · rintro a ⟨⟩
      rfl
  · exact .parenCast (.sizeof (.atom ..) rfl) (.inl (by decide))

/-- No name in it stands in front of a number. -/
theorem separated_accessChoice : accessChoice.Separated := by
  have hall : accessChoice.nodes.all keepsApart = true := by cbv
  exact List.all_eq_true.mp hall

/-- Its only constant is a one. -/
theorem value_mem_accessChoice {v : Value} (hv : .value v ∈ accessChoice.atoms) : v = .int 1 := by
  have hatoms : accessChoice.atoms = [.identifier "p", .identifier "x", .identifier "f",
      .identifier "a", .identifier "b", .value (.int 1), .identifier "x"] := by
    cbv
  rw [hatoms] at hv
  simpa using hv

/-- The tree of a number alone. -/
def literal (v : Value) : Expr := atom (.value v) ⟨1, 1⟩

/-- A numeral by itself is read as its constant. -/
theorem parse_literal {c : Char} {front : List Char} {v : Value}
    (hstart : Scan.StartsNumber c front = true) (hnumber : Scan.number (c :: front) = c :: front)
    (hvalue : Value.ofLiteral? (c :: front) = some v) :
    parse .none (String.ofList (c :: front)) = .ok (literal v) :=
  parse_of_tokens (tokenize_numeral hstart hnumber hvalue) rfl

/-- A constant is a tree with one node. -/
theorem nodes_literal (v : Value) : (literal v).nodes = [literal v] := by
  rw [nodes_eq]
  rfl

/-- A constant stands beside nothing. -/
theorem separated_literal (v : Value) : (literal v).Separated := by
  intro n hn
  rw [nodes_literal] at hn
  obtain rfl := List.mem_singleton.mp hn
  rfl

/-- The only constant of a literal is its own. -/
theorem value_mem_literal {v w : Value} (hw : .value w ∈ (literal v).atoms) : w = v := by
  rw [atoms, nodes_literal] at hw
  simpa [literal, atom?] using hw

theorem parse_half :
    parse .none "0.5" = .ok (literal (.double (Float.ofBits 0x3FE0000000000000))) := by
  have hvalue : Value.ofLiteral? ['0', '.', '5']
      = some (.double (Float.ofBits 0x3FE0000000000000)) := by
    rfl
  exact parse_literal (by decide) (by decide) hvalue

theorem parse_tenth : parse .none "0.1f" = .ok (literal (.float (Float32.ofBits 0x3DCCCCCD))) := by
  have hvalue : Value.ofLiteral? ['0', '.', '1', 'f']
      = some (.float (Float32.ofBits 0x3DCCCCCD)) := by
    rfl
  exact parse_literal (by decide) (by decide) hvalue

/-- The shortest text of a tenth is read as the same number. -/
theorem readsBack_tenth : (Value.float (Float32.ofBits 0x3DCCCCCD)).ReadsBack := by
  have hrender : (Value.float (Float32.ofBits 0x3DCCCCCD)).render = "0.1f" := by decide +kernel
  refine ⟨'0', ['.', '1', 'f'], ?_, by rfl⟩
  rw [hrender]
  rfl

/-- The text keeps its blank between the signs and gets brackets behind `sizeof`. Numbers of eight
bytes are read again as well, and so is an odd one of four bytes. -/
theorem parse_render_accessChoice :
    accessChoice.render SymbolTable.initial.names
        = "p->x ? f(a, - -b[1]) : (int*) sizeof(x)" ∧
      (∃ e', parse .none (accessChoice.render SymbolTable.initial.names) = .ok e' ∧
        e'.unplaced = accessChoice.reprint) ∧
      (∃ e', parse .none ((literal (.double (Float.ofBits 0x3FE0000000000000))).render
          SymbolTable.initial.names) = .ok e' ∧
        e'.unplaced = (literal (.double (Float.ofBits 0x3FE0000000000000))).reprint) ∧
      ∃ e', parse .none ((literal (.float (Float32.ofBits 0x3DCCCCCD))).render
          SymbolTable.initial.names) = .ok e' ∧
        e'.unplaced = (literal (.float (Float32.ofBits 0x3DCCCCCD))).reprint := by
  refine ⟨by decide, ?_, ?_, ?_⟩
  · refine parse_render parse_accessChoice (fun _ => grouped_accessChoice) separated_accessChoice
      (fun x hx => ?_) (fun x hx => ?_) fun x hx => ?_ <;> cases value_mem_accessChoice hx
  · refine parse_render parse_half (fun _ => .atom _ _) (separated_literal _) (fun x hx => ?_)
      (fun x hx => ?_) fun x hx => ?_
    · obtain rfl := Value.double.inj (value_mem_literal hx)
      decide
    · cases value_mem_literal hx
    · cases value_mem_literal hx
  · refine parse_render parse_tenth (fun _ => .atom _ _) (separated_literal _) (fun x hx => ?_)
      (fun x hx => ?_) fun x hx _ => ?_
    · cases value_mem_literal hx
    · obtain rfl := Value.float.inj (value_mem_literal hx)
      decide
    · obtain rfl := Value.float.inj (value_mem_literal hx)
      exact readsBack_tenth

/-- The tree of `a. *b`. -/
def dereferencedMember : Expr :=
  binary (.binary .dot) (atom (.identifier "a") ⟨1, 1⟩)
    (prefixed (.pre .dereference) (atom (.identifier "b") ⟨1, 5⟩) ⟨1, 4⟩) ⟨1, 1⟩

/-- Not every text that is read is read again from what is printed: the printer puts a point and a
star side by side, and they are another operator. -/
theorem dereferencedMember_not_reread :
    ¬ ∀ source e, parse .none source = .ok e →
      ∃ e', parse .none (e.render SymbolTable.initial.names) = .ok e' ∧
        e'.unplaced = e.reprint := by
  intro h
  have hparse : parse .none "a. *b" = .ok dereferencedMember := by cbv
  obtain ⟨e', he', hreprint⟩ := h _ _ hparse
  have htext : dereferencedMember.render SymbolTable.initial.names = "a.*b" := by decide
  have hreread : parse .none "a.*b" = .ok (binary (.binary .dotStar)
      (atom (.identifier "a") ⟨1, 1⟩) (atom (.identifier "b") ⟨1, 4⟩) ⟨1, 1⟩) := by
    cbv
  rw [htext, hreread] at he'
  obtain rfl := Except.ok.inj he'
  simp [unplaced, reprint, bracketSizeof, dereferencedMember] at hreprint

end Expr

end KernelTree
