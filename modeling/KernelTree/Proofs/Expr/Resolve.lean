import KernelTree.Expr.Parse
import KernelTree.Proofs.Token.Naming

/-!
# Names resolved while reading and afterwards

A name can be given its meaning by the scanner, before readings, brackets and casts are settled, or
in the finished tree. `SymbolTable.parse_eq_map_resolve` says that both ways give the same tree or
the same fault, as long as no name but a builtin one is a type.

An identifier called like a builtin type would break this, and the scanner never makes one.
`Naming.hide` says so by a relabelling that changes nothing else: the tokens are as they were
(`Naming.describes_hide`), and so is the tree (`Expr.mapAtoms_hide`).
-/

namespace KernelTree

namespace Naming

/-- Puts a leaf without a name in the place of identifiers that are called like a builtin type. -/
def hide (a : Atom) : Atom :=
  match a with
  | .identifier name => if (TypeId.builtin? name).isSome then .char "" else a
  | a => a

/-- Hiding names undoes nothing where none are known. -/
theorem describes_hide : Naming.none.Describes hide where
  identifier name h := by simp [hide, none, Option.isNone_iff_eq_none.mp h]
  other a h := by
    cases a with
    | identifier name => exact absurd rfl (h name)
    | _ => rfl

/-- Hiding names keeps the types. -/
theorem vartype?_hide (a : Atom) : (hide a).vartype? = a.vartype? := by
  cases a with
  | identifier name =>
    simp only [hide]
    split <;> rfl
  | _ => rfl

/-- Where names mean nothing, only the builtin types are types. -/
theorem onlyBuiltinTypes_none : Naming.none.OnlyBuiltinTypes := by
  intro name id h
  cases h

/-- Names that stand for no type but the builtin ones make no leaf a type that was none. -/
theorem vartype?_relabel_hide {names : Naming} (h : names.OnlyBuiltinTypes) (a : Atom) :
    (names.relabel (hide a)).vartype? = a.vartype? := by
  cases a with
  | identifier name =>
    by_cases hb : (TypeId.builtin? name).isSome
    · rw [hide, if_pos hb]
      rfl
    · rw [hide, if_neg hb]
      cases hs : names name with
      | none => simp [relabel, hs]
      | some s =>
        cases s with
        | type id => exact absurd (h name id hs) hb
        | _ => simp [relabel, hs, Atom.ofSymbol, Atom.vartype?]
  | _ => rfl

end Naming

/-- The scanner calls no identifier like a builtin type. -/
theorem tokensAt_hide {start : Location} {text : List Char} {tokens : List Token}
    (h : tokensAt .none start text = .ok tokens) :
    tokens.map (Token.mapAtom Naming.hide) = tokens := by
  have hd := tokensAt_naming Naming.describes_hide Naming.onlyBuiltinTypes_none start text
  rw [h] at hd
  exact (Except.ok.inj hd).symm

/-- No identifier in a tree that was read is called like a builtin type: the builder could not tell
the difference. -/
theorem Expr.mapAtoms_hide {tokens : List Token} {e : Expr}
    (ht : tokens.map (Token.mapAtom Naming.hide) = tokens) (he : Expr.ofTokens tokens = .ok e) :
    e.mapAtoms Naming.hide = e := by
  have h := Expr.ofTokens_map Naming.vartype?_hide tokens
  rw [ht, he] at h
  exact (Except.ok.inj h).symm

/-- Relabelling twice is relabelling once. -/
theorem Token.mapAtom_mapAtom (f g : Atom → Atom) (t : Token) :
    (t.mapAtom g).mapAtom f = t.mapAtom (f ∘ g) := by
  obtain ⟨lexeme, l⟩ := t
  cases lexeme <;> rfl

/-- A tree read with names is the tree read without, each identifier replaced by what it names. -/
theorem Expr.parse_naming {names : Naming} (h : names.OnlyBuiltinTypes) (source : String) :
    Expr.parse names source = (Expr.parse .none source).map (Expr.mapAtoms names.relabel) := by
  unfold Expr.parse tokenize
  rw [tokensAt_naming names.describes_relabel h]
  cases hs : tokensAt .none .start source.toList with
  | error e => rfl
  | ok tokens =>
    have hhide := tokensAt_hide hs
    have htokens : tokens.map (Token.mapAtom names.relabel)
        = tokens.map (Token.mapAtom (names.relabel ∘ Naming.hide)) := by
      calc tokens.map (Token.mapAtom names.relabel)
          = (tokens.map (Token.mapAtom Naming.hide)).map (Token.mapAtom names.relabel) := by
            rw [hhide]
        _ = tokens.map (Token.mapAtom (names.relabel ∘ Naming.hide)) := by
            simp [Token.mapAtom_mapAtom]
    -- The builder needs a relabelling that makes no leaf a type, which `relabel` alone is not.
    simp only [Except.map]
    rw [htokens, Expr.ofTokens_map (f := names.relabel ∘ Naming.hide)
      (Naming.vartype?_relabel_hide h)]
    cases he : Expr.ofTokens tokens with
    | error e => rfl
    | ok e =>
      have hmap : e.mapAtoms (names.relabel ∘ Naming.hide) = e.mapAtoms names.relabel := by
        rw [← Expr.mapAtoms_mapAtoms, Expr.mapAtoms_hide hhide he]
      simp [Except.map, hmap]

namespace SymbolTable

/-- Resolving a leaf is replacing it by what it names in the scope. -/
theorem resolveAtom_eq_relabel (t : SymbolTable) (scope : ScopeId) :
    t.resolveAtom scope = (t.naming scope).relabel := by
  funext a
  cases a <;> rfl

/-- **Resolving names while reading and afterwards is the same**: the same tree with the same
places, or the same fault at the same place, as long as the scope knows no type but the builtin
ones. -/
theorem parse_eq_map_resolve (t : SymbolTable) (scope : ScopeId)
    (h : (t.naming scope).OnlyBuiltinTypes) (source : String) :
    t.parse scope source = (Expr.parse .none source).map (t.resolve scope) := by
  have hresolve : t.resolve scope = Expr.mapAtoms (t.naming scope).relabel := by
    funext e
    rw [resolve, resolveAtom_eq_relabel]
  rw [hresolve]
  exact Expr.parse_naming h source

/-- A name means what some scope of the table says. -/
theorem mem_names_of_lookup {t : SymbolTable} {scope : ScopeId} {name : String} {s : Symbol}
    (h : t.lookup scope name = some s) : ∃ sc ∈ t.scopes.toList, (name, s) ∈ sc.names := by
  obtain ⟨id, -, hlocal⟩ := List.exists_of_findSome?_eq_some h
  obtain ⟨sc, hsc, hfind⟩ := Option.bind_eq_some_iff.mp hlocal
  obtain ⟨⟨name', s'⟩, hfound, rfl⟩ := Option.map_eq_some_iff.mp hfind
  have hname : name' = name := by simpa using List.find?_some hfound
  subst hname
  exact ⟨sc, Array.mem_toList_iff.mpr (Array.mem_of_getElem? hsc), List.mem_of_find?_eq_some hfound⟩

/-- The builtin types and one variable. -/
def withCounter : SymbolTable :=
  (initial.addVariable .global ⟨"x", .plain ⟨4⟩, [], .none⟩).2

/-- The table declares no types. -/
theorem onlyBuiltinTypes_withCounter : (withCounter.naming .global).OnlyBuiltinTypes := by
  intro name id h
  obtain ⟨sc, hsc, hmem⟩ := mem_names_of_lookup h
  have hall : ∀ sc ∈ withCounter.scopes.toList, ∀ p ∈ sc.names,
      (TypeId.builtin? p.1).isSome ∨ p.2 = .variable ⟨0⟩ := by decide
  simpa using hall sc hsc _ hmem

/-- Reading with names finds the variable; reading without leaves it to be resolved, and the name
that is not declared stays in both. -/
theorem parse_withCounter :
    (withCounter.naming .global).OnlyBuiltinTypes ∧
      withCounter.lookup .global "x" = some (.variable ⟨0⟩) ∧
      withCounter.parse .global "x * (int) y"
        = (Expr.parse .none "x * (int) y").map (withCounter.resolve .global) :=
  ⟨onlyBuiltinTypes_withCounter, by decide,
    parse_eq_map_resolve withCounter .global onlyBuiltinTypes_withCounter "x * (int) y"⟩

end SymbolTable

end KernelTree
