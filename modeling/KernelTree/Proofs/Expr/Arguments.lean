import KernelTree.Proofs.Expr.NormalForm

/-!
# Comma chains and lists of arguments

A list of arguments is written as a chain of commas that leans to the left, and a chain is read back
by following its left side. Joining what a chain lists gives the chain again, wherever its commas
stood (`Expr.SameChain`). Reading back what was joined gives the list again exactly if nothing in it
is taken for a part of the chain: a first argument that is a chain itself is merged into it, and an
empty expression on its own lists nothing (`Expr.args_commaChain_iff`).
-/

namespace KernelTree.Expr

/-- Whether the node is a comma between two operands. -/
def isComma : Expr → Bool
  | binary (.binary .comma) _ _ _ => true
  | _ => false

/-- Two trees that agree but for the places of the comma nodes on their left sides. -/
inductive SameChain : Expr → Expr → Prop
  | operand (e : Expr) : SameChain e e
  | comma {a a' : Expr} (h : SameChain a a') (b : Expr) (l l' : Location) :
      SameChain (binary (.binary .comma) a b l) (binary (.binary .comma) a' b l')

variable {e : Expr} {rest : List Expr}

/-! ### Reading a chain -/

/-- The left side of a chain ends at anything that is neither a comma nor empty. -/
theorem argsBefore_operand (hcomma : e.isComma = false) (hempty : e.isEmpty = false)
    (rest : List Expr) : e.argsBefore rest = e :: rest := by
  refine argsBefore.eq_3 e rest ?_ ?_
  · rintro a b l rfl
    cases hcomma
  · rintro l rfl
    cases hempty

/-- In front of other arguments a chain lists at least one. -/
theorem length_lt_argsBefore (e : Expr) (hrest : rest ≠ []) :
    rest.length < (e.argsBefore rest).length := by
  induction e, rest using argsBefore_induction with
  | comma a b l rest ih =>
    have hmore := ih (List.cons_ne_nil b rest)
    rw [List.length_cons] at hmore
    exact Nat.lt_of_succ_lt hmore
  | nothing l => exact absurd rfl hrest
  | operand e rest _ hargs =>
    rw [hargs]
    exact Nat.lt_succ_self _

/-- A chain is more than one argument. -/
theorem argsBefore_ne_of_isComma (h : e.isComma = true) (rest : List Expr) :
    e.argsBefore rest ≠ e :: rest := by
  unfold isComma at h
  split at h
  case h_1 a b l =>
    intro heq
    have hmore := length_lt_argsBefore a (List.cons_ne_nil b rest)
    rw [← argsBefore.eq_1 rest a b l, heq] at hmore
    exact Nat.lt_irrefl _ hmore
  case h_2 => cases h

/-- All but chains are read as one argument, an empty expression only in front of others. -/
theorem argsBefore_eq_cons_iff : e.argsBefore rest = e :: rest ↔
    e.isComma = false ∧ (e.isEmpty = false ∨ rest ≠ []) := by
  cases hcomma : e.isComma with
  | true => simp [argsBefore_ne_of_isComma hcomma rest]
  | false =>
    cases hempty : e.isEmpty with
    | false => simp [argsBefore_operand hcomma hempty]
    | true =>
      cases e with
      | empty l => by_cases hrest : rest = [] <;> simp [argsBefore, hrest]
      | _ => cases hempty

/-! ### Joining arguments -/

/-- The operands of the first argument take its place. -/
theorem args_commaChain_cons (e : Expr) (rest : List Expr) (l : Location) :
    (commaChain (e :: rest) l).args = e.argsBefore rest := by
  rw [commaChain, args, argsBefore_foldl, List.append_nil]

/-- By induction along the left side: joined with what follows it, a chain is itself the first
operand of the new one. -/
theorem exists_commaChain_argsBefore (e : Expr) (rest : List Expr) (l : Location)
    (h : e.isEmpty = false ∨ rest ≠ []) :
    ∃ e', SameChain e e' ∧
      commaChain (e.argsBefore rest) l = rest.foldl (mkBinary .comma) e' := by
  induction e, rest using argsBefore_induction with
  | comma a b l' rest ih =>
    obtain ⟨a', hsame, hchain⟩ := ih (.inr (List.cons_ne_nil b rest))
    exact ⟨mkBinary .comma a' b, hsame.comma b l' a'.location, hchain⟩
  | nothing l' => simp [isEmpty] at h
  | operand e rest _ hargs => exact ⟨e, .operand e, by rw [hargs, commaChain]⟩

/-- What a tree lists is joined to the same tree, wherever its commas stood. -/
theorem sameChain_commaChain_args (h : e.isEmpty = false) (l : Location) :
    SameChain e (commaChain e.args l) := by
  obtain ⟨e', hsame, hchain⟩ := exists_commaChain_argsBefore e [] l (.inl h)
  rw [args, hchain]
  exact hsame

/-- **Comma chains and lists of arguments are inverse to each other**: a tree that is not empty is
what its arguments are joined to, but for the places of the commas; no arguments are joined to an
empty expression; and arguments are read back from their chain as they were, unless the first is a
chain itself or there is nothing but an empty expression. -/
theorem args_commaChain_iff (l : Location) :
    (∀ e : Expr, e.isEmpty = false → SameChain e (commaChain e.args l)) ∧
      (∀ l', commaChain (empty l').args l = empty l) ∧
      ∀ args, (commaChain args l).args = args ↔
        (∀ e ∈ args.head?, e.isComma = false) ∧ ∀ l', args ≠ [empty l'] := by
  refine ⟨fun e h => sameChain_commaChain_args h l, fun l' => rfl, fun args => ?_⟩
  cases args with
  | nil => exact ⟨fun _ => ⟨nofun, nofun⟩, fun _ => rfl⟩
  | cons e rest =>
    have halone : (e.isEmpty = false ∨ rest ≠ []) ↔ ∀ l', e :: rest ≠ [empty l'] := by
      cases e <;> simp [isEmpty]
    rw [args_commaChain_cons, argsBefore_eq_cons_iff, halone]
    simp

/-- A name in the first line. -/
def nameAt (name : String) (column : Nat) : Expr := atom (.identifier name) ⟨1, column⟩

/-- A chain of two, `c, d`. -/
def twoArguments : Expr := binary (.binary .comma) (nameAt "c" 7) (nameAt "d" 10) ⟨1, 7⟩

/-- The chain of `a`, `b` and `c, d`. The first comma stands between its operands. -/
def threeArguments : Expr :=
  binary (.binary .comma) (binary (.binary .comma) (nameAt "a" 1) (nameAt "b" 4) ⟨1, 2⟩)
    twoArguments ⟨1, 1⟩

/-- The chain at the end is kept whole, and so is an empty expression in front of it. In front of
another argument the chain is merged. -/
theorem args_commaChain_nested :
    (threeArguments.isEmpty = false ∧
      threeArguments.args = [nameAt "a" 1, nameAt "b" 4, twoArguments] ∧
      SameChain threeArguments (commaChain threeArguments.args .none)) ∧
    ((∀ e ∈ [empty .none, twoArguments].head?, e.isComma = false) ∧
        ∀ l', [empty .none, twoArguments] ≠ [empty l']) ∧
      (commaChain [empty .none, twoArguments] .none).args = [empty .none, twoArguments] ∧
    (commaChain [twoArguments, nameAt "e" 13] .none).args
      = [nameAt "c" 7, nameAt "d" 10, nameAt "e" 13] := by
  have hfirst : ∀ e ∈ [empty .none, twoArguments].head?, e.isComma = false := by
    rintro _ ⟨⟩
    rfl
  have halone : ∀ l', [empty .none, twoArguments] ≠ [empty l'] := nofun
  exact ⟨⟨rfl, rfl, (args_commaChain_iff .none).1 threeArguments rfl⟩, ⟨hfirst, halone⟩,
    ((args_commaChain_iff .none).2.2 _).mpr ⟨hfirst, halone⟩, rfl⟩

end KernelTree.Expr
