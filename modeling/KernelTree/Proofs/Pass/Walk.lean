import Mathlib
import KernelTree.Proofs.Pass.BottomUp

/-!
# The walks over statements and expressions

Statements and expressions are trees of a shape (`Statement.shape`, `Expr.shape`), and the walks of
passes over them are the walks over trees of that shape, so both come to what the answers of the
pass rewrite the tree to (`walk_rewrites`).
-/

namespace KernelTree

namespace Walk

variable {σ ε α β γ : Type}

theorem mapM_congr {l : List α} {w w' : α → Walk σ ε β} (h : ∀ a ∈ l, w a = w' a) :
    l.mapM w = l.mapM w' := by
  induction l with
  | nil => rfl
  | cons a l ih =>
    rw [List.mapM_cons, List.mapM_cons, h a List.mem_cons_self,
      ih fun b hb => h b (List.mem_cons_of_mem a hb)]

/-- What is done with the result of each element may be done with all results at the end. -/
theorem mapM_map (g : β → γ) (w : α → Walk σ ε β) (l : List α) :
    l.mapM (fun a => g <$> w a) = List.map g <$> l.mapM w := by
  induction l with
  | nil => rfl
  | cons a l ih => simp [List.mapM_cons, ih]

/-- A list gives as many results as it has elements. -/
theorem mapM_bind_congr {l : List α} {w : α → Walk σ ε β} {f g : List β → Walk σ ε γ}
    (h : ∀ bs : List β, bs.length = l.length → f bs = g bs) : l.mapM w >>= f = l.mapM w >>= g := by
  induction l generalizing f g with
  | nil => simpa using h [] rfl
  | cons a l ih =>
    simp only [List.mapM_cons, bind_assoc, pure_bind]
    congr 1
    funext b
    exact ih fun bs hbs => h (b :: bs) (by rw [List.length_cons, hbs, List.length_cons])

theorem start_map (g : α → β) (w : Walk σ ε α) (s : σ) :
    (g <$> w).start s = (g (w.start s).1, (w.start s).2) := rfl

/-- What a run without a failure comes to. -/
theorem exists_of_failure {run : α × Progress σ ε} (h : run.2.failure = none) :
    ∃ a s, run = (a, ⟨s, none⟩) :=
  ⟨run.1, run.2.state, by rw [← h]⟩

end Walk

variable {σ ε : Type}

/-! ### Expressions -/

/-- A pass over expressions is told nothing about what is around a node. -/
def ExprPass.visitor (pass : ExprPass σ ε) : Visitor NodeKind Unit Expr σ ε where
  accepts := pass.accepts
  visit e _ := pass.visit e

namespace Expr

/-- The expressions inside an expression, in the order of its text. -/
def parts : Expr → List Expr
  | empty _ | atom _ _ => []
  | prefixed _ v _ | postfixed _ v _ | pair _ v _ | sizeof v _ | delete v _ _ | throw v _
  | cast _ _ v _ | parens v _ => [v]
  | binary _ a b _ | subscript a b _ | new _ a b _ => [a, b]
  | ternary a b c _ | launch a b c _ => [a, b, c]
  | call callee args _ => callee :: args
  | tuple args _ => args

/-- What stands in the place of a node after the answer about it: a removed one leaves an empty
expression. -/
def inPlace : Verdict Expr × Expr → Expr
  | (.keep, e) => e
  | (.replace e', _) => e'
  | (.remove, e) => .empty e.location

/-- The node with what the answers leave of the expressions inside. All else about it stays. -/
def rebuild : Expr → List (Verdict Expr × Expr) → Expr
  | prefixed op _ l, [v] => .prefixed op (inPlace v) l
  | postfixed op _ l, [v] => .postfixed op (inPlace v) l
  | binary op _ _ l, [a, b] => .binary op (inPlace a) (inPlace b) l
  | ternary _ _ _ l, [a, b, c] => .ternary (inPlace a) (inPlace b) (inPlace c) l
  | pair op _ l, [v] => .pair op (inPlace v) l
  | subscript _ _ l, [a, b] => .subscript (inPlace a) (inPlace b) l
  | call _ _ l, callee :: args => .call (inPlace callee) (args.map inPlace) l
  | launch _ _ _ l, [a, b, c] => .launch (inPlace a) (inPlace b) (inPlace c) l
  | sizeof _ l, [v] => .sizeof (inPlace v) l
  | new t _ _ l, [a, b] => .new t (inPlace a) (inPlace b) l
  | delete _ isArray l, [v] => .delete (inPlace v) isArray l
  | throw _ l, [v] => .throw (inPlace v) l
  | cast k t _ l, [v] => .cast k t (inPlace v) l
  | parens _ l, [v] => .parens (inPlace v) l
  | tuple _ l, args => .tuple (args.map inPlace) l
  | e, _ => e

theorem parts_eq_children (e : Expr) : e.parts = e.children := by
  cases e <;> rfl

theorem inPlace_eq_settled (v : Verdict Expr) (e : Expr) : inPlace (v, e) = e.settled v := by
  cases v <;> rfl

/-- The expressions inside are put back in the places of the children. -/
theorem rebuild_eq_withChildren (e : Expr) (answers : List (Verdict Expr × Expr)) :
    e.rebuild answers = e.withChildren (answers.map inPlace) := by
  rcases answers with _ | ⟨a, _ | ⟨b, _ | ⟨c, _ | ⟨d, answers⟩⟩⟩⟩ <;> cases e <;> rfl

/-- Expressions are made of the expressions inside. -/
def shape : Shape NodeKind Unit Expr where
  kind := kind
  parts := parts
  inside _ _ := ()
  rebuild := rebuild
  sizeOf_lt h := sizeOf_lt_of_mem_children (parts_eq_children _ ▸ h)
  kind_rebuild e _ := by rw [rebuild_eq_withChildren, kind_withChildren]

theorem visit_eq (pass : ExprPass σ ε) (e : Expr) :
    e.visit pass = (fun v => inPlace (v, e)) <$> shape.answer pass.visitor () e := by
  simp only [inPlace_eq_settled]
  rw [visit, Shape.answer]
  split
  · rw [if_pos (by assumption)]
    rfl
  · rw [if_neg (by assumption)]
    rfl

/-- The walk over an expression is the walk over it as a tree. -/
theorem walk_eq (pass : ExprPass σ ε) (e : Expr) :
    e.walk pass = inPlace <$> shape.walk pass.visitor () e := by
  induction e using inductionOn with
  | step e ih =>
    have hchildren : e.children.mapM (walk pass)
        = List.map inPlace <$> e.parts.mapM (shape.walk pass.visitor ()) := by
      rw [parts_eq_children, Walk.mapM_congr ih, Walk.mapM_map]
    have hrebuild (answers : List (Verdict Expr × Expr)) :
        e.withChildren (answers.map inPlace) = shape.rebuild e answers :=
      (rebuild_eq_withChildren e answers).symm
    rw [walk, List.mapM_subtype (g := walk pass) fun _ _ => rfl, List.unattach_attach, hchildren,
      shape.walk_eq]
    simp only [visit_eq, bind_map_left, map_bind, Functor.map_map, hrebuild]
    rfl

end Expr

/-! ### Statements -/

/-- A pass over statements is told the scope around a statement. -/
def StatementPass.visitor (pass : StatementPass σ ε) :
    Visitor StatementKind ScopeId Statement σ ε where
  accepts := pass.accepts
  visit := pass.visit

namespace Statement

/-- The statements inside a statement, in the order of its text. -/
def parts : Statement → List Statement
  | block _ body _ => body
  | loop _ init check update body _ _ => init :: check :: update :: body
  | branch _ condition body none _ => condition :: body
  | branch _ condition body (some otherwise) _ => condition :: (body ++ otherwise)
  | .while _ condition body _ _ => condition :: body
  | _ => []

/-- What stands in the place of a statement that has it to itself: a removed one leaves an empty
statement. -/
def inSlot : Verdict Statement × Statement → Statement
  | (.keep, s) => s
  | (.replace s', _) => s'
  | (.remove, s) => .empty s.location

/-- What stands in the place of a statement of a list: a removed one leaves the list. -/
def inList : Verdict Statement × Statement → List Statement
  | (.keep, s) => [s]
  | (.replace s', _) => [s']
  | (.remove, _) => []

/-- The statement with what the answers leave of the statements inside. -/
def rebuild : Statement → List (Verdict Statement × Statement) → Statement
  | block scope _ l, body => .block scope (body.flatMap inList) l
  | loop scope _ _ _ _ attributes l, init :: check :: update :: body =>
    .loop scope (inSlot init) (inSlot check) (inSlot update) (body.flatMap inList) attributes l
  | branch scope _ _ none l, condition :: body =>
    .branch scope (inSlot condition) (body.flatMap inList) none l
  | branch scope _ body (some _) l, condition :: rest =>
    .branch scope (inSlot condition) ((rest.take body.length).flatMap inList)
      (some ((rest.drop body.length).flatMap inList)) l
  | .while scope _ _ isDoWhile l, condition :: body =>
    .while scope (inSlot condition) (body.flatMap inList) isDoWhile l
  | s, _ => s

/-- The parts of a statement are smaller than it is. -/
theorem sizeOf_lt_of_mem_parts {s c : Statement} (h : c ∈ s.parts) : sizeOf c < sizeOf s := by
  have hlist {body : List Statement} (hc : c ∈ body) : sizeOf c < sizeOf body :=
    List.sizeOf_lt_of_mem hc
  cases s with
  | block scope body l =>
    have : sizeOf c < sizeOf body := hlist h
    rw [block.sizeOf_spec]
    omega
  | loop scope init check update body attributes l =>
    simp only [parts, List.mem_cons] at h
    rw [loop.sizeOf_spec]
    rcases h with rfl | rfl | rfl | hbody
    · omega
    · omega
    · omega
    · have := hlist hbody
      omega
  | branch scope condition body otherwise l =>
    cases otherwise with
    | none =>
      rw [branch.sizeOf_spec]
      rcases List.mem_cons.mp h with rfl | hbody
      · omega
      · have := hlist hbody
        omega
    | some otherwise =>
      simp only [parts, List.mem_cons, List.mem_append] at h
      rw [branch.sizeOf_spec, Option.some.sizeOf_spec]
      rcases h with rfl | hbody | hotherwise
      · omega
      · have := hlist hbody
        omega
      · have := hlist hotherwise
        omega
  | «while» scope condition body isDoWhile l =>
    rw [«while».sizeOf_spec]
    rcases List.mem_cons.mp h with rfl | hbody
    · omega
    · have := hlist hbody
      omega
  | _ => cases h

theorem kind_rebuild (s : Statement) (answers : List (Verdict Statement × Statement)) :
    (s.rebuild answers).kind = s.kind := by
  unfold rebuild
  split <;> rfl

/-- Statements are made of the statements inside, and the scope around these is that of the
statement if it opens one. -/
def shape : Shape StatementKind ScopeId Statement where
  kind := kind
  parts := parts
  inside s scope := s.scope?.getD scope
  rebuild := rebuild
  sizeOf_lt := sizeOf_lt_of_mem_parts
  kind_rebuild := kind_rebuild

theorem location_rebuild (s : Statement) (answers : List (Verdict Statement × Statement)) :
    (s.rebuild answers).location = s.location := by
  unfold rebuild
  split <;> rfl

variable {pass : StatementPass σ ε}

theorem settle_eq (scope : ScopeId) (s : Statement) :
    settle pass scope s = (fun v => inSlot (v, s)) <$> s.answer pass scope := by
  rw [settle, map_eq_pure_bind]
  congr 1
  funext v
  cases v <;> rfl

theorem settleInList_eq (scope : ScopeId) (s : Statement) :
    settleInList pass scope s = (fun v => inList (v, s)) <$> s.answer pass scope := by
  rw [settleInList, map_eq_pure_bind]
  congr 1
  funext v
  cases v <;> rfl

/-- The walk below a statement is the walk over the statements inside. -/
def WalksParts (pass : StatementPass σ ε) (s : Statement) : Prop :=
  ∀ scope, walkBelow pass s
    = s.rebuild <$> s.parts.mapM (shape.walk pass.visitor (s.scope?.getD scope))

section

variable {s : Statement} {l : List Statement}

theorem WalksParts.walk (h : s.WalksParts pass) (scope : ScopeId) :
    shape.walk pass.visitor scope s
      = walkBelow pass s >>= fun s' => (·, s') <$> s'.answer pass scope := by
  rw [Shape.walk_eq, h scope, bind_map_left]
  rfl

theorem WalksParts.settle (h : s.WalksParts pass) (scope : ScopeId) :
    (walkBelow pass s >>= Statement.settle pass scope)
      = inSlot <$> shape.walk pass.visitor scope s := by
  simp only [h.walk scope, map_bind, Functor.map_map]
  congr 1
  funext s'
  exact settle_eq scope s'

theorem WalksParts.settle_bind (h : s.WalksParts pass) (scope : ScopeId) {β : Type}
    (w : Statement → Walk σ ε β) :
    (walkBelow pass s >>= fun s' => Statement.settle pass scope s' >>= w)
      = shape.walk pass.visitor scope s >>= fun answer => w (inSlot answer) := by
  rw [← bind_assoc, h.settle, bind_map_left]

theorem WalksParts.settleInList (h : s.WalksParts pass) (scope : ScopeId) :
    (walkBelow pass s >>= Statement.settleInList pass scope)
      = inList <$> shape.walk pass.visitor scope s := by
  simp only [h.walk scope, map_bind, Functor.map_map]
  congr 1
  funext s'
  exact settleInList_eq scope s'

theorem walkList_eq (h : ∀ s ∈ l, s.WalksParts pass) (scope : ScopeId) :
    walkList pass scope l
      = List.flatMap inList <$> l.mapM (shape.walk pass.visitor scope) := by
  induction l with
  | nil => simp [walkList]
  | cons s l ih =>
    obtain ⟨hs, hl⟩ := List.forall_mem_cons.mp h
    rw [walkList, ← bind_assoc, hs.settleInList, ih hl]
    simp [List.mapM_cons]

end

/-- Going over a statement is going over its parts in their order and putting them back. -/
theorem walksParts (pass : StatementPass σ ε) (s : Statement) : s.WalksParts pass := by
  induction s using shape.inductionOn with
  | step s ih =>
    intro scope
    cases s with
    | block scope' body l =>
      have hbody : ∀ s ∈ body, s.WalksParts pass := ih
      rw [walkBelow, walkList_eq hbody]
      rw [bind_map_left, bind_pure_comp]
      rfl
    | loop scope' init check update body attributes l =>
      have hparts : ∀ s ∈ init :: check :: update :: body, s.WalksParts pass := ih
      simp only [List.forall_mem_cons] at hparts
      obtain ⟨hinit, hcheck, hupdate, hbody⟩ := hparts
      simp only [walkBelow, walkList_eq hbody, hinit.settle_bind, hcheck.settle_bind,
        hupdate.settle_bind]
      simp [parts, rebuild, scope?]
    | branch scope' condition body otherwise l =>
      cases otherwise with
      | none =>
        have hparts : ∀ s ∈ condition :: body, s.WalksParts pass := ih
        obtain ⟨hcondition, hbody⟩ := List.forall_mem_cons.mp hparts
        simp only [walkBelow, walkList_eq hbody, hcondition.settle_bind]
        simp [parts, rebuild, scope?]
      | some otherwise =>
        have hparts : ∀ s ∈ condition :: (body ++ otherwise), s.WalksParts pass := ih
        simp only [List.forall_mem_cons, List.forall_mem_append] at hparts
        obtain ⟨hcondition, hbody, hotherwise⟩ := hparts
        simp only [walkBelow, walkList_eq hbody, walkList_eq hotherwise, hcondition.settle_bind]
        simp only [parts, rebuild, scope?, Option.getD_some, bind_pure_comp, bind_map_left,
          Functor.map_map, List.mapM_cons, List.mapM_append, map_bind]
        congr 1
        funext condition'
        -- Where the first list ends is known from how long it is.
        refine Walk.mapM_bind_congr fun body' hlength => ?_
        simp [← hlength]
    | «while» scope' condition body isDoWhile l =>
      have hparts : ∀ s ∈ condition :: body, s.WalksParts pass := ih
      obtain ⟨hcondition, hbody⟩ := List.forall_mem_cons.mp hparts
      simp only [walkBelow, walkList_eq hbody, hcondition.settle_bind]
      simp [parts, rebuild, scope?]
    | _ => simp [walkBelow, parts, rebuild]

/-- The walk over a statement is the walk over it as a tree. -/
theorem walk_eq (pass : StatementPass σ ε) (scope : ScopeId) (s : Statement) :
    s.walk pass scope = inSlot <$> shape.walk pass.visitor scope s :=
  (walksParts pass s).settle scope

/-- Statements stay where they are when those inside are rewritten. -/
theorem location_rewriteBelow (f : Place → Verdict Statement) (s : Statement) :
    (shape.rewriteBelow f s).location = s.location := by
  rw [shape.rewriteBelow_eq]
  exact location_rebuild s _

end Statement

/-- Expressions stay where they are when those inside are rewritten. -/
theorem Expr.location_rewriteBelow (f : Place → Verdict Expr) (e : Expr) :
    (shape.rewriteBelow f e).location = e.location := by
  rw [shape.rewriteBelow_eq]
  exact (congrArg location (rebuild_eq_withChildren e _)).trans (location_withChildren e _)

/-- **The walks rewrite from the leaves up.** Over statements and over expressions, the walk of a
pass comes to the tree that some answers, one for each place, rewrite the given tree to. The answers
are those of the pass, which is asked about the nodes of the kinds it cares about, each once, told
the scope around it and with everything below it rewritten; all other nodes, and all from the first
failure on, are kept. A node that is asked about stands where it stood, and so does what a removed
one leaves empty. -/
theorem walk_rewrites :
    (∀ (pass : StatementPass σ ε) (scope : ScopeId) (s : Statement) (state : σ),
      ∃ (f : Place → Verdict Statement) (p : Progress σ ε),
        (s.walk pass scope).start state
          = (Statement.inSlot (f [], Statement.shape.rewriteBelow f s), p) ∧
        Statement.shape.Rewrites pass.visitor scope s state f p ∧
        ∀ site ∈ Statement.shape.sites scope s,
          (Statement.shape.presented f site).location = site.node.location) ∧
    (∀ (pass : ExprPass σ ε) (e : Expr) (state : σ),
      ∃ (f : Place → Verdict Expr) (p : Progress σ ε),
        (e.walk pass).start state = (Expr.inPlace (f [], Expr.shape.rewriteBelow f e), p) ∧
        Expr.shape.Rewrites pass.visitor () e state f p ∧
        ∀ site ∈ Expr.shape.sites () e,
          (Expr.shape.presented f site).location = site.node.location) := by
  constructor
  · intro pass scope s state
    obtain ⟨f, p, hwalk, hrewrites⟩ :=
      Statement.shape.exists_rewrites pass.visitor scope s state
    refine ⟨f, p, ?_, hrewrites, fun site _ => Statement.location_rewriteBelow _ site.node⟩
    rw [Statement.walk_eq, Walk.start_map, hwalk]
  · intro pass e state
    obtain ⟨f, p, hwalk, hrewrites⟩ := Expr.shape.exists_rewrites pass.visitor () e state
    refine ⟨f, p, ?_, hrewrites, fun site _ => Expr.location_rewriteBelow _ site.node⟩
    rw [Expr.walk_eq, Walk.start_map, hwalk]

/-- A pass that writes down the scopes it is told: `return` statements are removed, and a `return`
stands in for what is empty. -/
def swapReturns : StatementPass (List ScopeId) Empty where
  accepts kind := kind = .return ∨ kind = .empty
  visit s scope seen :=
    match s with
    | .return .. => (.ok .remove, seen ++ [scope])
    | s => (.ok (.replace (.return none s.location)), seen ++ [scope])

/-- The statement `while (return) { ; { return; } }`. -/
def returningLoop : Statement :=
  .while ⟨1⟩ (.return none ⟨1, 8⟩)
    [.empty ⟨1, 18⟩, .block ⟨2⟩ [.return none ⟨1, 22⟩] ⟨1, 20⟩] false ⟨1, 1⟩

/-- A pass that counts the constants: zeros are removed, a two stands in for a one, and any other
number is a failure. -/
def pruneZeros : ExprPass Nat Location where
  accepts kind := kind = .value
  visit e count :=
    match e with
    | .atom (.value (.int 0)) _ => (.ok .remove, count + 1)
    | .atom (.value (.int 1)) l => (.ok (.replace (.ofValue (.int 2) l)), count + 1)
    | _ => (.error e.location, count + 1)

/-- The call `f(first, right + right, 7, 0)`. -/
def prunedCall (first right : Expr) : Expr :=
  .call (.atom (.identifier "f") ⟨1, 1⟩)
    [first, .binary (.binary .add) right right ⟨1, 6⟩, .ofValue (.int 7) ⟨1, 13⟩,
      .ofValue (.int 0) ⟨1, 16⟩] ⟨1, 1⟩

/-- What is removed is gone from a list and leaves a header empty, and a replacement is not asked
about. A walk over `f(0, 1 + 1, 7, 0)` that fails at the seven keeps what it has come to before, and
the zero behind stays. -/
theorem walk_rewrites_pruned :
    (∃ f, Statement.inSlot (f [], Statement.shape.rewriteBelow f returningLoop)
        = .while ⟨1⟩ (.empty ⟨1, 8⟩) [.return none ⟨1, 18⟩, .block ⟨2⟩ [] ⟨1, 20⟩] false ⟨1, 1⟩ ∧
      Statement.shape.Rewrites swapReturns.visitor .global returningLoop [] f
        ⟨[⟨1⟩, ⟨1⟩, ⟨2⟩], none⟩) ∧
    ∃ f, Expr.inPlace (f [], Expr.shape.rewriteBelow f
          (prunedCall (.ofValue (.int 0) ⟨1, 3⟩) (.ofValue (.int 1) ⟨1, 6⟩)))
        = prunedCall (.empty ⟨1, 3⟩) (.ofValue (.int 2) ⟨1, 6⟩) ∧
      Expr.shape.Rewrites pruneZeros.visitor ()
        (prunedCall (.ofValue (.int 0) ⟨1, 3⟩) (.ofValue (.int 1) ⟨1, 6⟩)) 0 f
        ⟨4, some ⟨1, 13⟩⟩ := by
  constructor
  · obtain ⟨f, p, hwalk, hrewrites, -⟩ := walk_rewrites.1 swapReturns .global returningLoop []
    -- The walk itself is run; the theorem then says which answers it stands for.
    have hrun : (returningLoop.walk swapReturns .global).start []
        = (.while ⟨1⟩ (.empty ⟨1, 8⟩) [.return none ⟨1, 18⟩, .block ⟨2⟩ [] ⟨1, 20⟩] false ⟨1, 1⟩,
          ⟨[⟨1⟩, ⟨1⟩, ⟨2⟩], none⟩) := by
      cbv
    obtain ⟨htree, rfl⟩ := Prod.mk.inj (hwalk.symm.trans hrun)
    exact ⟨f, htree, hrewrites⟩
  · obtain ⟨f, p, hwalk, hrewrites, -⟩ := walk_rewrites.2 pruneZeros
      (prunedCall (.ofValue (.int 0) ⟨1, 3⟩) (.ofValue (.int 1) ⟨1, 6⟩)) 0
    have hrun : ((prunedCall (.ofValue (.int 0) ⟨1, 3⟩) (.ofValue (.int 1) ⟨1, 6⟩)).walk
        pruneZeros).start 0
        = (prunedCall (.empty ⟨1, 3⟩) (.ofValue (.int 2) ⟨1, 6⟩), ⟨4, some ⟨1, 13⟩⟩) := by
      cbv
    obtain ⟨htree, rfl⟩ := Prod.mk.inj (hwalk.symm.trans hrun)
    exact ⟨f, htree, hrewrites⟩

end KernelTree
