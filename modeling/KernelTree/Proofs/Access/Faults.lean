import KernelTree.Proofs.Access.Index
import KernelTree.Proofs.Pass.Walk

/-!
# Faults of flattening

Which calls are at fault can be read off the source (`Flatten.fault?`), and so can what all others
become (`Expr.flattened`). Flattening stops at the first faulty call in the order of the walk: it is
reported and blamed, what was visited before its statement is flattened, and its statement and all
that follows stay as they are (`Statement.flatten_stops`).
-/

namespace KernelTree

/-! ### Walks that stop at the first fault -/

namespace Walk

variable {σ ε α β : Type} {report : σ → ε → σ}

/-- How a walk ends that finds these faults: it reports the first one and fails with it. -/
def outcome (report : σ → ε → σ) (state : σ) : List ε → Progress σ ε
  | [] => ⟨state, none⟩
  | f :: _ => ⟨report state f, some f⟩

/-- The walk does nothing once it has failed. -/
def Idles (w : Walk σ ε α) : Prop := ∀ p : Progress σ ε, p.failure.isSome → (w.run p).2 = p

/-- The walk finds these faults, and comes to `a` if there are none. -/
structure Reports (report : σ → ε → σ) (w : Walk σ ε α) (faults : List ε) (a : α) : Prop where
  progress : ∀ state, (w.run ⟨state, none⟩).2 = outcome report state faults
  result : faults = [] → ∀ state, (w.run ⟨state, none⟩).1 = a
  idles : w.Idles

theorem Reports.pure (a : α) : Reports report (pure a : Walk σ ε α) [] a where
  progress _ := rfl
  result _ _ := rfl
  idles _ _ := rfl

theorem Idles.bind {w : Walk σ ε α} {k : α → Walk σ ε β} (h : w.Idles) (hk : ∀ a, (k a).Idles) :
    (w >>= k).Idles := by
  intro p hp
  show ((k (w.run p).1).run (w.run p).2).2 = p
  rw [h p hp]
  exact hk _ p hp

/-- What follows a walk adds its faults to those before. -/
theorem Reports.bind {w : Walk σ ε α} {k : α → Walk σ ε β} {faults faults' : List ε} {a : α}
    {b : β} (h : Reports report w faults a) (hk : Reports report (k a) faults' b)
    (hidles : ∀ a, (k a).Idles) : Reports report (w >>= k) (faults ++ faults') b where
  progress state := by
    show ((k (w.run ⟨state, none⟩).1).run (w.run ⟨state, none⟩).2).2 = _
    rw [h.progress state]
    cases faults with
    | nil =>
      rw [h.result rfl state]
      exact hk.progress state
    | cons f rest => exact hidles _ _ rfl
  result hnil state := by
    obtain ⟨rfl, rfl⟩ := List.append_eq_nil_iff.mp hnil
    show ((k (w.run ⟨state, none⟩).1).run (w.run ⟨state, none⟩).2).1 = b
    rw [h.progress state, h.result rfl state]
    exact hk.result rfl state
  idles := h.idles.bind hidles

theorem Reports.map {w : Walk σ ε α} {faults : List ε} {a : α} (h : Reports report w faults a)
    (g : α → β) : Reports report (g <$> w) faults (g a) where
  progress := h.progress
  result hnil state := congrArg g (h.result hnil state)
  idles := h.idles

/-- A list is walked element by element, so its faults are those of the elements in order. -/
theorem Reports.mapM {l : List α} {w : α → Walk σ ε β} {faults : α → List ε} {f : α → β}
    (h : ∀ a ∈ l, Reports report (w a) (faults a) (f a)) :
    Reports report (l.mapM w) (l.flatMap faults) (l.map f) := by
  induction l with
  | nil => exact .pure []
  | cons a l ih =>
    obtain ⟨ha, hl⟩ := List.forall_mem_cons.mp h
    have hrest : Reports report (l.mapM w >>= fun bs => Pure.pure (f a :: bs))
        (l.flatMap faults ++ []) (f a :: l.map f) := (ih hl).bind (.pure _) fun _ _ _ => rfl
    rw [List.append_nil] at hrest
    rw [List.mapM_cons]
    exact ha.bind hrest fun b => (ih hl).idles.bind fun bs _ _ => rfl

/-- A question that fails blames itself, and reports what it fails with. -/
theorem reports_ask {question : σ → Except ε α × σ} {otherwise a : α} {fault : Option ε}
    (h : ∀ state, question state = match fault with
      | none => (.ok a, state)
      | some f => (.error f, report state f)) :
    Reports report (ask question otherwise) fault.toList a := by
  refine ⟨fun state => ?_, fun hnil state => ?_, fun p hp => ?_⟩
  · show (ask question otherwise ⟨state, none⟩).2 = _
    simp only [ask, h state]
    cases fault <;> rfl
  · obtain rfl : fault = none := by cases fault <;> simp_all
    show (ask question otherwise ⟨state, none⟩).1 = _
    simp only [ask, h state]
  · show (ask question otherwise p).2 = p
    rw [ask_of_failed hp]

end Walk

/-! ### Expressions -/

namespace Flatten

variable (t : SymbolTable) (k : ScopeId)

/-- What is wrong with the order of the axes; there is nothing wrong where none is given. -/
def orderFault? (v : VariableDef) (count : ℕ) : Option PassError :=
  match v.attributes.find? orderName with
  | none => none
  | some a =>
    match order count a with
    | .ok _ => none
    | .error f => some f

/-- The axes from the fastest to the slowest, as the order has them or as they stand. -/
def fastestFirst (v : VariableDef) (count : ℕ) : List ℕ :=
  match v.attributes.find? orderName with
  | none => List.range count
  | some a => (order count a).toOption.getD []

/-- What is wrong with the call of a variable with axes: the number of its arguments, or else the
order of the axes, which does not matter if there are none. -/
def fault? : Expr → Option PassError
  | .call (.atom (.variable id) place) args _ =>
    match (t.var id).attributes.find? dimName with
    | none => none
    | some dim =>
      let count := dim.args.length
      match args[count]? with
      | some extra => some ⟨.tooManyDimensions count, extra.location⟩
      | none =>
        if args.length < count then some ⟨.missingDimensions count, place⟩
        else if count = 0 then none
        else orderFault? (t.var id) count
  | _ => none

/-- The cell of indices with their extents, the slowest first: every other index is added to its
extent times what the slower ones come to. -/
def cell (place : Location) : List (Expr × Expr) → Expr
  | [] => .empty place
  | (slowest, _) :: faster =>
    faster.foldl (fun slower axis => .mkBinary .add axis.1.wrapped
      (Expr.mkBinary .mul axis.2.wrapped slower.wrapped).mkParens) slowest

/-- The access that a call of a variable with axes stands for: a subscript in its place, if there is
an argument for each axis and nothing is wrong with their order. -/
def flat? : Expr → Option Expr
  | .call (.atom (.variable id) l) args place =>
    match (t.var id).attributes.find? dimName with
    | none => none
    | some dim =>
      if args ≠ [] ∧ args.length = dim.args.length ∧ orderFault? (t.var id) args.length = none then
        let pairs := args.zip (dim.args.map Argument.value)
        let axes := (fastestFirst (t.var id) args.length).filterMap (pairs[·]?)
        some (.subscript (.atom (.variable id) l) (t.resolve k (cell place axes.reverse)) place)
      else none
  | _ => none

/-- The faulty calls of an expression in the order of the walk, inner ones before outer ones. -/
def faults (e : Expr) : List PassError :=
  (Expr.shape.sites () e).filterMap fun site => fault? t site.node

theorem faults_eq (e : Expr) :
    faults t e = e.children.flatMap (faults t) ++ (fault? t e).toList := by
  rw [← e.parts_eq_children]
  exact Expr.shape.filterMap_sites (fun _ _ => rfl) () e

/-- The index is built from the fast end, the cell from the slow one. -/
theorem index_eq_cell (place : Location) (axes : List (Expr × Expr)) :
    index place axes = cell place axes.reverse := by
  induction axes with
  | nil => rfl
  | cons axis rest ih =>
    cases rest with
    | nil => rfl
    | cons next rest =>
      have hlast : (axis :: next :: rest).reverse = (next :: rest).reverse ++ [axis] :=
        List.reverse_cons
      obtain ⟨slowest, faster, hreverse⟩ :=
        List.exists_cons_of_ne_nil (List.reverse_ne_nil_iff.mpr (List.cons_ne_nil next rest))
      rw [index.eq_3 place _ _ _ (by simp), ih, hlast, hreverse, List.cons_append, cell, cell,
        List.foldl_append]
      rfl

theorem orderOf_eq (v : VariableDef) (count : ℕ) : orderOf v count
    = match orderFault? v count with
      | some f => .error f
      | none => .ok (fastestFirst v count) := by
  unfold orderOf orderFault? fastestFirst
  cases v.attributes.find? orderName with
  | none => rfl
  | some a => cases horder : order count a <;> simp [horder, Except.toOption]

/-- The pass becomes of a call what it stands for, or what is wrong with it. -/
theorem call?_eq (id : VarId) (l place : Location) (args : List Expr) :
    call? t k (.atom (.variable id) l) id args place
      = match fault? t (.call (.atom (.variable id) l) args place) with
        | some f => .error f
        | none => .ok (flat? t k (.call (.atom (.variable id) l) args place)) := by
  simp only [flat?, fault?, call?]
  cases (t.var id).attributes.find? dimName with
  | none => rfl
  | some dim =>
    dsimp only
    cases hextra : args[dim.args.length]? with
    | some extra => rfl
    | none =>
      dsimp only
      have hle : args.length ≤ dim.args.length := List.getElem?_eq_none_iff.mp hextra
      split
      · rfl
      case isFalse hge =>
        -- As many arguments as axes: what is left to go wrong is the order.
        have hlength : args.length = dim.args.length := by omega
        rw [← hlength]
        split
        case isTrue hnone =>
          rw [if_neg fun h => h.1 (List.length_eq_zero_iff.mp hnone)]
        case isFalse hsome =>
          have hne : args ≠ [] := fun hnil => hsome (List.length_eq_zero_iff.mpr hnil)
          rw [orderOf_eq]
          cases horder : orderFault? (t.var id) args.length with
          | some f => rfl
          | none =>
            rw [if_pos ⟨hne, rfl, rfl⟩]
            show Except.ok (some (t.resolve k _)) = _
            rw [index_eq_cell]
            exact congrArg (fun e => Except.ok (some e)) (resolve_subscript t k id l place _)

/-- Only calls of variables are looked at. -/
theorem ignores {e : Expr} (h : ∀ id l args place, e ≠ .call (.atom (.variable id) l) args place) :
    fault? t e = none ∧ flat? t k e = none ∧ ∀ d, visit t k e d = (.ok .keep, d) := by
  refine ⟨?_, ?_, fun d => ?_⟩
  · unfold fault?
    split
    · exact absurd rfl (h _ _ _ _)
    · rfl
  · unfold flat?
    split
    · exact absurd rfl (h _ _ _ _)
    · rfl
  · unfold visit
    split
    · split
      · exact absurd rfl (h _ _ _ _)
      · rfl
    · rfl

/-- A visit tells a fault, or replaces a flattened call, or keeps what it sees. -/
theorem visit_eq (e : Expr) (d : Diagnostics) :
    visit t k e d = match fault? t e with
      | some f => (.error f, d.report f)
      | none => (.ok ((flat? t k e).elim .keep .replace), d) := by
  by_cases hcall : ∃ id l args place, e = .call (.atom (.variable id) l) args place
  · obtain ⟨id, l, args, place, rfl⟩ := hcall
    simp only [visit, call?_eq]
    cases fault? t (.call (.atom (.variable id) l) args place) with
    | some f => rfl
    | none => cases flat? t k (.call (.atom (.variable id) l) args place) <;> rfl
  · obtain ⟨hfault, hflat, hvisit⟩ := ignores t k fun id l args place he =>
      hcall ⟨id, l, args, place, he⟩
    rw [hvisit, hfault, hflat]
    rfl

variable {t k} in
/-- A call that stands for an access is not at fault. -/
theorem fault?_of_flat? {e flat : Expr} (h : flat? t k e = some flat) : fault? t e = none := by
  by_cases hcall : ∃ id l args place, e = .call (.atom (.variable id) l) args place
  · obtain ⟨id, l, args, place, rfl⟩ := hcall
    cases hdim : (t.var id).attributes.find? dimName with
    | none =>
      simp only [flat?, hdim] at h
      cases h
    | some dim =>
      simp only [flat?, hdim] at h
      split at h
      case isTrue hsound =>
        obtain ⟨hne, hlength, horder⟩ := hsound
        have hextra : args[args.length]? = none := List.getElem?_eq_none le_rfl
        simp only [fault?, hdim, ← hlength, hextra, horder, lt_irrefl, if_false, ite_self]
      case isFalse => cases h
  · exact (ignores t k fun id l args place he => hcall ⟨id, l, args, place, he⟩).1

variable {t k} in
theorem visit_of_flat? {e flat : Expr} (h : flat? t k e = some flat) (d : Diagnostics) :
    fault? t e = none ∧ visit t k e d = (.ok (.replace flat), d) := by
  have hfault := fault?_of_flat? h
  refine ⟨hfault, ?_⟩
  rw [visit_eq, hfault, h]
  rfl

end Flatten

namespace Expr

open Flatten

variable (t : SymbolTable) (k : ScopeId)

/-- The expression with all calls of variables with axes flattened, the innermost first. -/
def flattened (e : Expr) : Expr :=
  let inside := e.rebuild (e.parts.attach.map fun ⟨c, h⟩ =>
    have := shape.sizeOf_lt h
    (.keep, c.flattened))
  (flat? t k inside).getD inside
termination_by sizeOf e

/-- The node with all calls below it flattened. -/
def flattenedInside (e : Expr) : Expr := e.withChildren (e.children.map (flattened t k))

theorem flattened_eq (e : Expr) :
    e.flattened t k = (flat? t k (e.flattenedInside t k)).getD (e.flattenedInside t k) := by
  have hinside : e.rebuild (e.parts.map fun c => (.keep, c.flattened t k))
      = e.flattenedInside t k := by
    rw [rebuild_eq_withChildren, List.map_map, parts_eq_children]
    rfl
  rw [flattened, List.map_attach_eq_pmap, List.pmap_eq_map, hinside]

/-- A flattened call is an access where the call stood. -/
theorem flat?_eq_some {e flat : Expr} (h : flat? t k e = some flat) :
    ∃ v i, flat = .subscript v i e.location := by
  obtain ⟨n, id, l, place, dim, indices, extents, p, -, rfl, -, -, rfl⟩ :=
    visit_replace (visit_of_flat? h (.empty none)).2
  exact ⟨_, _, rfl⟩

@[simp] theorem location_flattened (e : Expr) : (e.flattened t k).location = e.location := by
  rw [flattened_eq]
  cases hflat : flat? t k (e.flattenedInside t k) with
  | none => exact location_withChildren e _
  | some flat =>
    obtain ⟨v, i, rfl⟩ := flat?_eq_some t k hflat
    exact location_withChildren e _

/-- Flattening makes no leaves. -/
theorem flattened_eq_atom {e : Expr} {a : Atom} {l : Location} :
    e.flattened t k = .atom a l ↔ e = .atom a l := by
  constructor
  · intro h
    rw [flattened_eq] at h
    cases hflat : flat? t k (e.flattenedInside t k) with
    | some flat =>
      obtain ⟨v, i, rfl⟩ := flat?_eq_some t k hflat
      rw [hflat] at h
      cases h
    | none =>
      rw [hflat] at h
      cases e <;> first | exact h | cases h
  · rintro rfl
    rw [flattened_eq]
    rfl

/-- What a call is at fault for does not change while its parts are flattened. -/
theorem fault?_flattenedInside (e : Expr) : fault? t (e.flattenedInside t k) = fault? t e := by
  cases e with
  | call callee args place =>
    show fault? t (.call (callee.flattened t k) (args.map (flattened t k)) place) = _
    by_cases hvar : ∃ id l, callee = .atom (.variable id) l
    · obtain ⟨id, l, rfl⟩ := hvar
      rw [(flattened_eq_atom t k).mpr rfl]
      simp only [fault?, List.length_map, List.getElem?_map]
      cases (t.var id).attributes.find? dimName with
      | none => rfl
      | some dim =>
        dsimp only
        cases args[dim.args.length]? with
        | none => rfl
        | some extra => simp only [Option.map_some, location_flattened]
    · rw [(ignores t k fun id l args' place' he => ?_).1,
        (ignores t k fun id l args' place' he => ?_).1]
      · injection he with hcallee
        exact hvar ⟨id, l, hcallee⟩
      · injection he with hcallee
        exact hvar ⟨id, l, (flattened_eq_atom t k).mp hcallee⟩
  | _ => rfl

/-- Asking about a node finds its own fault, and flattens it if there is none. -/
theorem reports_visit (e : Expr) : (e.visit (exprPass t k)).Reports Diagnostics.report
    (fault? t e).toList ((flat? t k e).getD e) := by
  rw [visit]
  split
  · have hask : Walk.Reports Diagnostics.report (Walk.ask ((exprPass t k).visit e) .keep)
        (fault? t e).toList ((flat? t k e).elim .keep Verdict.replace) :=
      Walk.reports_ask fun d => (Flatten.visit_eq t k e d).trans (by cases fault? t e <;> rfl)
    have hsettled : e.settled ((flat? t k e).elim .keep .replace) = (flat? t k e).getD e := by
      cases flat? t k e <;> rfl
    rw [← hsettled]
    exact hask.map e.settled
  case isFalse hkind =>
    have hcall : ∀ id l args place, e ≠ .call (.atom (.variable id) l) args place := by
      rintro id l args place rfl
      exact hkind rfl
    rw [(ignores t k hcall).1, (ignores t k hcall).2.1]
    exact .pure e

/-- The walk over an expression finds its faults, and flattens it if there are none. -/
theorem reports_walk (e : Expr) :
    (e.walk (exprPass t k)).Reports Diagnostics.report (faults t e) (e.flattened t k) := by
  induction e using inductionOn with
  | step e ih =>
    have hchildren := Walk.Reports.mapM ih
    have hnode := reports_visit t k (e.flattenedInside t k)
    rw [fault?_flattenedInside, ← flattened_eq] at hnode
    rw [walk, List.mapM_subtype (g := walk (exprPass t k)) fun _ _ => rfl, List.unattach_attach,
      faults_eq]
    exact hchildren.bind hnode fun cs => (reports_visit t k (e.withChildren cs)).idles

end Expr

/-! ### Statements -/

namespace Flatten

variable (t : SymbolTable) (k : ScopeId)

/-- Whether the statement is an expression or a declaration. -/
def holdsCalls : Statement → Bool
  | .expression .. => true
  | .declaration .. => true
  | _ => false

/-- The faulty calls of an expression statement or in the initial values of a declaration, from left
to right. -/
def ownFaults : Statement → List PassError
  | .expression e _ => faults t e
  | .declaration ds _ => (ds.filterMap Declarator.value).flatMap (faults t)
  | _ => []

/-- The statement with its expression flattened, or with all initial values flattened. -/
def flattenedOwn : Statement → Statement
  | .expression e l => .expression (e.flattened t k) l
  | .declaration ds l =>
    .declaration (ds.map fun d => { d with value := d.value.map (Expr.flattened t k) }) l
  | s => s

theorem withValues_map (f : Expr → Expr) (ds : List Declarator) :
    Declarator.withValues ds ((ds.filterMap Declarator.value).map f)
      = ds.map fun d => { d with value := d.value.map f } := by
  induction ds with
  | nil => rfl
  | cons d ds ih =>
    obtain ⟨v, _ | e⟩ := d
    · exact congrArg (⟨v, none⟩ :: ·) ih
    · exact congrArg (⟨v, some (f e)⟩ :: ·) ih

section

variable {t k} {s : Statement} (h : holdsCalls s)
include h

/-- The statements that hold calls are those that the pass looks at, with all their expressions. -/
theorem ownFaults_eq : ownFaults t s = s.exprs.flatMap (faults t) := by
  cases s with
  | expression e l => exact (List.append_nil _).symm
  | declaration ds l => rfl
  | _ => cases h

theorem flattenedOwn_eq : flattenedOwn t k s = s.withExprs (s.exprs.map (Expr.flattened t k)) := by
  cases s with
  | expression e l => rfl
  | declaration ds l => exact congrArg (Statement.declaration · l) (withValues_map _ ds).symm
  | _ => cases h

end

theorem acceptsStatement_eq (s : Statement) : acceptsStatement s.kind = holdsCalls s := by
  cases s <;> rfl

/-- How flattening ends that finds these faults: the first one is reported and blamed. -/
def ending (d : Diagnostics) : List PassError → Progress Diagnostics PassError
  | [] => ⟨d, none⟩
  | f :: _ =>
    ⟨{ d with entries := d.entries ++ [⟨.error, f.fault.message, f.location⟩] }, some f⟩

theorem outcome_eq (d : Diagnostics) (faults : List PassError) :
    Walk.outcome Diagnostics.report d faults = ending d faults := by
  cases faults <;> rfl

variable {t k} in
/-- A statement is flattened as a whole or refused because of its first fault. -/
theorem visitStatement_eq {s : Statement} (h : holdsCalls s) (d : Diagnostics) :
    visitStatement t s k d = match ownFaults t s with
      | [] => (.ok (.replace (flattenedOwn t k s)), d)
      | f :: _ => (.error f, d.report f) := by
  have hexprs : Walk.Reports Diagnostics.report (s.walkExprs (exprPass t k)) (ownFaults t s)
      (flattenedOwn t k s) := by
    rw [ownFaults_eq h, flattenedOwn_eq h]
    exact (Walk.Reports.mapM fun e _ => Expr.reports_walk t k e).map s.withExprs
  have hprogress := hexprs.progress d
  have hresult := hexprs.result
  obtain ⟨⟨flat, p⟩, hrun⟩ : ∃ r, (s.walkExprs (exprPass t k)).run ⟨d, none⟩ = r := ⟨_, rfl⟩
  rw [hrun] at hprogress
  obtain rfl : p = _ := hprogress
  simp only [visitStatement, Walk.start, hrun]
  cases hfaults : ownFaults t s with
  | nil =>
    have hflat := hresult hfaults d
    rw [hrun] at hflat
    obtain rfl : flat = _ := hflat
    rfl
  | cons f rest => rfl

/-- The statements that are expressions or declarations, in the order of the walk. -/
def lookedAt (s : Statement) : List (Site ScopeId Statement) :=
  (Statement.shape.sites k s).filter fun site => holdsCalls site.node

/-- No call in the statement is at fault. -/
def isClean (site : Site ScopeId Statement) : Bool := (ownFaults t site.node).isEmpty

/-- Nothing stands below an expression statement or a declaration. -/
theorem rewriteBelow_of_holdsCalls {f : Place → Verdict Statement} {s : Statement}
    (h : holdsCalls s) : Statement.shape.rewriteBelow f s = s := by
  rw [Shape.rewriteBelow_eq]
  cases s <;> first | rfl | cases h

variable {t} in
/-- The answers about statements, up to the first fault and from there on. -/
theorem answers_of_conversation {f : Place → Verdict Statement}
    {sites : List (Site ScopeId Statement)} {d : Diagnostics} {p : Progress Diagnostics PassError}
    (hsites : ∀ site ∈ sites, holdsCalls site.node)
    (h : Statement.shape.Conversation (statementPass t).visitor f sites d p) :
    p = Walk.outcome Diagnostics.report d (sites.flatMap fun site => ownFaults t site.node) ∧
      (∀ site ∈ sites.takeWhile (isClean t),
        f site.place = .replace (flattenedOwn t site.around site.node)) ∧
      ∀ site ∈ sites.dropWhile (isClean t), f site.place = .keep := by
  induction h with
  -- Induction over the conversation. A statement that holds calls has no statements inside, so it
  -- is presented as it stands.
  | finished d => exact ⟨rfl, List.forall_mem_nil _, List.forall_mem_nil _⟩
  | @answered site rest d d' p hvisit _ ih =>
    obtain ⟨hsite, hrest⟩ := List.forall_mem_cons.mp hsites
    rw [Shape.presented, rewriteBelow_of_holdsCalls hsite] at hvisit
    have hask := (visitStatement_eq hsite d).symm.trans hvisit
    -- What was answered came without a fault.
    cases hfaults : ownFaults t site.node with
    | cons fault more =>
      rw [hfaults] at hask
      cases hask
    | nil =>
      rw [hfaults] at hask
      obtain ⟨hanswer, rfl⟩ := Prod.mk.inj hask
      have hclean : isClean t site := by rw [isClean, hfaults]; rfl
      obtain ⟨rfl, hbefore, hafter⟩ := ih hrest
      rw [List.takeWhile_cons_of_pos hclean, List.dropWhile_cons_of_pos hclean]
      refine ⟨?_, List.forall_mem_cons.mpr ⟨(Except.ok.inj hanswer).symm, hbefore⟩, hafter⟩
      rw [List.flatMap_cons, hfaults]
      rfl
  | @failed site rest d d' fault hvisit hkeep =>
    obtain ⟨hsite, -⟩ := List.forall_mem_cons.mp hsites
    rw [Shape.presented, rewriteBelow_of_holdsCalls hsite] at hvisit
    have hask := (visitStatement_eq hsite d).symm.trans hvisit
    -- What failed had a fault, and the first one is told.
    cases hfaults : ownFaults t site.node with
    | nil =>
      rw [hfaults] at hask
      cases hask
    | cons fault more =>
      rw [hfaults] at hask
      obtain ⟨hfault, rfl⟩ := Prod.mk.inj hask
      obtain rfl := Except.error.inj hfault
      have hclean : ¬ isClean t site := by rw [isClean, hfaults]; exact Bool.false_ne_true
      rw [List.takeWhile_cons_of_neg hclean, List.dropWhile_cons_of_neg hclean]
      refine ⟨?_, List.forall_mem_nil _, hkeep⟩
      rw [List.flatMap_cons, hfaults]
      rfl

end Flatten

/-- What flattening answers about the statements inside a statement, and how it ends. -/
theorem Statement.exists_answers_flatten (t : SymbolTable) (k : ScopeId) (s : Statement)
    (d : Diagnostics) : ∃ f : Place → Verdict Statement,
      s.flatten t k d = (inSlot (f [], shape.rewriteBelow f s),
        Flatten.ending d ((Flatten.lookedAt k s).flatMap fun site =>
          Flatten.ownFaults t site.node)) ∧
      (∀ site ∈ (Flatten.lookedAt k s).takeWhile (Flatten.isClean t),
        f site.place = .replace (Flatten.flattenedOwn t site.around site.node)) ∧
      (∀ site ∈ (Flatten.lookedAt k s).dropWhile (Flatten.isClean t), f site.place = .keep) ∧
      ∀ site ∈ shape.sites k s, ¬ Flatten.holdsCalls site.node →
        f site.place = .keep := by
  obtain ⟨f, p, hwalk, hrewrites⟩ := shape.exists_rewrites (Flatten.statementPass t).visitor k s d
  have hasked (site : Site ScopeId Statement) :
      shape.isAsked (Flatten.statementPass t).visitor site = Flatten.holdsCalls site.node :=
    Flatten.acceptsStatement_eq site.node
  have hvisits := hrewrites.visits
  rw [funext hasked] at hvisits
  obtain ⟨rfl, hbefore, hafter⟩ := Flatten.answers_of_conversation
    (fun site hsite => (List.mem_filter.mp hsite).2) hvisits
  refine ⟨f, ?_, hbefore, hafter, fun site hsite hother => hrewrites.others site hsite ?_⟩
  · rw [Statement.flatten, Statement.walk_eq, Walk.start_map, hwalk, Flatten.outcome_eq]
    rfl
  · rwa [hasked]

/-- A single expression is flattened or stays as it is. -/
theorem Expr.flatten_eq (t : SymbolTable) (k : ScopeId) (e : Expr) (d : Diagnostics) :
    e.flatten t k d = (if Flatten.faults t e = [] then e.flattened t k else e,
      Flatten.ending d (Flatten.faults t e)) := by
  have hwalk := Expr.reports_walk t k e
  have hprogress := hwalk.progress d
  obtain ⟨⟨flat, p⟩, hrun⟩ : ∃ r, (e.walk (Flatten.exprPass t k)).run ⟨d, none⟩ = r := ⟨_, rfl⟩
  rw [hrun] at hprogress
  obtain rfl : p = _ := hprogress
  simp only [Expr.flatten, Walk.start, hrun, ← Flatten.outcome_eq]
  cases hfaults : Flatten.faults t e with
  | nil =>
    have hflat := hwalk.result hfaults d
    rw [hrun] at hflat
    obtain rfl : flat = _ := hflat
    rfl
  | cons f rest => rfl

/-- **Flattening stops at the first fault.** Statements are looked at in the order of the walk,
and the faulty calls of one from left to right, inner ones before outer ones. If no call is at
fault then all statements that are looked at are flattened and nothing is reported; else the
first faulty call is blamed and reported, the statements before its own are flattened, and its
own and all that follow stay as they are. A single expression is flattened, or stays as it is. -/
theorem Statement.flatten_stops (t : SymbolTable) (k : ScopeId) (d : Diagnostics) :
    (∀ s : Statement, ∃ f : Place → Verdict Statement,
      s.flatten t k d = (inSlot (f [], shape.rewriteBelow f s),
        Flatten.ending d ((Flatten.lookedAt k s).flatMap fun site =>
          Flatten.ownFaults t site.node)) ∧
      (∀ site ∈ (Flatten.lookedAt k s).takeWhile (Flatten.isClean t),
        f site.place = .replace (Flatten.flattenedOwn t site.around site.node)) ∧
      (∀ site ∈ (Flatten.lookedAt k s).dropWhile (Flatten.isClean t), f site.place = .keep) ∧
      ∀ site ∈ shape.sites k s, ¬ Flatten.holdsCalls site.node →
        f site.place = .keep) ∧
    ∀ e : Expr, e.flatten t k d
      = (if Flatten.faults t e = [] then e.flattened t k else e,
          Flatten.ending d (Flatten.faults t e)) :=
  ⟨fun s => s.exists_answers_flatten t k d, fun e => e.flatten_eq t k d⟩

namespace Flatten

/-- A call of the variable `A`, which has two axes. -/
def sampleCall (args : List Expr) : Expr := .call (.ofVar ⟨0⟩ ⟨2, 9⟩) args ⟨2, 9⟩

/-- The block `{ first; int v = A(1, 2), w = A(1); A(1, 2); }`. -/
def shortAccess (first : Expr) : Statement :=
  .block .global [.expression first ⟨1, 3⟩,
    .declaration [⟨⟨2⟩, some (sampleCall [numeral 1, numeral 2])⟩,
      ⟨⟨3⟩, some (sampleCall [numeral 1])⟩] ⟨2, 1⟩,
    .expression (sampleCall [numeral 1, numeral 2]) ⟨3, 1⟩] ⟨1, 1⟩

/-- The access `A[2 + (W * 1)]`. -/
def sampleAccess : Expr :=
  .subscript (.ofVar ⟨0⟩ ⟨2, 9⟩)
    (.binary (.binary .add) (numeral 2)
      (.parens (.binary (.binary .mul) (.ofVar ⟨1⟩ .none) (numeral 1) .none) .none) .none) ⟨2, 9⟩

/-- One entry, and the fault that it tells of. -/
def shortEnding : Progress Diagnostics PassError :=
  ⟨⟨[⟨.error, "Missing dimensions, expected 2 argument(s)", ⟨2, 9⟩⟩], none⟩,
    some ⟨.missingDimensions 2, ⟨2, 9⟩⟩⟩

end Flatten

open Flatten in
/-- A call with too few arguments keeps its whole declaration as it is, and what follows; the
statement before it is flattened. By itself the call stays as well. -/
theorem Statement.flatten_stops_shortAccess :
    (shortAccess (sampleCall [numeral 1, numeral 2])).flatten sampleTable .global (.empty none)
        = (shortAccess sampleAccess, shortEnding) ∧
      (sampleCall [numeral 1]).flatten sampleTable .global (.empty none)
        = (sampleCall [numeral 1], shortEnding) := by
  constructor
  · obtain ⟨f, hrun, hbefore, hafter, hothers⟩ :=
      (flatten_stops sampleTable .global (.empty none)).1
        (shortAccess (sampleCall [numeral 1, numeral 2]))
    -- The walk goes up to the declaration: the statement before it is answered, the rest is kept.
    have hbreak : (lookedAt .global (shortAccess (sampleCall [numeral 1, numeral 2]))).span
          (isClean sampleTable)
        = ([⟨[0], .global, .expression (sampleCall [numeral 1, numeral 2]) ⟨1, 3⟩⟩],
          [⟨[1], .global, .declaration [⟨⟨2⟩, some (sampleCall [numeral 1, numeral 2])⟩,
            ⟨⟨3⟩, some (sampleCall [numeral 1])⟩] ⟨2, 1⟩⟩,
          ⟨[2], .global, .expression (sampleCall [numeral 1, numeral 2]) ⟨3, 1⟩⟩]) := by
      cbv
    obtain ⟨htake, hdrop⟩ := Prod.mk.inj ((List.span_eq_takeWhile_dropWhile _ _).symm.trans hbreak)
    rw [htake, List.forall_mem_singleton] at hbefore
    rw [hdrop, List.forall_mem_cons, List.forall_mem_singleton] at hafter
    have hflat : flattenedOwn sampleTable .global
          (.expression (sampleCall [numeral 1, numeral 2]) ⟨1, 3⟩)
        = .expression sampleAccess ⟨1, 3⟩ := by
      cbv
    have hfirst : f [0] = .replace (.expression sampleAccess ⟨1, 3⟩) :=
      hbefore.trans (congrArg _ hflat)
    have hdeclaration : f [1] = .keep := hafter.1
    have hlast : f [2] = .keep := hafter.2
    have hblock : f [] = .keep := hothers _ (shape.mem_sites.mpr (.root _ _)) (by decide)
    have hbelow : shape.rewriteBelow f (shortAccess (sampleCall [numeral 1, numeral 2]))
        = shortAccess sampleAccess := by
      rw [shape.rewriteBelow_eq]
      show block .global ([(f [0], _), (f [1], _), (f [2], _)].flatMap inList) ⟨1, 1⟩ = _
      rw [hfirst, hdeclaration, hlast]
      iterate 3 rw [rewriteBelow_of_holdsCalls rfl]
      rfl
    rw [hrun, hblock, hbelow]
    have hfault : (lookedAt .global (shortAccess (sampleCall [numeral 1, numeral 2]))).flatMap
        (fun site => ownFaults sampleTable site.node) = [⟨.missingDimensions 2, ⟨2, 9⟩⟩] := by
      cbv
    rw [hfault]
    rfl
  · have hfault :
        faults sampleTable (sampleCall [numeral 1]) = [⟨.missingDimensions 2, ⟨2, 9⟩⟩] := by
      cbv
    rw [(flatten_stops sampleTable .global (.empty none)).2, hfault, if_neg (List.cons_ne_nil _ _)]
    rfl

end KernelTree
