import KernelTree.Proofs.Expr.Inversion
import KernelTree.Proofs.Expr.Pending

/-!
# The output while a row is read

Open brackets stand on the output one above the other, and nothing sinks below the innermost one
(`Build.Rising`, `Build.State.Orderly`). Whatever has been read of a bracket is there, as a node or
as an operator that waits, so a row that is not empty never ends with an empty output; and no
conditional is ever left to be folded at the end (`Build.ofTokens_ne_nil`).
-/

namespace KernelTree.Build

open KernelTree.Expr

variable {base : Nat} {p : Pending} {pending : List Pending} {output output' rest : List Expr}
  {s s' : State}

/-! ### Applying operators -/

/-- What has been folded is not folded again. -/
theorem foldTernary_foldTernary (base : Nat) (output : List Expr) :
    foldTernary base (foldTernary base output) = foldTernary base output := by
  rcases foldTernary_cases base output with h | ⟨onFalse, onTrue, check, l, l', rest, -, -, h⟩
  · rw [h, h]
  · rw [h]
    exact foldTernary_cons rfl

/-- Fewer than three nodes above the base are not folded. -/
theorem foldTernary_of_length_lt (h : output.length < base + 3) :
    foldTernary base output = output := by
  rcases foldTernary_cases base output with heq | ⟨onFalse, onTrue, check, l, l', rest, rfl, hb, -⟩
  · exact heq
  · simp only [List.length_cons] at h
    omega

/-- An operator leaves a node above the base. -/
theorem Applies.base_lt (h : Applies base p output output') : base < output'.length := by
  have hfold : ∀ {node : Expr} {rest : List Expr}, base ≤ rest.length →
      base < (foldTernary base (node :: rest)).length := by
    intro node rest hbase
    rcases foldTernary_cases base (node :: rest) with heq | ⟨_, _, _, _, _, rest', _, hrest, heq⟩
    · rw [heq, List.length_cons]
      omega
    · rw [heq, List.length_cons]
      omega
  cases h with
  | binary hbase => exact Nat.lt_succ_of_le hbase
  | postfixed hbase => exact Nat.lt_succ_of_le hbase
  | prefixed hbase => exact hfold hbase
  | cast hbase => exact hfold hbase

/-- An operator leaves nothing that could be folded. -/
theorem Applies.folded (h : Applies base p output output') :
    foldTernary base output' = output' := by
  cases h with
  | binary => exact foldTernary_cons rfl
  | postfixed => exact foldTernary_cons rfl
  | prefixed => exact foldTernary_foldTernary base _
  | cast => exact foldTernary_foldTernary base _

/-- Operators leave the output above the base, and at least one node above it if there are any. -/
theorem base_le_applyAll (h : applyAll base pending output = .ok output')
    (hbase : base ≤ output.length) :
    base ≤ output'.length ∧ (pending ≠ [] ∨ base < output.length → base < output'.length) := by
  induction pending generalizing output with
  | nil =>
    obtain rfl := Except.ok.inj h
    exact ⟨hbase, fun h => h.resolve_left fun hne => hne rfl⟩
  | cons p pending ih =>
    obtain ⟨middle, hp, hall⟩ := applyAll_cons_ok h
    obtain ⟨hle, hlt⟩ := ih hall (Nat.le_of_lt hp.base_lt)
    exact ⟨hle, fun _ => hlt (.inr hp.base_lt)⟩

theorem folded_applyAll (h : applyAll base pending output = .ok output')
    (hfolded : pending = [] → foldTernary base output = output) :
    foldTernary base output' = output' := by
  induction pending generalizing output with
  | nil =>
    obtain rfl := Except.ok.inj h
    exact hfolded rfl
  | cons p pending ih =>
    obtain ⟨middle, hp, hall⟩ := applyAll_cons_ok h
    exact ih hall fun _ => hp.folded

/-! ### Brackets -/

/-- The height of the output at the innermost bracket. -/
def floor (frames : List Frame) : Nat := (frames.head?.map Frame.base).getD 0

/-- Each bracket was opened no lower than the one around it, and if it follows a value, something
of the bracket around it had been read. -/
inductive Rising : List Frame → Prop
  | nil : Rising []
  | cons {frame : Frame} {frames : List Frame} (hbase : floor frames ≤ frame.base)
      (hvalue : frame.afterValue = true → frame.outer ≠ [] ∨ floor frames < frame.base)
      (h : Rising frames) : Rising (frame :: frames)

/-- Brackets rise, the output stands above them, and what has been read of the innermost one is
there. Behind an opening bracket there is nothing. -/
structure State.Orderly (s : State) : Prop where
  rising : Rising s.frames
  height : s.base ≤ s.output.length
  folded : s.pending = [] → foldTernary s.base s.output = s.output
  busy : ∀ p, s.previous = some p → neighbour p ≠ .opening →
    s.pending ≠ [] ∨ s.base < s.output.length
  idle : ∀ p, s.previous = some p → neighbour p = .opening →
    s.frames ≠ [] ∧ s.pending = [] ∧ s.output.length = s.base
  fresh : s.previous = none → s.frames = [] ∧ s.pending = [] ∧ s.output = []

theorem orderly_initial : State.initial.Orderly where
  rising := .nil
  height := Nat.le_refl 0
  folded _ := rfl
  busy := nofun
  idle := nofun
  fresh _ := ⟨rfl, rfl, rfl⟩

/-- Below what stood in a bracket, the output is as high as when the bracket was opened. -/
theorem Contains.length_rest {frame : Frame} {value : Expr} (h : Contains frame output value rest)
    (hbase : frame.base ≤ output.length) : rest.length = frame.base := by
  cases h with
  | nothing hle => exact Nat.le_antisymm hle hbase
  | value heq => exact heq

/-- What a bracket and the value before it become is no branch of a conditional. -/
theorem Attaches.head {frame : Frame} {callee value : Expr} {nodes : List Expr}
    (h : Attaches frame callee value nodes) :
    ∃ node others, nodes = node :: others ∧ isMarkerNode node = false := by
  cases h with
  | _ => exact ⟨_, _, rfl, rfl⟩

/-- What a bracket that follows no value leaves: a node or a cast that waits for its operand. -/
theorem StandsAlone.cases {frame : Frame} {value : Expr} (h : StandsAlone s frame value s') :
    s'.frames = s.frames ∧
      ((∃ node, s'.output = node :: s.output ∧ isMarkerNode node = false ∧
          s'.pending = s.pending ∧ s'.castClose = s.castClose) ∨
        (s'.output = s.output ∧ s'.castClose = some s.index ∧ frame.bracket = .round ∧
          ∃ t, s'.pending = ⟨.cast t, frame.location⟩ :: s.pending ∧ value.vartype? = some t)) := by
  cases h with
  | parens => exact ⟨rfl, .inl ⟨_, rfl, rfl, rfl, rfl⟩⟩
  | tuple => exact ⟨rfl, .inl ⟨_, rfl, rfl, rfl, rfl⟩⟩
  | cast hb ht => exact ⟨rfl, .inr ⟨rfl, rfl, hb, _, rfl, ht⟩⟩

/-- When a bracket closes, the output below what stood in it is as high as when it was opened. -/
theorem State.Orderly.length_rest {frame : Frame} {frames : List Frame} {value : Expr}
    (hs : s.Orderly) (hframes : s.frames = frame :: frames)
    (hall : applyAll s.base s.pending s.output = .ok output)
    (hcontent : Contains frame output value rest) : rest.length = frame.base := by
  have hbase : s.base = frame.base := by simp [State.base, hframes]
  exact hcontent.length_rest (hbase ▸ (base_le_applyAll hall hs.height).1)

/-- The end of a bracket leaves the brackets around it in order, and something in the innermost of
them: the value before the bracket was already there. -/
theorem Closes.orderly {b : Bracket} (h : Closes s b s') (hs : s.Orderly) (index : Nat) :
    State.Orderly { s' with index, previous := some (.op (.closing b)) } := by
  have hrising := hs.rising
  cases h with
  | @attached frame frames output rest nodes callee value hframes hb hall hcontent hfollows
      hattach =>
    have hlength := hs.length_rest hframes hall hcontent
    rw [hframes] at hrising
    obtain ⟨node, others, rfl, hmarker⟩ := hattach.head
    have hafter : frame.afterValue = true := (Bool.and_eq_true_iff.mp hfollows).1
    cases hrising with
    | cons hbase hvalue hrising =>
      have hheight : frame.base ≤ (node :: others ++ rest).length := by
        simp only [List.length_cons, List.length_append] at hlength ⊢
        omega
      exact
        { rising := hrising
          height := Nat.le_trans hbase hheight
          folded := fun _ => foldTernary_cons hmarker
          busy := fun _ _ _ => (hvalue hafter).imp_right fun h => Nat.lt_of_lt_of_le h hheight
          idle := by simp [neighbour]
          fresh := by simp }
  | @standing frame frames output rest value s' hframes hb hall hcontent hfollows halone =>
    rw [hframes] at hrising
    have hlength := hs.length_rest hframes hall hcontent
    cases hrising with
    | cons hbase hvalue hrising =>
      obtain ⟨hframes', hnode⟩ := halone.cases
      have hbase' : s'.base = floor frames := by simp [State.base, floor, hframes']
      -- A group leaves its node on the output, a cast leaves an action that waits instead.
      have hcases : (∃ node, s'.output = node :: rest ∧ isMarkerNode node = false) ∨
          (s'.output = rest ∧ s'.pending ≠ []) := by
        rcases hnode with ⟨node, hout, hmarker, -⟩ | ⟨hout, -, -, t, hpending, -⟩
        · exact .inl ⟨node, hout, hmarker⟩
        · exact .inr ⟨hout, by simp [hpending]⟩
      refine
        { rising := hframes' ▸ hrising
          height := ?_
          folded := ?_
          busy := ?_
          idle := by simp [neighbour]
          fresh := by simp }
      · show s'.base ≤ s'.output.length
        rcases hcases with ⟨node, hout, -⟩ | ⟨hout, -⟩ <;> simp [hout, hbase'] <;> omega
      · intro hpending
        rcases hcases with ⟨node, hout, hmarker⟩ | ⟨-, hne⟩
        · exact (congrArg _ hout).trans ((foldTernary_cons hmarker).trans hout.symm)
        · exact absurd hpending hne
      · intro p hp hopening
        rcases hcases with ⟨node, hout, -⟩ | ⟨-, hne⟩
        · refine .inr ?_
          show s'.base < s'.output.length
          simp [hout, hbase']
          omega
        · exact .inl hne

/-! ### The whole row -/

theorem Steps.orderly {t : Token} {next : Option Lexeme} (h : Steps s t next s')
    (hs : s.Orderly) : s'.Orderly := by
  cases h with
  | atom =>
    exact
      { rising := hs.rising
        height := Nat.le_succ_of_le hs.height
        folded := fun _ => foldTernary_cons rfl
        busy := fun _ _ _ => .inr (Nat.lt_succ_of_le hs.height)
        idle := by simp [neighbour]
        fresh := nofun }
  | @op symbol op s' _ _ hread =>
    cases hread with
    | @opening b =>
      have hvalue : (s.previous.any fun p => neighbour p = .value) = true →
          s.pending ≠ [] ∨ s.base < s.output.length := by
        intro h
        cases hp : s.previous with
        | none => simp [hp] at h
        | some p =>
          have hn : neighbour p = .value := by simpa [hp] using h
          exact hs.busy p hp (by simp [hn])
      exact
        { rising := .cons hs.height hvalue hs.rising
          height := Nat.le_refl _
          folded := fun _ => foldTernary_of_length_lt (Nat.lt_add_of_pos_right (by decide))
          busy := by simp [neighbour]
          idle := fun _ _ _ => ⟨List.cons_ne_nil _ _, rfl, rfl⟩
          fresh := nofun }
    | closing hclose => exact hclose.orderly hs _
    | action hop _ _ hall =>
      have hopening : neighbour (.op op) ≠ .opening := by
        cases op with
        | opening b => exact absurd rfl (hop b).1
        | _ => simp [neighbour]
      exact
        { rising := hs.rising
          height := (base_le_applyAll hall hs.height).1
          folded := nofun
          busy := fun _ _ _ => .inl (List.cons_ne_nil _ _)
          idle := by
            rintro p ⟨⟩ hp
            exact absurd hp hopening
          fresh := nofun }

theorem orderly_run {ts : List Token} (h : run s ts = .ok s') (hs : s.Orderly) : s'.Orderly := by
  induction ts generalizing s with
  | nil =>
    obtain rfl := Except.ok.inj h
    exact hs
  | cons t ts ih =>
    obtain ⟨middle, hstep, hrun⟩ := run_cons_ok h
    exact ih hrun (hstep.orderly hs)

theorem Steps.previous_ne_none {t : Token} {next : Option Lexeme} (h : Steps s t next s') :
    s'.previous ≠ none := by
  cases h with
  | _ => exact Option.some_ne_none _

theorem previous_ne_none_of_run {ts : List Token} (h : run s ts = .ok s')
    (hs : ts ≠ [] ∨ s.previous ≠ none) : s'.previous ≠ none := by
  induction ts generalizing s with
  | nil =>
    obtain rfl := Except.ok.inj h
    exact hs.resolve_left fun hne => hne rfl
  | cons t ts ih =>
    obtain ⟨middle, hstep, hrun⟩ := run_cons_ok h
    exact ih hrun (.inr hstep.previous_ne_none)

/-- A row that is not empty and ends well leaves a single node on the output, and there is nothing
to fold. -/
theorem finish_orderly {start : Location} {e : Expr} (h : finish s start = .ok e)
    (hs : s.Orderly) (hprevious : s.previous ≠ none) :
    s.frames = [] ∧ applyAll 0 s.pending s.output = .ok [e] ∧ isMarkerNode e = false := by
  obtain ⟨hframes, output, hall, hend⟩ := finish_ok h
  have hbase : s.base = 0 := by simp [State.base, hframes]
  rw [hbase] at hall
  have hfolded : foldTernary 0 output = output :=
    folded_applyAll hall (hbase ▸ hs.folded)
  obtain ⟨p, hp⟩ := Option.ne_none_iff_exists'.mp hprevious
  have hopening : neighbour p ≠ .opening := fun hn => (hs.idle p hp hn).1 hframes
  have hne : 0 < output.length :=
    (base_le_applyAll hall (Nat.zero_le _)).2 (hbase ▸ hs.busy p hp hopening)
  rw [hfolded] at hend
  rcases hend with ⟨rfl, -⟩ | ⟨rfl, hmarker⟩
  · exact absurd hne (Nat.lt_irrefl 0)
  · exact ⟨hframes, hall, hmarker⟩

/-- The tree of a row that is not empty is the one node that its operators leave. -/
theorem ofTokens_ne_nil {ts : List Token} {e : Expr} (h : Expr.ofTokens ts = .ok e)
    (hne : ts ≠ []) : ∃ s, run .initial ts = .ok s ∧ s.Orderly ∧ s.frames = [] ∧
      applyAll 0 s.pending s.output = .ok [e] ∧ isMarkerNode e = false := by
  rcases ofTokens_ok h with ⟨hnil, -⟩ | ⟨s, start, hrun, hfinish⟩
  · exact absurd hnil hne
  · have hs := orderly_run hrun orderly_initial
    exact ⟨s, hrun, hs, finish_orderly hfinish hs (previous_ne_none_of_run hrun (.inl hne))⟩

end KernelTree.Build
