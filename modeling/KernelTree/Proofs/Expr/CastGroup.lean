import KernelTree.Proofs.Expr.Infix
import KernelTree.Proofs.Expr.Recover

/-!
# Groups behind casts

A bracket behind a cast is meant as the operand of the cast. But only the latest cast is kept in
mind, so if another cast is closed inside the bracket, the bracket takes the value that stands
before both, if there is one, and the row is left with a value too few. For trees of leaves, prefix
and binary operators, groups and casts (`Expr.CastForm`) that is all that can go wrong: their tokens
are read as the tree if no bracket takes a value, and refused otherwise (`Expr.ofTokens_castForm`).
The induction is on the tree: `Build.Walks` follows its tokens through any run that goes well,
whether the tree is recovered or not, and counts the values taken as gaps.
-/

namespace KernelTree

namespace Expr

/-- The trees of leaves that are no types, prefix and binary operators that neither count up nor
down, groups and casts, in which no operator is looser than its place allows. -/
inductive CastForm : Expr → Prop
  | atom {a : Atom} {l : Location} (ha : a.vartype? = none) : CastForm (atom a l)
  | prefixed {op : PrefixOp} {v : Expr} {l : Location}
      (hop : op.isPlain = true ∨ op = .globalScope) (hstep : op ≠ .increment ∧ op ≠ .decrement)
      (hv : CastForm v) (hleft : v.StaysBehind op.precedence) : CastForm (prefixed (.pre op) v l)
  | binary {op : BinaryOp} {a b : Expr} {l : Location} (ha : CastForm a)
      (hright : a.GivesWay op.precedence) (hb : CastForm b) (hleft : b.StaysBehind op.precedence) :
      CastForm (binary (.binary op) a b l)
  | parens {v : Expr} {l : Location} (hv : CastForm v) : CastForm (parens v l)
  | cast {t : Vartype} {v : Expr} {l : Location} (hv : CastForm v) (hleft : v.StaysBehind 2) :
      CastForm (cast .paren t v l)

namespace CastForm

variable {t a : Expr}

/-- A tree of casts has a token. -/
theorem printed_ne_nil (h : t.CastForm) : t.printed ≠ [] := by
  cases h <;> simp [printed]

/-- A tree of casts does not end in a step. -/
theorem endsInStep_eq_false (h : t.CastForm) : t.endsInStep = false := by
  induction h with
  | atom => rfl
  | prefixed _ _ _ _ ih => exact ih
  | binary _ _ _ _ _ ih => exact ih
  | parens => rfl
  | cast _ _ ih => exact ih

/-- No leaf is a type. -/
theorem vartype?_eq_none (h : t.CastForm) : t.vartype? = none := by
  cases h with
  | atom ha => exact ha
  | _ => rfl

/-- Without a type at its root the tree can be put in brackets. -/
theorem grouped_parens {l : Location} (h : t.CastForm) (ht : t.Grouped) :
    (Expr.parens t l).Grouped := .parens ht h.vartype?_eq_none h.endsInStep_eq_false

/-- With no `sizeof` there is nothing to bracket. -/
theorem reprint_eq (h : t.CastForm) : t.reprint = t.unplaced := by
  induction h with
  | atom => rfl
  | prefixed _ _ _ _ ih => exact congrArg (Expr.prefixed _ · .none) ih
  | binary _ _ _ _ iha ihb => exact congrArg₂ (Expr.binary _ · · .none) iha ihb
  | parens _ ih => exact congrArg (Expr.parens · .none) ih
  | cast _ _ ih => exact congrArg (Expr.cast _ _ · .none) ih

end CastForm

end Expr

namespace Build

open KernelTree.Expr

variable {base : Nat} {p : Pending} {pending : List Pending} {output output' rest : List Expr}
  {s s' : State} {y y' : Tally}

/-! ### Types do not stay on the output -/

/-- No node of the output is a type. -/
def Untyped (output : List Expr) : Prop := ∀ e ∈ output, e.vartype? = none

/-- A stack names no types if its top does not and the rest does not. -/
theorem untyped_cons {e : Expr} : Untyped (e :: output) ↔ e.vartype? = none ∧ Untyped output :=
  List.forall_mem_cons

/-- A folded conditional names no type. -/
theorem untyped_foldTernary (h : Untyped output) : Untyped (foldTernary base output) := by
  rcases foldTernary_cases base output with heq | ⟨onFalse, onTrue, check, l, l', rest, rfl, -, heq⟩
  · rw [heq]
    exact h
  · rw [heq]
    simp only [untyped_cons] at h ⊢
    exact ⟨rfl, h.2.2.2⟩

/-- An operator that is applied makes a node that names no type. -/
theorem Applies.untyped (h : Applies base p output output') (hout : Untyped output) :
    Untyped output' := by
  cases h with
  | binary =>
    simp only [untyped_cons] at hout ⊢
    exact ⟨rfl, hout.2.2⟩
  | postfixed => exact untyped_cons.mpr ⟨rfl, (untyped_cons.mp hout).2⟩
  | prefixed _ hnode =>
    refine untyped_foldTernary (untyped_cons.mpr ⟨?_, (untyped_cons.mp hout).2⟩)
    rcases prefixNode_ok hnode with ⟨-, rfl⟩ | ⟨-, rfl⟩ | ⟨-, rfl⟩ <;> rfl
  | cast => exact untyped_foldTernary (untyped_cons.mpr ⟨rfl, (untyped_cons.mp hout).2⟩)

/-- Applying what is pending names no types. -/
theorem untyped_applyAll (h : applyAll base pending output = .ok output') (hout : Untyped output) :
    Untyped output' := by
  induction pending generalizing output with
  | nil =>
    obtain rfl := Except.ok.inj h
    exact hout
  | cons p pending ih =>
    obtain ⟨middle, happ, hall⟩ := applyAll_cons_ok h
    exact ih hall (happ.untyped hout)

/-- What stood in a bracket names no type. -/
theorem Contains.untyped {frame : Frame} {value : Expr} (h : Contains frame output value rest)
    (hout : Untyped output) : value.vartype? = none ∧ Untyped rest := by
  cases h with
  | nothing => exact ⟨rfl, hout⟩
  | value => exact untyped_cons.mp hout

/-- A bracket behind a value makes a node that names no type. -/
theorem Attaches.untyped {frame : Frame} {callee value : Expr} {nodes : List Expr}
    (h : Attaches frame callee value nodes) (hcallee : callee.vartype? = none) : Untyped nodes := by
  cases h with
  | tuple => exact untyped_cons.mpr ⟨rfl, List.forall_mem_singleton.mpr hcallee⟩
  | _ => exact List.forall_mem_singleton.mpr rfl

/-- A bracket by itself names no type. -/
theorem StandsAlone.untyped {frame : Frame} {value : Expr} (h : StandsAlone s frame value s')
    (hout : Untyped s.output) : Untyped s'.output := by
  cases h with
  | cast => exact hout
  | _ => exact untyped_cons.mpr ⟨rfl, hout⟩

/-- Closing a bracket names no types. -/
theorem Closes.untyped {b : Bracket} (h : Closes s b s') (hout : Untyped s.output) :
    Untyped s'.output := by
  cases h with
  | attached _ _ hall hcontent _ hattach =>
    obtain ⟨hcallee, hrest⟩ :=
      untyped_cons.mp (hcontent.untyped (untyped_applyAll hall hout)).2
    exact List.forall_mem_append.mpr ⟨hattach.untyped hcallee, hrest⟩
  | standing _ _ hall hcontent _ halone =>
    exact halone.untyped (hcontent.untyped (untyped_applyAll hall hout)).2

/-- Only the name of a type puts one on the output. -/
theorem Steps.untyped {t : Token} {next : Option Lexeme} (h : Steps s t next s')
    (ht : ∀ a, t.lexeme = .atom a → a.vartype? = none) (hout : Untyped s.output) :
    Untyped s'.output := by
  cases h with
  | atom hlexeme => exact untyped_cons.mpr ⟨ht _ hlexeme, hout⟩
  | op _ _ hread =>
    cases hread with
    | opening => exact hout
    | closing hclose => exact hclose.untyped hout
    | action _ _ _ hall => exact untyped_applyAll hall hout

/-! ### Counting without clashes -/

/-- What begins a value. -/
def Role.begins : Role → Bool
  | leaf => true
  | before => true
  | opening => true
  | _ => false

/-- No value has begun behind another, and no bracket that is open. -/
structure Tally.Clean (y : Tally) : Prop where
  clashes : y.clashes = 0
  outer : ∀ ended ∈ y.outer, ended = false

/-- A gap that was counted stays counted. -/
theorem Tally.gaps_le (y : Tally) (r : Role) : y.gaps ≤ (y.read r).gaps := by
  cases r with
  | taking => exact Nat.le_trans (Nat.le_add_right _ _) (Nat.le_add_right _ _)
  | leaf | before | opening => exact Nat.le_refl _
  | _ => exact Nat.le_add_right _ _

namespace Tally.Clean

/-- No bracket around the row has begun with an operand. -/
theorem headD_outer (h : y.Clean) : y.outer.headD false = false := by
  cases houter : y.outer with
  | nil => rfl
  | cons ended outer => exact h.outer ended (by simp [houter])

/-- A value may begin where none has ended, and anything else may stand anywhere. -/
theorem read {r : Role} (h : y.Clean) (hr : r.begins = true → y.ended = false) :
    (y.read r).Clean := by
  have htail : ∀ ended ∈ y.outer.tail, ended = false :=
    fun ended hended => h.outer ended (List.mem_of_mem_tail hended)
  cases r with
  | leaf | before => exact ⟨by simp [Tally.read, hr rfl, h.clashes], h.outer⟩
  | opening => exact ⟨h.clashes, List.forall_mem_cons.mpr ⟨hr rfl, h.outer⟩⟩
  | between | behind => exact ⟨h.clashes, h.outer⟩
  | taking => exact ⟨h.clashes, htail⟩
  | standing | casting =>
    refine ⟨?_, htail⟩
    show y.clashes + (y.outer.headD false).toNat = 0
    rw [h.headD_outer, h.clashes]
    rfl

/-- A bracket that takes a value where none has ended leaves a gap. -/
theorem gaps_taking (h : y.Clean) : (y.read .taking).gaps ≠ 0 := by
  show y.gaps + y.due + (!y.outer.headD false).toNat ≠ 0
  rw [h.headD_outer]
  exact Nat.succ_ne_zero _

end Tally.Clean

/-! ### States on the way -/

/-- A state and what has been counted on the way to it. -/
structure Sound (y : Tally) (s : State) : Prop where
  orderly : s.Orderly
  balanced : Balanced y s
  clean : y.Clean
  untyped : Untyped s.output

/-- The tally keeps up with a step. -/
theorem Sound.step {t : Token} {next : Option Lexeme} (h : Sound y s)
    (hstep : Build.step s t next = .ok s') (ht : ∀ a, t.lexeme = .atom a → a.vartype? = none)
    (hrole : (role s s').begins = true → s.ended = false) : Sound (y.read (role s s')) s' where
  orderly := (step_ok hstep).orderly h.orderly
  balanced := balanced_step hstep h.orderly h.balanced
  clean := h.clean.read fun hbegins => h.balanced.ended.trans (hrole hbegins)
  untyped := (step_ok hstep).untyped ht h.untyped

section

variable {op : Operator} {b : Bracket} {l : Location}

/-- An operator does not stand behind a cast. -/
theorem State.afterCast_awaiting (hc : ∀ j ∈ s.castClose, j < s.index) :
    (s.awaiting output pending op).afterCast = false := State.afterCast_succ rfl rfl hc

/-- A bracket that opens does not stand behind a cast. -/
theorem State.afterCast_opened (hc : ∀ j ∈ s.castClose, j < s.index) :
    (s.opened b l).afterCast = false := State.afterCast_succ rfl rfl hc

/-- The closing bracket of a cast does. -/
theorem State.afterCast_behindCast (s : State) (k : Vartype) (l : Location) :
    (s.behindCast k l).afterCast = true := by
  simp [State.afterCast, State.behindCast]

end

/-- A state that awaits an operand. -/
structure Ready (y : Tally) (s : State) : Prop extends Sound y s where
  awaits : s.Awaits
  behind : s.afterCast = true → ∃ p ∈ s.previous, neighbour p = .value
  sizeof : afterSizeof s.pending = false

/-- Where an operand is awaited, no value has ended. -/
theorem Ready.ended (h : Ready y s) : s.ended = false := by
  cases hc : s.afterCast with
  | true => simp [State.ended, hc]
  | false =>
    rcases h.awaits.previous with hc' | hn
    · rw [hc] at hc'
      cases hc'
    · cases hp : s.previous with
      | none => simp [State.ended, hp]
      | some p => rcases hn p hp with hn | hn <;> simp [State.ended, hp, hn]

/-- The latest cast was closed between the states if `hasCast` says so, and before them if not. -/
structure LatestCast (hasCast : Bool) (s s' : State) : Prop where
  index : s.index ≤ s'.index
  since : hasCast = true → ∃ j ∈ s'.castClose, s.index ≤ j
  before : hasCast = false → s'.castClose = s.castClose

/-- Of two rows one after the other, the later one that has a cast has the latest. -/
theorem LatestCast.trans {s₁ s₂ : State} {c c' : Bool} (h : LatestCast c s s₁)
    (h' : LatestCast c' s₁ s₂) : LatestCast (c || c') s s₂ where
  index := Nat.le_trans h.index h'.index
  since hc := by
    cases hc' : c' with
    | true =>
      obtain ⟨j, hj, hle⟩ := h'.since hc'
      exact ⟨j, hj, Nat.le_trans h.index hle⟩
    | false =>
      rw [h'.before hc']
      exact h.since (by simpa [hc'] using hc)
  before hc := by
    obtain ⟨hc, hc'⟩ := Bool.or_eq_false_iff.mp hc
    exact (h'.before hc').trans (h.before hc)

/-- A token that closes no cast. -/
theorem latestCast_succ (hindex : s'.index = s.index + 1) (hcast : s'.castClose = s.castClose) :
    LatestCast false s s' := ⟨by omega, nofun, fun _ => hcast⟩

/-- An operator is no cast. -/
theorem latestCast_awaiting (s : State) (output : List Expr) (pending : List Pending)
    (op : Operator) : LatestCast false s (s.awaiting output pending op) := latestCast_succ rfl rfl

/-- A bracket that opens is no cast. -/
theorem latestCast_opened (s : State) (b : Bracket) (l : Location) :
    LatestCast false s (s.opened b l) := latestCast_succ rfl rfl

/-- A cast is the latest when it closes. -/
theorem latestCast_behindCast (s : State) (k : Vartype) (l : Location) :
    LatestCast true s (s.behindCast k l) where
  index := Nat.le_add_right _ _
  since _ := ⟨_, rfl, Nat.le_add_right _ _⟩
  before hc := by cases hc

/-- From `s` on the tokens of `t` have been read, and the state is now `s'`. If no gap has been
counted, they were read as `t`. -/
structure Passes (y y' : Tally) (s s' : State) (t : Expr) : Prop extends Sound y' s' where
  frames : s'.frames = s.frames
  latest : LatestCast t.hasParenCast s s'
  closed : ∀ j ∈ s'.castClose, j + 1 < s'.index
  previous : ∃ p, s'.previous = some p ∧ neighbour p = .value
  gaps : y.gaps ≤ y'.gaps
  grouped : y'.gaps = 0 → t.Grouped ∧ (t.grabs s.afterCast = true → s.output = [])

/-- Wherever an operand is awaited and the run goes well, the tokens of the tree are passed. -/
def Walks (t : Expr) : Prop :=
  ∀ (ts rest : List Token) (s s'' : State) (y : Tally), ts.map Token.lexeme = t.printed →
    Ready y s → run s (ts ++ rest) = .ok s'' →
    ∃ s' y', run s' rest = .ok s'' ∧ Passes y y' s s' t

variable {ts ta tb : List Token} {t v a b : Expr} {l : Location}

/-- A leaf that is no type is an operand. -/
theorem walks_atom {x : Atom} (hx : x.vartype? = none) : Walks (.atom x l) := by
  intro ts rest s s'' y hts hs hrun
  obtain ⟨⟨lexeme, l'⟩, ts, rfl, rfl, hnil⟩ := List.map_eq_cons_iff.mp hts
  obtain rfl := List.map_eq_nil_iff.mp hnil
  obtain ⟨s', hstep, hrun⟩ := bind_ok hrun
  have hatom (x' : Atom) (hx' : Lexeme.atom x = .atom x') : x'.vartype? = none := by
    obtain rfl := Lexeme.atom.inj hx'
    exact hx
  have hsound := hs.toSound.step hstep hatom fun _ => hs.ended
  obtain rfl := Except.ok.inj hstep
  refine ⟨_, y.read .leaf, hrun, ?_⟩
  exact
    { hsound with
      frames := rfl
      latest := hasParenCast_atom x l ▸ latestCast_succ rfl rfl
      closed := fun j hj => Nat.succ_lt_succ (hs.awaits.castClose j hj)
      previous := ⟨_, rfl, rfl⟩
      gaps := Nat.le_refl _
      grouped := fun _ => ⟨.atom x l, nofun⟩ }

/-- Behind an operator that waits for it, an operand is awaited. -/
theorem Sound.ready {op : Operator} (h : Sound y (s.awaiting output pending op))
    (hop : neighbour (.op op) = .wanting) (hc : ∀ j ∈ s.castClose, j < s.index)
    (hsize : afterSizeof pending = false) : Ready y (s.awaiting output pending op) :=
  { h with
    awaits := State.awaits_awaiting hop hc h.orderly.height
    behind := fun hafter => by
      rw [State.afterCast_awaiting hc] at hafter
      cases hafter
    sizeof := hsize }

/-- A prefix operator passes on to its operand. -/
theorem walks_prefixed {op : PrefixOp} (hop : op.isPlain = true ∨ op = .globalScope)
    (hv : v.CastForm) (ih : Walks v) (hleft : v.StaysBehind op.precedence) :
    Walks (.prefixed (.pre op) v l) := by
  intro ts rest s s'' y hts hs hrun
  obtain ⟨⟨lexeme, l'⟩, tb, rfl, rfl, htb⟩ := List.map_eq_cons_iff.mp hts
  have hcases : (Action.pre op).isPrefixed = true ∧ op ≠ .sizeof := by
    rcases hop with hop | rfl
    · cases op <;> simp_all [PrefixOp.isPlain, Action.isPrefixed]
    · exact ⟨rfl, by decide⟩
  obtain ⟨next, hnext⟩ := exists_next hv.printed_ne_nil htb rest
  have hstep := hs.awaits.step_pre hcases.1 l' next
  have hsound := hs.toSound.step hstep (by simp) fun _ => hs.ended
  rw [List.cons_append, run_cons (hnext ▸ hstep)] at hrun
  have hready := hsound.ready (by cases op <;> rfl) hs.awaits.castClose
    (by simp [afterSizeof, hcases.2])
  obtain ⟨s', y', hrun, h⟩ := ih tb rest _ s'' _ htb hready hrun
  refine ⟨s', y', hrun, ?_⟩
  have hlatest : LatestCast (false || v.hasParenCast) s s' :=
    (latestCast_awaiting ..).trans h.latest
  exact
    { h.toSound with
      frames := h.frames
      latest := by simpa using hlatest
      closed := h.closed
      previous := h.previous
      gaps := Nat.le_trans (Tally.gaps_le y _) h.gaps
      grouped := fun hzero => by
        obtain ⟨hgrouped, hgrabs⟩ := h.grouped hzero
        rw [State.afterCast_awaiting hs.awaits.castClose] at hgrabs
        exact ⟨.prefixed hop hgrouped hleft, hgrabs⟩ }

namespace Passes

/-- Behind a tree the last token closes no cast. -/
theorem afterCast (h : Passes y y' s s' t) : s'.afterCast = false := by
  cases hc : s'.castClose with
  | none => simp [State.afterCast, hc]
  | some j =>
    have := h.closed j (by simp [hc])
    have hne : j ≠ s'.index - 1 := by omega
    simp [State.afterCast, hc, hne]

/-- The latest cast closed before the next token. -/
theorem castClose (h : Passes y y' s s' t) : ∀ j ∈ s'.castClose, j < s'.index := by
  intro j hj
  have := h.closed j hj
  omega

/-- Behind a value, a symbol is read as the operator between two. -/
theorem settle_binary (h : Passes y y' s s' t) (op : BinaryOp) (l : Location) (next : Lexeme) :
    settle s' (Operator.binary op).generic l (some next) = .ok (.binary op) := by
  obtain ⟨p, hp, hn⟩ := h.previous
  rcases generic_binary op with ⟨a, ha, hstep, hop⟩ | ha
  · have hreads : readsAsPrefix s' a l (some next) = .ok false := by
      simp [readsAsPrefix, hp, h.afterCast, hn, hstep]
    rw [ha]
    simp [settle, hreads, Except.map, Ambiguous.reading, hop]
  · rw [ha]
    rfl

/-- The operator behind a value waits for what is behind it. -/
theorem step_binary {s₁ : State} {op : BinaryOp} {next : Lexeme} (h : Passes y y' s s' t)
    (hstep : step s' ⟨.op (Operator.binary op).generic, l⟩ (some next) = .ok s₁) :
    ∃ output pending, s₁ = s'.awaiting output (⟨.binary op, l⟩ :: pending) (.binary op) := by
  obtain ⟨op', hsettle, hstep⟩ := bind_ok hstep
  rw [h.settle_binary] at hsettle
  obtain rfl := Except.ok.inj hsettle
  obtain ⟨s₂, hpush, hstep⟩ := bind_ok hstep
  obtain ⟨applied, pending, output, -, -, rfl⟩ := push_ok hpush
  obtain rfl := Except.ok.inj hstep
  exact ⟨output, pending, rfl⟩

end Passes

/-- With no gap, an operator between two values has one below it. -/
theorem Sound.output_ne_nil {op : BinaryOp} (h : Sound y (s.awaiting output pending (.binary op)))
    (hp : ∃ rest, pending = ⟨.binary op, l⟩ :: rest) (hzero : y.gaps = 0) : output ≠ [] := by
  rintro rfl
  obtain ⟨rest, rfl⟩ := hp
  have hcount := h.balanced.count
  simp [State.awaiting, hzero, Action.operator?, joins] at hcount
  omega

/-- An infix operator passes on from one side to the other. -/
theorem walks_binary {op : BinaryOp} (iha : Walks a) (hright : a.GivesWay op.precedence)
    (hb : b.CastForm) (ihb : Walks b) (hleft : b.StaysBehind op.precedence) :
    Walks (.binary (.binary op) a b l) := by
  intro ts rest s s'' y hts hs hrun
  obtain ⟨ta, l', tb, rfl, hta, htb⟩ := exists_split hts
  rw [List.append_assoc, List.cons_append] at hrun
  obtain ⟨s₁, y₁, hrun, h₁⟩ := iha ta _ s s'' y hta hs hrun
  obtain ⟨s₂, hstep, hrun⟩ := bind_ok hrun
  obtain ⟨next, hnext⟩ := exists_next hb.printed_ne_nil htb rest
  rw [hnext] at hstep
  obtain ⟨output, pending, rfl⟩ := h₁.step_binary hstep
  have hsound := h₁.toSound.step hstep (by simp) (by simp [role, State.awaiting, Role.begins])
  have hready := hsound.ready rfl h₁.castClose (by simp [afterSizeof])
  obtain ⟨s₃, y₃, hrun, h₃⟩ := ihb tb rest _ s'' _ htb hready hrun
  refine ⟨s₃, y₃, hrun, ?_⟩
  have hlatest : LatestCast (a.hasParenCast || (false || b.hasParenCast)) s s₃ :=
    h₁.latest.trans ((latestCast_awaiting ..).trans h₃.latest)
  exact
    { h₃.toSound with
      frames := h₃.frames.trans h₁.frames
      latest := by simpa using hlatest
      closed := h₃.closed
      previous := h₃.previous
      gaps := Nat.le_trans h₁.gaps (Nat.le_trans (Tally.gaps_le y₁ _) h₃.gaps)
      grouped := fun hzero => by
        have hzero₂ := Nat.eq_zero_of_le_zero (hzero ▸ h₃.gaps)
        obtain ⟨ha, hgrabs⟩ := h₁.grouped (Nat.eq_zero_of_le_zero (hzero₂ ▸ Tally.gaps_le y₁ _))
        obtain ⟨hb, hgrabs'⟩ := h₃.grouped hzero
        rw [State.afterCast_awaiting h₁.castClose] at hgrabs'
        -- The left operand is there, so nothing in the right one may take a value before it.
        have hne := hsound.output_ne_nil ⟨pending, rfl⟩ hzero₂
        have hnone : b.grabs false = false := Bool.eq_false_iff.mpr fun h => hne (hgrabs' h)
        exact ⟨.binary ha hright hb hleft hnone, hgrabs⟩ }

/-! ### Casts and groups -/

/-- What was counted before a cast is what was counted behind it. -/
theorem Ready.behindCast (h : Ready y s) (t : Vartype) (l : Location) :
    Ready { y with ended := false, begins := false } (s.behindCast t l) := by
  have hafter := s.afterCast_behindCast t l
  have hended : y.ended = false := h.balanced.ended.trans h.ended
  have hcount := h.balanced.count
  rw [hended] at hcount
  exact
    { orderly :=
        { rising := h.orderly.rising
          height := h.orderly.height
          folded := nofun
          busy := fun _ _ _ => .inl (List.cons_ne_nil _ _)
          idle := by simp [State.behindCast, neighbour]
          fresh := nofun }
      balanced :=
        { outer := h.balanced.outer
          begins := rfl
          ended := by simp [State.ended, hafter]
          casts := by simp [State.behindCast]
          count := by simpa [State.behindCast, Action.operator?] using hcount }
      clean := ⟨h.clean.clashes, h.clean.outer⟩
      untyped := h.untyped
      awaits :=
        { previous := .inl hafter
          castClose := by simp [State.behindCast]
          base := h.awaits.base }
      behind := fun _ => ⟨_, rfl, rfl⟩
      sizeof := rfl }

/-- A cast passes on to its operand, and is the latest until that has one. -/
theorem walks_cast {k : Vartype} (ih : Walks v) (hleft : v.StaysBehind 2) :
    Walks (.cast .paren k v l) := by
  intro ts rest s s'' y hts hs hrun
  obtain ⟨⟨x, lo⟩, tacb, rfl, rfl, htacb⟩ := List.map_eq_cons_iff.mp hts
  obtain ⟨⟨x, la⟩, tcb, rfl, rfl, htcb⟩ := List.map_eq_cons_iff.mp htacb
  obtain ⟨⟨x, lc⟩, tb, rfl, rfl, htb⟩ := List.map_eq_cons_iff.mp htcb
  simp only [List.cons_append] at hrun
  rw [run_cast hs.awaits hs.sizeof] at hrun
  obtain ⟨s', y', hrun, h⟩ := ih tb rest _ s'' _ htb (hs.behindCast k lo) hrun
  refine ⟨s', y', hrun, ?_⟩
  have hlatest : LatestCast (true || v.hasParenCast) s s' :=
    (latestCast_behindCast s k lo).trans h.latest
  exact
    { h.toSound with
      frames := h.frames
      latest := by simpa using hlatest
      closed := h.closed
      previous := h.previous
      gaps := h.gaps
      grouped := fun hzero => by
        obtain ⟨hgrouped, hgrabs⟩ := h.grouped hzero
        rw [State.afterCast_behindCast] at hgrabs
        exact ⟨.parenCast hgrouped hleft, hgrabs⟩ }

/-- The end of a group leaves a value, be it its own or one that it took. -/
theorem Sound.step_closing {s₁ s₂ : State} {lo lc : Location} {next : Option Lexeme}
    (h : Sound y s₁) (hframes : s₁.frames = s.frame .round lo :: s.frames)
    (hstep : Build.step s₁ ⟨.op (.closing .round), lc⟩ next = .ok s₂) :
    s₂.frames = s.frames ∧ s₂.castClose = s₁.castClose ∧ s₂.index = s₁.index + 1 ∧
      s₂.previous = some (.op (.closing .round)) ∧
      (role s₁ s₂ = .taking ∨ s.output = [] ∨
        (s.frame .round lo).followsValue s₁.castClose = false) := by
  obtain ⟨op, hsettle, hstep⟩ := bind_ok hstep
  obtain rfl := Except.ok.inj hsettle
  obtain ⟨s₃, hclose, hstep⟩ := bind_ok hstep
  obtain rfl := Except.ok.inj hstep
  cases close_ok hclose with
  | @attached frame frames output rest nodes callee value hframes' hb hall hcontent hfollows =>
    obtain ⟨rfl, rfl⟩ := List.cons.inj (hframes'.symm.trans hframes)
    refine ⟨rfl, rfl, rfl, rfl, .inl ?_⟩
    have hrest := h.orderly.length_rest hframes' hall hcontent
    have hne : (s.frame .round lo).base ≠ 0 := by
      rw [List.length_cons] at hrest
      omega
    have hcast (output : List Expr) (pending : List Pending) : State.afterCast
        ⟨output, pending, s.frames, s₁.index + 1, some (.op (.closing .round)), s₁.castClose⟩
          = false := State.afterCast_succ rfl rfl h.balanced.casts
    rw [role_closing rfl, hcast, if_neg Bool.false_ne_true, if_pos]
    simp [hframes, hfollows, hne]
  | @standing frame frames output rest value s₃ hframes' hb hall hcontent hfollows halone =>
    obtain ⟨rfl, rfl⟩ := List.cons.inj (hframes'.symm.trans hframes)
    have hrest := h.orderly.length_rest hframes' hall hcontent
    have hvalue := (hcontent.untyped (untyped_applyAll hall h.untyped)).1
    obtain ⟨hframes₃, ⟨_, -, -, -, hclose₃⟩ | ⟨-, -, -, _, -, htype⟩⟩ := halone.cases
    · refine ⟨hframes₃, hclose₃, congrArg (· + 1) halone.index, rfl, .inr ?_⟩
      refine hfollows.imp_left fun hnil => List.length_eq_zero_iff.mp ?_
      simpa [hnil, State.frame] using hrest.symm
    · rw [hvalue] at htype
      cases htype

/-- Behind a cast, a bracket in which another cast was closed seems to follow a value. -/
theorem Ready.followsValue {s₁ : State} {b : Bracket} (h : Ready y s) (hafter : s.afterCast = true)
    (hcast : LatestCast true (s.opened b l) s₁) :
    (s.frame b l).followsValue s₁.castClose = true := by
  obtain ⟨p, hp, hn⟩ := h.behind hafter
  obtain ⟨j, hj, hle⟩ := hcast.since rfl
  have hle : s.index + 1 ≤ j := hle
  have hne : s.index - 1 ≠ j := by omega
  simp [Frame.followsValue, State.frame, Option.mem_def.mp hp, hn, Option.mem_def.mp hj]
  omega

/-- Behind an opening bracket an operand is awaited. -/
theorem Ready.opened (h : Ready y s) (l : Location) :
    Ready (y.read .opening) (s.opened .round l) :=
  { h.toSound.step (step_opening s .round l none) (by simp) fun _ => h.ended with
    awaits := State.awaits_opened h.awaits.castClose
    behind := fun hafter => by
      rw [State.afterCast_opened h.awaits.castClose] at hafter
      cases hafter
    sizeof := rfl }

/-- A group passes on to what is inside; a cast inside is then the latest. -/
theorem walks_parens (hv : v.CastForm) (ih : Walks v) : Walks (.parens v l) := by
  intro ts rest s s'' y hts hs hrun
  obtain ⟨⟨x, lo⟩, tic, rfl, rfl, htic⟩ := List.map_eq_cons_iff.mp hts
  obtain ⟨ti, lc, tail, rfl, hti, htail⟩ := exists_split htic
  obtain rfl := List.map_eq_nil_iff.mp htail
  simp only [List.cons_append, List.append_assoc, List.nil_append] at hrun
  rw [run_cons (step_opening s .round lo _)] at hrun
  obtain ⟨s₁, y₁, hrun, h₁⟩ := ih ti _ _ s'' _ hti (hs.opened lo) hrun
  obtain ⟨s₂, hstep, hrun⟩ := bind_ok hrun
  obtain ⟨hframes, hclose, hindex, hprevious, hrole⟩ := h₁.toSound.step_closing h₁.frames hstep
  have hrole' : (role s₁ s₂).begins = true → s₁.ended = false := by
    rw [role_closing hprevious]
    split
    · simp [Role.begins]
    · split <;> simp [Role.begins]
  have hsound := h₁.toSound.step hstep (by simp) hrole'
  refine ⟨s₂, y₁.read (role s₁ s₂), hrun, ?_⟩
  have hlatest : LatestCast (false || (v.hasParenCast || false)) s s₂ :=
    (latestCast_opened ..).trans (h₁.latest.trans (latestCast_succ hindex hclose))
  exact
    { hsound with
      frames := hframes
      latest := by simpa using hlatest
      closed := fun j hj => by
        have := h₁.castClose j (hclose ▸ hj)
        omega
      previous := ⟨_, hprevious, rfl⟩
      gaps := Nat.le_trans h₁.gaps (Tally.gaps_le y₁ _)
      grouped := fun hzero => by
        have hzero₁ := Nat.eq_zero_of_le_zero (hzero ▸ Tally.gaps_le y₁ _)
        obtain ⟨hgrouped, hgrabs⟩ := h₁.grouped hzero₁
        rw [State.afterCast_opened hs.awaits.castClose] at hgrabs
        refine ⟨hv.grouped_parens hgrouped, fun hgrab => ?_⟩
        simp only [grabs, Bool.or_eq_true, Bool.and_eq_true] at hgrab
        -- A bracket behind a cast with another cast in it would have taken the value below, which
        -- costs a gap.
        rcases hgrab with ⟨hafter, hinner⟩ | hinner
        · rcases hrole with htaking | hnil | hfollows
          · rw [htaking] at hzero
            exact absurd hzero h₁.clean.gaps_taking
          · exact hnil
          · rw [hs.followsValue hafter (hinner ▸ h₁.latest)] at hfollows
            cases hfollows
        · exact hgrabs hinner }

/-- By induction over the tree, one lemma for each sort of node. -/
theorem walks (ht : t.CastForm) : Walks t := by
  induction ht with
  | atom ha => exact walks_atom ha
  | prefixed hop _ hv hleft ih => exact walks_prefixed hop hv ih hleft
  | binary ha hright hb hleft iha ihb => exact walks_binary iha hright hb ihb hleft
  | parens hv ih => exact walks_parens hv ih
  | cast hv hleft ih => exact walks_cast ih hleft

/-! ### The whole row -/

/-- The first token may begin a tree. -/
theorem ready_initial : Ready .start .initial where
  orderly := orderly_initial
  balanced := balanced_initial
  clean := ⟨rfl, List.forall_mem_nil _⟩
  untyped := List.forall_mem_nil _
  awaits :=
    { previous := .inr (by simp [State.initial])
      castClose := by simp [State.initial]
      base := Nat.le_refl _ }
  behind := nofun
  sizeof := rfl

end Build

namespace Expr

open Build

variable {t : Expr} {ts : List Token} {e : Expr}

/-- There are no marks of conditionals among the tokens. -/
theorem CastForm.operator?_ne (h : t.CastForm) {op : PrefixOp}
    (hop : op = .question ∨ op = .colon) : ∀ x ∈ t.printed, x.operator? ≠ some (.pre op) := by
  induction h with
  | atom => simp [printed, Lexeme.operator?]
  | @prefixed op' v l hplain _ _ _ ih =>
    have hne : op' ≠ op := by
      rintro rfl
      rcases hop with rfl | rfl <;> simp [PrefixOp.isPlain] at hplain
    have hgeneric : (Operator.pre op').generic ≠ .pre op := by
      rcases generic_pre op' with ⟨a, ha, -⟩ | ha <;> simp [ha, hne]
    simp only [printed, List.forall_mem_cons]
    exact ⟨by simpa [Lexeme.operator?] using hgeneric, ih⟩
  | @binary op' a b l _ _ _ _ iha ihb =>
    have hgeneric : (Operator.binary op').generic ≠ .pre op := by
      rcases generic_binary op' with ⟨a, ha, -, -⟩ | ha <;> simp [ha]
    simp only [printed, List.forall_mem_append, List.forall_mem_cons]
    exact ⟨iha, by simpa [Lexeme.operator?] using hgeneric, ihb⟩
  | parens _ ih =>
    simp only [printed, List.forall_mem_append, List.forall_mem_cons]
    exact ⟨by simp [Lexeme.operator?], ih, by simp [Lexeme.operator?]⟩
  | cast _ _ ih =>
    simp only [printed, List.forall_mem_cons]
    exact ⟨by simp [Lexeme.operator?], by simp [Lexeme.operator?], by simp [Lexeme.operator?], ih⟩

/-- Whatever tree is read from such tokens, there are no marks of conditionals in it. -/
theorem CastForm.total_mark_eq_zero (ht : t.CastForm) (hts : ts.map Token.lexeme = t.printed)
    (h : ofTokens ts = .ok e) : e.total mark = 0 := by
  have hweight {op : PrefixOp} (hop : op = .question ∨ op = .colon) {n : Expr} (hn : n ∈ e.nodes) :
      n.weight (counting op) = 0 := by
    have hsum := weight_ofTokens h (weighs_counting op) fun a b => by
      rcases hop with rfl | rfl <;> cases a <;> cases b <;> rfl
    simp only [weight_eq_counting, sum_map_toNat] at hsum
    have hnone : ts.countP (fun t => t.lexeme.operator? = some (.pre op)) = 0 := by
      refine List.countP_eq_zero.mpr fun t' ht' => ?_
      have hmem : t'.lexeme ∈ t.printed := hts ▸ List.mem_map_of_mem ht'
      simpa using ht.operator?_ne hop _ hmem
    rw [hnone, total] at hsum
    exact List.sum_eq_zero_iff_forall_eq_nat.mp hsum _ (List.mem_map_of_mem hn)
  rw [total_mark, List.countP_eq_zero]
  intro n hn hmark
  unfold isMarkerNode at hmark
  split at hmark
  · exact absurd (hweight (.inl rfl) hn) Nat.one_ne_zero
  · exact absurd (hweight (.inr rfl) hn) Nat.one_ne_zero
  · cases hmark

/-- Where no value was taken, the tree is grouped as its tokens say. -/
theorem CastForm.grouped_of_ofTokens (ht : t.CastForm) (hts : ts.map Token.lexeme = t.printed)
    (h : ofTokens ts = .ok e) : t.Grouped := by
  have hne : ts ≠ [] := by
    rintro rfl
    exact ht.printed_ne_nil hts.symm
  obtain ⟨s, hrun, hs, hframes, hall, hmarker⟩ := ofTokens_ne_nil h hne
  obtain ⟨s', y, hrun', hpasses⟩ := walks ht ts [] .initial s .start hts ready_initial
    (by rwa [List.append_nil])
  obtain rfl : s' = s := Except.ok.inj hrun'
  have hmarks := ht.total_mark_eq_zero hts h
  have hcount := hpasses.balanced.count
  have hlength := length_applyAll hall
  have hended : y.ended = true := by
    obtain ⟨p, hp, hn⟩ := hpasses.previous
    simp [hpasses.balanced.ended, State.ended, hpasses.afterCast, hp, hn]
  have houter : y.outer = [] := by simpa [hframes] using hpasses.balanced.outer
  simp [hframes, houter, hended, hpasses.clean.clashes, hmarks] at hcount hlength
  exact (hpasses.grouped (by omega)).1

/-- The tokens are read as the tree, or not at all if some bracket takes a value. -/
theorem ofTokens_castForm (ht : t.CastForm) (hts : ts.map Token.lexeme = t.printed) :
    ((∃ e, ofTokens ts = .ok e) ↔ t.Grouped) ∧
      ∀ e, ofTokens ts = .ok e → e.unplaced = t.unplaced := by
  have hread (hgrouped : t.Grouped) : ∃ e, ofTokens ts = .ok e ∧ e.unplaced = t.unplaced :=
    ht.reprint_eq ▸ ofTokens_printed hgrouped hts
  refine ⟨⟨fun h => ?_, fun h => ?_⟩, fun e h => ?_⟩
  · obtain ⟨e, h⟩ := h
    exact ht.grouped_of_ofTokens hts h
  · obtain ⟨e, h, -⟩ := hread h
    exact ⟨e, h⟩
  · obtain ⟨e', h', htree⟩ := hread (ht.grouped_of_ofTokens hts h)
    obtain rfl := Except.ok.inj (h.symm.trans h')
    exact htree

/-! ### A sum with a cast -/

namespace CastForm

/-- With no cast in the tree no bracket takes a value. -/
theorem grouped_of_hasParenCast (h : t.CastForm) (hcast : t.hasParenCast = false) :
    t.Grouped ∧ ∀ behindCast, t.grabs behindCast = false := by
  induction h with
  | atom => exact ⟨.atom _ _, fun _ => rfl⟩
  | prefixed hop _ _ hleft ih =>
    obtain ⟨hgrouped, hgrabs⟩ := ih (by simpa using hcast)
    exact ⟨.prefixed hop hgrouped hleft, fun _ => hgrabs false⟩
  | binary _ hright _ hleft iha ihb =>
    rw [hasParenCast_binary, Bool.or_eq_false_iff] at hcast
    obtain ⟨ha, hgrabs⟩ := iha hcast.1
    obtain ⟨hb, hgrabs'⟩ := ihb hcast.2
    exact ⟨.binary ha hright hb hleft (hgrabs' false), hgrabs⟩
  | parens hv ih =>
    rw [hasParenCast_parens] at hcast
    obtain ⟨hgrouped, hgrabs⟩ := ih hcast
    refine ⟨hv.grouped_parens hgrouped, fun behindCast => ?_⟩
    simp [grabs, hcast, hgrabs]
  | cast =>
    rw [hasParenCast_parenCast] at hcast
    cases hcast

/-- What waits for the last operand is the root or a prefix operator. -/
theorem rightEdge_le (h : t.CastForm) : t.rightEdge ≤ max t.leftEdge 2 := by
  have hbehind {v : Expr} {p : Nat} (h : v.StaysBehind p) : v.leftEdge ≤ p := by
    rcases h with h | ⟨h, -⟩ <;> omega
  induction h with
  | atom =>
    simp only [rightEdge, leftEdge]
    decide
  | @prefixed op v l hop _ _ hleft ih =>
    have hop : op.precedence ≤ 2 := by
      rcases hop with hop | rfl
      · cases op <;> first | decide | cases hop
      · decide
    have hle : v.leftEdge ≤ op.precedence := hbehind hleft
    simp only [rightEdge, Operator.precedence]
    omega
  | @binary op a b l _ _ _ hleft _ ih =>
    have hle : b.leftEdge ≤ op.precedence := hbehind hleft
    simp only [rightEdge, leftEdge, Operator.precedence]
    omega
  | parens =>
    simp only [rightEdge, leftEdge]
    decide
  | cast _ hleft ih =>
    have hle := hbehind hleft
    simp only [rightEdge]
    omega

/-- A tree of casts that may stand left of a sum gives way to it. -/
theorem givesWay_add (h : t.CastForm) (hleft : t.leftEdge ≤ BinaryOp.add.precedence) :
    t.GivesWay BinaryOp.add.precedence := by
  have hle := h.rightEdge_le
  rcases Int.lt_or_eq_of_le (show t.rightEdge ≤ BinaryOp.add.precedence from by
    simp only [BinaryOp.precedence] at hleft ⊢
    omega) with hlt | heq
  · exact .inl hlt
  · exact .inr ⟨heq, rfl⟩

end CastForm

/-- **The operand of a cast**: a sum whose right side is a cast of a group is read as such if and
only if its left side is read by itself and there is no cast in the group. Otherwise there is no
tree at all. -/
theorem ofTokens_castGroup {a : Expr} {k : Vartype} {ta : List Token} {l l' : Location}
    (ha : a.CastForm) (hleft : a.leftEdge ≤ BinaryOp.add.precedence) (ht : t.CastForm)
    (hta : ta.map Token.lexeme = a.printed)
    (hts : ts.map Token.lexeme = (mkBinary .add a (cast .paren k (parens t l') l)).printed) :
    ((∃ e, ofTokens ts = .ok e) ↔ (∃ e, ofTokens ta = .ok e) ∧ t.hasParenCast = false) ∧
      ∀ e, ofTokens ts = .ok e →
        e.unplaced = (mkBinary .add a (cast .paren k (parens t l') l)).unplaced := by
  have hright := ha.givesWay_add hleft
  have hgroup : (parens t l').StaysBehind 2 := .inl (by simp [leftEdge])
  have hcast : (cast .paren k (parens t l') l).StaysBehind BinaryOp.add.precedence :=
    .inl (by simp [leftEdge, BinaryOp.precedence])
  have hsum : (mkBinary .add a (cast .paren k (parens t l') l)).CastForm :=
    .binary ha hright (.cast (.parens ht) hgroup) hcast
  -- Both rows are read if they are grouped, and the bracket decides about the sum.
  obtain ⟨hiff, htree⟩ := ofTokens_castForm hsum hts
  refine ⟨hiff.trans (.trans ?_ (and_congr_left' (ofTokens_castForm ha hta).1).symm), htree⟩
  constructor
  · intro h
    cases h with
    | binary hgrouped _ _ _ hgrabs =>
      simp only [grabs, Bool.true_and, Bool.or_eq_false_iff] at hgrabs
      exact ⟨hgrouped, hgrabs.1⟩
  · rintro ⟨hgrouped, hnone⟩
    obtain ⟨ht', hgrabs⟩ := ht.grouped_of_hasParenCast hnone
    refine .binary hgrouped hright (.parenCast ?_ hgroup) hcast ?_
    · exact ht.grouped_parens ht'
    · simp [grabs, hnone, hgrabs]

/-- The sum `a + (int) (t)`. -/
def truncated (t : Expr) : Expr :=
  mkBinary .add (atom (.identifier "a") ⟨1, 1⟩)
    (cast .paren (.plain ⟨4⟩) (parens t ⟨1, 10⟩) ⟨1, 5⟩)

/-- Its tokens, with the ones in the group given. -/
def truncatedTokens (ts : List Token) (l : Location) : List Token :=
  [⟨.atom (.identifier "a"), ⟨1, 1⟩⟩, ⟨.op (.unresolved .plus), ⟨1, 3⟩⟩,
    ⟨.op (.opening .round), ⟨1, 5⟩⟩, ⟨.atom (.type ⟨4⟩), ⟨1, 6⟩⟩, ⟨.op (.closing .round), ⟨1, 9⟩⟩,
    ⟨.op (.opening .round), ⟨1, 10⟩⟩] ++ (ts ++ [⟨.op (.closing .round), l⟩])

/-- In `a + (int) (-x)` the group is the operand of the cast. -/
theorem ofTokens_castGroup_negated :
    ∃ e, ofTokens (truncatedTokens [⟨.op (.unresolved .minus), ⟨1, 11⟩⟩,
        ⟨.atom (.identifier "x"), ⟨1, 12⟩⟩] ⟨1, 13⟩) = .ok e ∧
      e.unplaced = (truncated (prefixed (.pre .negative)
        (atom (.identifier "x") ⟨1, 12⟩) ⟨1, 11⟩)).unplaced := by
  have ha : (atom (.identifier "a") ⟨1, 1⟩).CastForm := .atom rfl
  have ht : (prefixed (.pre .negative) (atom (.identifier "x") ⟨1, 12⟩) ⟨1, 11⟩).CastForm :=
    .prefixed (.inl rfl) (by decide) (.atom rfl) (.inl (by decide))
  have hnone : (prefixed (.pre .negative) (atom (.identifier "x") ⟨1, 12⟩) ⟨1, 11⟩).hasParenCast
      = false := by simp
  have hta : [Token.mk (.atom (.identifier "a")) ⟨1, 1⟩].map Token.lexeme
      = (atom (.identifier "a") ⟨1, 1⟩).printed := rfl
  have hts : (truncatedTokens [⟨.op (.unresolved .minus), ⟨1, 11⟩⟩,
      ⟨.atom (.identifier "x"), ⟨1, 12⟩⟩] ⟨1, 13⟩).map Token.lexeme
        = (truncated (prefixed (.pre .negative)
          (atom (.identifier "x") ⟨1, 12⟩) ⟨1, 11⟩)).printed := rfl
  obtain ⟨hiff, htree⟩ := ofTokens_castGroup ha (by decide) ht hta hts
  obtain ⟨e, he⟩ := hiff.mpr ⟨⟨_, rfl⟩, hnone⟩
  exact ⟨e, he, htree e he⟩

/-- A cast does not always take the group behind it: in `a + (int) ((float) x)` the group takes `a`
for a function, and nothing is left for the operator. -/
theorem castInGroup_refused :
    ¬ ∀ (a t : Expr) (k : Vartype) (ts : List Token) (l l' : Location), a.CastForm → t.CastForm →
      a.leftEdge < BinaryOp.add.precedence →
      ts.map Token.lexeme = (mkBinary .add a (cast .paren k (parens t l') l)).printed →
      ∃ e, ofTokens ts = .ok e ∧
        e.unplaced = (mkBinary .add a (cast .paren k (parens t l') l)).unplaced := by
  intro h
  have hx : (cast .paren (.plain ⟨6⟩) (atom (.identifier "x") ⟨1, 19⟩) ⟨1, 11⟩).CastForm :=
    .cast (.atom rfl) (.inl (by decide))
  obtain ⟨e, he, -⟩ := h (atom (.identifier "a") ⟨1, 1⟩) _ (.plain ⟨4⟩)
    (truncatedTokens [⟨.op (.opening .round), ⟨1, 11⟩⟩, ⟨.atom (.type ⟨6⟩), ⟨1, 12⟩⟩,
      ⟨.op (.closing .round), ⟨1, 17⟩⟩, ⟨.atom (.identifier "x"), ⟨1, 19⟩⟩] ⟨1, 20⟩)
    ⟨1, 5⟩ ⟨1, 10⟩ (.atom rfl) hx (by decide) rfl
  have hmissing : ofTokens (truncatedTokens [⟨.op (.opening .round), ⟨1, 11⟩⟩,
      ⟨.atom (.type ⟨6⟩), ⟨1, 12⟩⟩, ⟨.op (.closing .round), ⟨1, 17⟩⟩,
      ⟨.atom (.identifier "x"), ⟨1, 19⟩⟩] ⟨1, 20⟩) = .error ⟨.missingOperand, ⟨1, 3⟩⟩ := rfl
  cases hmissing.symm.trans he

end Expr

end KernelTree
