import Mathlib.Data.List.Forall2
import KernelTree.Proofs.Pass.Walk

/-!
# Rewritten statements

What a statement becomes when some answers, one for each place, rewrite it from the leaves up: if
nothing is removed, it is made of what its parts become (`Statement.parts_rebuild_of_kept`), so a
relation between statements and what they become is shown place by place
(`Statement.rewrite_induction`). If everything is kept, nothing changes
(`Statement.rewriteBelow_of_keep`).
-/

namespace KernelTree

namespace Statement

variable {s : Statement} {answers : List (Verdict Statement × Statement)}

/-! ### One statement -/

/-- Where nothing is removed, a list has one statement for each answer. -/
theorem flatMap_inList_of_kept (h : ∀ a ∈ answers, a.1 ≠ .remove) :
    answers.flatMap inList = answers.map inSlot := by
  induction answers with
  | nil => rfl
  | cons a answers ih =>
    obtain ⟨ha, hrest⟩ := List.forall_mem_cons.mp h
    obtain ⟨v, s⟩ := a
    rw [List.flatMap_cons, ih hrest]
    cases v with
    | remove => exact absurd rfl ha
    | _ => rfl

/-- Where nothing is removed, the statement is put together from what is left of its parts. -/
theorem parts_rebuild_of_kept (hlength : answers.length = s.parts.length)
    (h : ∀ a ∈ answers, a.1 ≠ .remove) : (s.rebuild answers).parts = answers.map inSlot := by
  cases s with
  | block scope body l => exact flatMap_inList_of_kept h
  | loop scope init check update body attributes l =>
    obtain _ | ⟨a, _ | ⟨b, _ | ⟨c, rest⟩⟩⟩ := answers <;> try cases hlength
    simp only [List.forall_mem_cons] at h
    simp only [rebuild, parts, List.map_cons, flatMap_inList_of_kept h.2.2.2]
  | branch scope condition body otherwise l =>
    cases otherwise with
    | none =>
      obtain _ | ⟨a, rest⟩ := answers
      · cases hlength
      · simp only [rebuild, parts, List.map_cons,
          flatMap_inList_of_kept (List.forall_mem_cons.mp h).2]
    | some otherwise =>
      obtain _ | ⟨a, rest⟩ := answers
      · cases hlength
      · simp only [rebuild, parts, List.map_cons, ← List.flatMap_append, List.take_append_drop,
          flatMap_inList_of_kept (List.forall_mem_cons.mp h).2]
  | «while» scope condition body isDoWhile l =>
    obtain _ | ⟨a, rest⟩ := answers
    · cases hlength
    · simp only [rebuild, parts, List.map_cons,
        flatMap_inList_of_kept (List.forall_mem_cons.mp h).2]
  | _ =>
    obtain rfl := List.length_eq_zero_iff.mp hlength
    rfl

/-- Keeping all parts leaves the statement as it is. -/
theorem rebuild_keep (s : Statement) : s.rebuild (s.parts.map (Prod.mk .keep)) = s := by
  have hbody : ∀ body : List Statement,
      (body.map (Prod.mk Verdict.keep)).flatMap inList = body := by
    intro body
    rw [List.flatMap_map]
    exact List.flatMap_singleton' body
  cases s with
  | branch scope condition body otherwise l =>
    cases otherwise with
    | none => simp only [parts, rebuild, List.map_cons, inSlot, hbody]
    | some otherwise =>
      simp only [parts, rebuild, List.map_cons, inSlot, ← List.map_take, ← List.map_drop,
        List.take_left, List.drop_left, hbody]
  | block | loop | «while» => simp only [parts, rebuild, List.map_cons, inSlot, hbody]
  | _ => rfl

/-- A statement opens its scope whatever becomes of its parts. -/
theorem scope?_rebuild (s : Statement) (answers : List (Verdict Statement × Statement)) :
    (s.rebuild answers).scope? = s.scope? := by
  unfold rebuild
  split <;> rfl

/-- A statement has its expressions whatever becomes of its parts. -/
theorem exprs_rebuild (s : Statement) (answers : List (Verdict Statement × Statement)) :
    (s.rebuild answers).exprs = s.exprs := by
  unfold rebuild
  split <;> rfl

/-! ### The whole tree -/

variable {f : Place → Verdict Statement} {k : ScopeId}

/-- The answers in a part are among those in the statement. -/
theorem mem_sites_part {i : Nat} (hi : i < s.parts.length)
    {site : Site ScopeId Statement} (h : site ∈ shape.sites (shape.inside s k) s.parts[i]) :
    site.under i ∈ shape.sites k s :=
  shape.mem_sites.mpr (.part (List.getElem?_eq_getElem hi) (shape.mem_sites.mp h))

/-- Where everything is kept, the statement stays as it is. -/
theorem rewriteBelow_of_keep
    (h : ∀ site ∈ shape.sites k s, f site.place = .keep) : shape.rewriteBelow f s = s := by
  induction s using shape.inductionOn generalizing k f with
  | step s ih =>
    have hparts : (s.parts.mapIdx fun i c =>
        (f [i], shape.rewriteBelow (fun place => f (i :: place)) c))
          = s.parts.map (Prod.mk .keep) := by
      apply List.ext_getElem
      · simp
      intro i hi hi'
      have hi : i < s.parts.length := by simpa using hi
      have hsub : ∀ site ∈ shape.sites (shape.inside s k) s.parts[i],
          f (i :: site.place) = .keep := by
        intro site hsite
        exact h (site.under i) (mem_sites_part hi hsite)
      simp only [List.getElem_mapIdx, List.getElem_map]
      rw [ih _ (List.getElem_mem hi) hsub,
        hsub ⟨[], _, _⟩ (shape.mem_sites.mpr (.root _ _))]
    rw [shape.rewriteBelow_eq]
    exact (congrArg s.rebuild hparts).trans s.rebuild_keep

/-- A relation between statements and what they become holds of the whole statement if at every
place it follows from that of the parts. -/
theorem rewrite_induction {M : ScopeId → Statement → Statement → Prop}
    (hkept : ∀ site ∈ shape.sites k s, f site.place ≠ .remove)
    (step : ∀ site ∈ shape.sites k s,
      List.Forall₂ (M (shape.inside site.node site.around)) site.node.parts
        (shape.presented f site).parts →
      M site.around site.node (inSlot (f site.place, shape.presented f site))) :
    M k s (inSlot (f [], shape.rewriteBelow f s)) := by
  induction s using shape.inductionOn generalizing k f with
  | step s ih =>
    have hroot : (⟨[], k, s⟩ : Site ScopeId Statement) ∈ shape.sites k s :=
      shape.mem_sites.mpr (.root k s)
    refine step ⟨[], k, s⟩ hroot ?_
    -- Nothing is removed, so the parts of the rewritten statement are those that its parts become.
    have hparts : (shape.presented f ⟨[], k, s⟩).parts = s.parts.mapIdx fun i c =>
        inSlot (f [i], shape.rewriteBelow (fun place => f (i :: place)) c) := by
      let answers := s.parts.mapIdx fun i c =>
        (f [i], shape.rewriteBelow (fun place => f (i :: place)) c)
      have hanswers : ∀ a ∈ answers, a.1 ≠ .remove := fun a ha => by
        obtain ⟨i, hi, rfl⟩ := List.mem_mapIdx.mp ha
        exact hkept _ (mem_sites_part hi (shape.mem_sites.mpr (.root _ _)))
      have hrebuild : (s.rebuild answers).parts = answers.map inSlot :=
        parts_rebuild_of_kept List.length_mapIdx hanswers
      rw [Shape.presented, shape.rewriteBelow_eq]
      exact hrebuild.trans (List.ext_getElem (by simp [answers]) (by simp [answers]))
    rw [hparts, List.forall₂_iff_get]
    refine ⟨List.length_mapIdx.symm, fun i hi hi' => ?_⟩
    have hpart := ih _ (List.getElem_mem hi) (k := shape.inside s k)
      (f := fun place => f (i :: place))
      (fun site hsite => hkept _ (mem_sites_part hi hsite))
      (fun site hsite => step _ (mem_sites_part hi hsite))
    simpa using hpart

/-- A statement is presented with its scope. -/
theorem scope?_presented (f : Place → Verdict Statement) (site : Site ScopeId Statement) :
    (shape.presented f site).scope? = site.node.scope? := by
  rw [Shape.presented, shape.rewriteBelow_eq]
  exact scope?_rebuild _ _

/-- A statement is presented with its expressions. -/
theorem exprs_presented (f : Place → Verdict Statement) (site : Site ScopeId Statement) :
    (shape.presented f site).exprs = site.node.exprs := by
  rw [Shape.presented, shape.rewriteBelow_eq]
  exact exprs_rebuild _ _

/-- What the parts have become has a property if the parts had another one. -/
theorem forall_mem_congr {P Q : Statement → Prop} {l l' : List Statement}
    (h : List.Forall₂ (fun c c' => P c' ↔ Q c) l l') : (∀ c ∈ l', P c) ↔ ∀ c ∈ l, Q c := by
  induction h with
  | nil => exact iff_of_true (List.forall_mem_nil _) (List.forall_mem_nil _)
  | cons hc _ ih => rw [List.forall_mem_cons, List.forall_mem_cons, hc, ih]

/-! ### Every statement of a tree -/

/-- The statement and all statements inside it have a property. -/
def Everywhere (P : Statement → Prop) (s : Statement) : Prop :=
  ∀ site ∈ shape.sites .global s, P site.node

variable {P : Statement → Prop} {s : Statement}

/-- What a statement is does not depend on what is around it. -/
theorem everywhere_iff_sites (k : ScopeId) :
    s.Everywhere P ↔ ∀ site ∈ shape.sites k s, P site.node := by
  have hcongr : ∀ k k' : ScopeId, (∀ site ∈ shape.sites k s, P site.node) ↔
      ∀ site ∈ shape.sites k' s, P site.node := by
    induction s using shape.inductionOn with
    | step s ih =>
      intro k k'
      rw [shape.forall_mem_sites fun _ _ => Iff.rfl, shape.forall_mem_sites fun _ _ => Iff.rfl,
        forall_congr' fun c => forall_congr' fun hc => ih c hc _ (shape.inside s k')]
  exact hcongr .global k

/-- What holds everywhere in a statement holds of it and everywhere in its parts. -/
theorem everywhere_iff : s.Everywhere P ↔ (∀ c ∈ s.parts, c.Everywhere P) ∧ P s := by
  rw [everywhere_iff_sites .global, shape.forall_mem_sites fun _ _ => Iff.rfl]
  exact and_congr_left' (forall_congr' fun c => forall_congr' fun _ =>
    (everywhere_iff_sites _).symm)

end Statement

end KernelTree
