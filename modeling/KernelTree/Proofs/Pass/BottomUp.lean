import KernelTree.Pass

/-!
# Walks from the leaves up

Trees of a `Shape` are walked part by part, each node after its parts. Such a walk comes to the tree
that is rewritten from the leaves up by one answer for each place (`Shape.exists_rewrites`): the
answers are those that the pass gives when it is asked about the nodes in order, each once and with
everything below it rewritten, up to the first failure; from there on everything is kept.
-/

namespace KernelTree

/-- Where a node stands in a tree: the numbers of the parts on the way to it. -/
abbrev Place := List Nat

/-- A place comes before another if it is below it or to the left of it. -/
inductive Place.Precedes : Place → Place → Prop
  | descendant (i : Nat) (p : Place) : Precedes (i :: p) []
  | left {i j : Nat} (h : i < j) (p q : Place) : Precedes (i :: p) (j :: q)
  | inside (i : Nat) {p q : Place} (h : Precedes p q) : Precedes (i :: p) (i :: q)

theorem Place.Precedes.irrefl {p : Place} : ¬ p.Precedes p := by
  intro h
  induction p with
  | nil => cases h
  | cons i p ih =>
    cases h with
    | left h => exact Nat.lt_irrefl i h
    | inside _ h => exact ih h

/-- A node of a tree, where it stands and what is around it. -/
structure Site (κ α : Type) where
  place : Place
  around : κ
  node : α

namespace Site

variable {κ α : Type}

/-- The same node seen from a tree that has its tree for a part. -/
def under (i : Nat) (site : Site κ α) : Site κ α := { site with place := i :: site.place }

/-- The order in which nodes are visited. -/
def Precedes (x y : Site κ α) : Prop := x.place.Precedes y.place

end Site

/-- How trees are made: the parts of a node from left to right, what is around the parts, and the
node with other parts, each given by the answer about it and the part as it was asked about. -/
structure Shape (ι κ α : Type) [SizeOf α] where
  kind : α → ι
  parts : α → List α
  inside : α → κ → κ
  rebuild : α → List (Verdict α × α) → α
  sizeOf_lt {a c : α} (h : c ∈ parts a) : sizeOf c < sizeOf a
  kind_rebuild (a : α) (answers : List (Verdict α × α)) : kind (rebuild a answers) = kind a

/-- A pass that is told what is around a node. -/
structure Visitor (ι κ α σ ε : Type) where
  accepts : ι → Bool
  visit : α → κ → σ → Except ε (Verdict α) × σ

namespace Shape

variable {ι κ α σ ε : Type} [SizeOf α] (S : Shape ι κ α)

/-- What holds of a node if it holds of its parts holds of every node. -/
theorem inductionOn {P : α → Prop} (a : α) (step : ∀ a, (∀ c ∈ S.parts a, P c) → P a) : P a :=
  step a fun c h =>
    have := S.sizeOf_lt h
    inductionOn c step
termination_by sizeOf a

/-! ### Nodes -/

/-- All nodes, each after its parts. -/
def sites (k : κ) (a : α) : List (Site κ α) :=
  ((S.parts a).attach.mapIdx fun i ⟨c, h⟩ =>
    have := S.sizeOf_lt h
    (sites (S.inside a k) c).map (Site.under i)).flatten ++ [⟨[], k, a⟩]
termination_by sizeOf a

theorem mapIdx_attach {β γ : Type} (l : List β) (g : Nat → β → γ) :
    (l.attach.mapIdx fun i c => g i c.1) = l.mapIdx g := by
  apply List.ext_getElem <;> simp

theorem sites_eq (k : κ) (a : α) :
    S.sites k a = ((S.parts a).mapIdx fun i c =>
      (S.sites (S.inside a k) c).map (Site.under i)).flatten ++ [⟨[], k, a⟩] := by
  rw [sites, ← mapIdx_attach (S.parts a)]

/-- A node of a tree that is the tree or stands in one of its parts. -/
inductive Stands : κ → α → Site κ α → Prop
  | root (k : κ) (a : α) : Stands k a ⟨[], k, a⟩
  | part {k : κ} {a c : α} {i : Nat} {site : Site κ α} (hc : (S.parts a)[i]? = some c)
      (h : Stands (S.inside a k) c site) : Stands k a (site.under i)

theorem mem_sites {k : κ} {a : α} {site : Site κ α} : site ∈ S.sites k a ↔ S.Stands k a site := by
  induction a using S.inductionOn generalizing k site with
  | step a ih =>
    rw [sites_eq, List.mem_append, List.mem_singleton, List.mem_flatten]
    constructor
    · rintro (⟨l, hl, hsite⟩ | rfl)
      · obtain ⟨i, hi, rfl⟩ := List.mem_mapIdx.mp hl
        obtain ⟨inner, hinner, rfl⟩ := List.mem_map.mp hsite
        have hmem := List.getElem_mem hi
        exact .part (List.getElem?_eq_getElem hi) ((ih _ hmem).mp hinner)
      · exact .root k a
    · intro h
      cases h with
      | root => exact .inr rfl
      | @part _ _ c i site hc h =>
        obtain ⟨hi, rfl⟩ := List.getElem?_eq_some_iff.mp hc
        have hmem := List.getElem_mem hi
        exact .inl ⟨_, List.mem_mapIdx.mpr ⟨i, hi, rfl⟩,
          List.mem_map_of_mem ((ih _ hmem).mpr h)⟩

/-- What does not depend on places holds of all nodes if it holds of those in the parts and of the
node itself. -/
theorem forall_mem_sites {k : κ} {a : α} {P : Site κ α → Prop}
    (hP : ∀ i site, P (Site.under i site) ↔ P site) : (∀ site ∈ S.sites k a, P site) ↔
      (∀ c ∈ S.parts a, ∀ site ∈ S.sites (S.inside a k) c, P site) ∧ P ⟨[], k, a⟩ := by
  rw [sites_eq, List.forall_mem_append, List.forall_mem_singleton, and_congr_left_iff]
  intro _
  constructor
  · intro h c hc site hsite
    obtain ⟨i, hi, rfl⟩ := List.getElem_of_mem hc
    refine (hP i site).mp (h _ (List.mem_flatten.mpr ⟨_, ?_, List.mem_map_of_mem hsite⟩))
    exact List.mem_mapIdx.mpr ⟨i, hi, rfl⟩
  · intro h site hsite
    obtain ⟨l, hl, hsite⟩ := List.mem_flatten.mp hsite
    obtain ⟨i, hi, rfl⟩ := List.mem_mapIdx.mp hl
    obtain ⟨inner, hinner, rfl⟩ := List.mem_map.mp hsite
    exact (hP i inner).mpr (h _ (List.getElem_mem hi) inner hinner)

omit [SizeOf α] in
theorem filterMap_under {β : Type} {g : Site κ α → Option β}
    (hg : ∀ i site, g (Site.under i site) = g site) (cs : List α) (f : α → List (Site κ α))
    (number : Nat → Nat) :
    (cs.mapIdx fun i c => (f c).map (Site.under (number i))).flatten.filterMap g
      = cs.flatMap fun c => (f c).filterMap g := by
  induction cs generalizing number with
  | nil => rfl
  | cons c cs ih =>
    have hunder : g ∘ Site.under (number 0) = g := funext (hg (number 0))
    rw [List.mapIdx_cons, List.flatten_cons, List.filterMap_append, List.filterMap_map, hunder,
      ih fun i => number (i + 1), List.flatMap_cons]

theorem filterMap_sites {β : Type} {g : Site κ α → Option β}
    (hg : ∀ i site, g (Site.under i site) = g site) (k : κ) (a : α) :
    (S.sites k a).filterMap g
      = ((S.parts a).flatMap fun c => (S.sites (S.inside a k) c).filterMap g)
        ++ (g ⟨[], k, a⟩).toList := by
  have hparts := filterMap_under hg (S.parts a) (S.sites (S.inside a k)) id
  simp only [id_eq] at hparts
  rw [sites_eq, List.filterMap_append, hparts, List.filterMap_cons, List.filterMap_nil]
  cases g ⟨[], k, a⟩ <;> rfl

/-- Parts come before the node, and everything in a part before everything in a later part. -/
theorem pairwise_sites (k : κ) (a : α) : (S.sites k a).Pairwise Site.Precedes := by
  induction a using S.inductionOn generalizing k with
  | step a ih =>
    rw [sites_eq, List.pairwise_append, List.pairwise_flatten]
    refine ⟨⟨?_, ?_⟩, List.pairwise_singleton _ _, ?_⟩
    · intro l hl
      obtain ⟨i, hi, rfl⟩ := List.mem_mapIdx.mp hl
      exact List.pairwise_map.mpr ((ih _ (List.getElem_mem hi) _).imp fun h => .inside i h)
    · refine List.pairwise_iff_getElem.mpr ?_
      intro i j hi hj hij x hx y hy
      rw [List.getElem_mapIdx] at hx hy
      obtain ⟨x, -, rfl⟩ := List.mem_map.mp hx
      obtain ⟨y, -, rfl⟩ := List.mem_map.mp hy
      exact .left hij _ _
    · intro x hx y hy
      obtain ⟨l, hl, hx⟩ := List.mem_flatten.mp hx
      obtain ⟨i, hi, rfl⟩ := List.mem_mapIdx.mp hl
      obtain ⟨x, -, rfl⟩ := List.mem_map.mp hx
      obtain rfl := List.mem_singleton.mp hy
      exact .descendant i _

/-- No place has two nodes. -/
theorem nodup_sites (k : κ) (a : α) : ((S.sites k a).map Site.place).Nodup := by
  refine List.pairwise_map.mpr ((S.pairwise_sites k a).imp ?_)
  intro x y h heq
  apply Place.Precedes.irrefl (p := y.place)
  rwa [Site.Precedes, heq] at h

/-! ### Rewriting -/

/-- The node with everything below it rewritten, the answer for each place given. -/
def rewriteBelow (f : Place → Verdict α) (a : α) : α :=
  S.rebuild a ((S.parts a).attach.mapIdx fun i ⟨c, h⟩ =>
    have := S.sizeOf_lt h
    (f [i], rewriteBelow (fun place => f (i :: place)) c))
termination_by sizeOf a

theorem rewriteBelow_eq (f : Place → Verdict α) (a : α) :
    S.rewriteBelow f a = S.rebuild a ((S.parts a).mapIdx fun i c =>
      (f [i], S.rewriteBelow (fun place => f (i :: place)) c)) := by
  rw [rewriteBelow, ← mapIdx_attach (S.parts a)]

theorem kind_rewriteBelow (f : Place → Verdict α) (a : α) :
    S.kind (S.rewriteBelow f a) = S.kind a := by
  rw [rewriteBelow_eq, S.kind_rebuild]

/-- The node as the pass is asked about it: with everything below it rewritten. -/
def presented (f : Place → Verdict α) (site : Site κ α) : α :=
  S.rewriteBelow (fun below => f (site.place ++ below)) site.node

/-- The pass is asked about the nodes one by one and gives the answers `f`, until it fails; from
there on the answers are to keep everything, the node of the failure included. -/
inductive Conversation (pass : Visitor ι κ α σ ε) (f : Place → Verdict α) :
    List (Site κ α) → σ → Progress σ ε → Prop
  | finished (s : σ) : Conversation pass f [] s ⟨s, none⟩
  | answered {site : Site κ α} {rest : List (Site κ α)} {s s' : σ} {p : Progress σ ε}
      (h : pass.visit (S.presented f site) site.around s = (.ok (f site.place), s'))
      (hrest : Conversation pass f rest s' p) : Conversation pass f (site :: rest) s p
  | failed {site : Site κ α} {rest : List (Site κ α)} {s s' : σ} {e : ε}
      (h : pass.visit (S.presented f site) site.around s = (.error e, s'))
      (hkeep : ∀ x ∈ site :: rest, f x.place = .keep) :
      Conversation pass f (site :: rest) s ⟨s', some e⟩

/-- Whether the pass cares about a node. -/
def isAsked (pass : Visitor ι κ α σ ε) (site : Site κ α) : Bool := pass.accepts (S.kind site.node)

/-- The answers `f` come from asking a pass about all nodes that it cares about, each once, and the
others are kept. -/
structure Rewrites (pass : Visitor ι κ α σ ε) (k : κ) (a : α) (s : σ) (f : Place → Verdict α)
    (p : Progress σ ε) : Prop where
  complete : ∀ site, site ∈ S.sites k a ↔ S.Stands k a site
  once : ((S.sites k a).map Site.place).Nodup
  ordered : (S.sites k a).Pairwise Site.Precedes
  others : ∀ site ∈ S.sites k a, ¬ S.isAsked pass site → f site.place = .keep
  visits : S.Conversation pass f ((S.sites k a).filter (S.isAsked pass)) s p

/-! ### Walks -/

section

variable {β : Type} {question : σ → Except ε β × σ} {s s' : σ}

theorem ask_of_ok {b : β} (h : question s = (.ok b, s')) (otherwise : β) :
    Walk.ask question otherwise ⟨s, none⟩ = (b, ⟨s', none⟩) := by
  simp only [Walk.ask, h]

theorem ask_of_error {e : ε} (h : question s = (.error e, s')) (otherwise : β) :
    Walk.ask question otherwise ⟨s, none⟩ = (otherwise, ⟨s', some e⟩) := by
  simp only [Walk.ask, h]

end

/-- What a pass answers about a node; it keeps those of kinds it does not care about. -/
def answer (pass : Visitor ι κ α σ ε) (k : κ) (a : α) : Walk σ ε (Verdict α) :=
  if pass.accepts (S.kind a) then Walk.ask (pass.visit a k) .keep else pure .keep

/-- Walks over a tree and comes to the answer about the node and to the node itself, everything
below it settled. -/
def walk (pass : Visitor ι κ α σ ε) (k : κ) (a : α) : Walk σ ε (Verdict α × α) := do
  let answers ← (S.parts a).attach.mapM fun ⟨c, h⟩ =>
    have := S.sizeOf_lt h
    walk pass (S.inside a k) c
  let v ← S.answer pass k (S.rebuild a answers)
  return (v, S.rebuild a answers)
termination_by sizeOf a

theorem walk_eq (pass : Visitor ι κ α σ ε) (k : κ) (a : α) :
    S.walk pass k a = (S.parts a).mapM (S.walk pass (S.inside a k)) >>= fun answers =>
      (·, S.rebuild a answers) <$> S.answer pass k (S.rebuild a answers) := by
  rw [walk, List.mapM_subtype (g := S.walk pass (S.inside a k)) fun _ _ => rfl,
    List.unattach_attach]
  simp only [map_eq_pure_bind]

/-- What is shown of the run at a node: it follows from what is shown of the run through its parts,
`Q`, and from the answer about the node put together again. -/
theorem run_induction {pass : Visitor ι κ α σ ε}
    {P : κ → α → Progress σ ε → Verdict α × α → Progress σ ε → Prop}
    {Q : κ → List α → Progress σ ε → List (Verdict α × α) → Progress σ ε → Prop}
    (nil : ∀ k p, Q k [] p [] p)
    (cons : ∀ {k a l p r p₁ rs p₂}, P k a p r p₁ → Q k l p₁ rs p₂ → Q k (a :: l) p (r :: rs) p₂)
    (node : ∀ {k a p rs p₁ v p₂}, Q (S.inside a k) (S.parts a) p rs p₁ →
      (S.answer pass k (S.rebuild a rs)).run p₁ = (v, p₂) → P k a p (v, S.rebuild a rs) p₂)
    (k : κ) (a : α) (p : Progress σ ε) :
    P k a p ((S.walk pass k a).run p).1 ((S.walk pass k a).run p).2 := by
  have hlist : ∀ {l : List α},
      (∀ c ∈ l, ∀ k p, P k c p ((S.walk pass k c).run p).1 ((S.walk pass k c).run p).2) →
      ∀ k p, Q k l p ((l.mapM (S.walk pass k)).run p).1 ((l.mapM (S.walk pass k)).run p).2 := by
    intro l h
    induction l with
    | nil => exact nil
    | cons c l ih =>
      intro k p
      obtain ⟨hc, hl⟩ := List.forall_mem_cons.mp h
      rw [List.mapM_cons]
      exact cons (hc k p) (ih hl k _)
  induction a using S.inductionOn generalizing k p with
  | step a ih =>
    rw [walk_eq]
    exact node (hlist ih _ p) rfl

variable {S} {pass : Visitor ι κ α σ ε} {f : Place → Verdict α}

/-- The answers `f` about the nodes are those that the walk comes to. -/
def Follows (S : Shape ι κ α) (pass : Visitor ι κ α σ ε) (f : Place → Verdict α) :
    List (Site κ α) → Progress σ ε → Progress σ ε → Prop
  | [], p, p' => p = p'
  | site :: rest, p, p'' => ∃ p', (S.answer pass site.around (S.presented f site)).run p
      = (f site.place, p') ∧ Follows S pass f rest p' p''

theorem follows_append {xs ys : List (Site κ α)} {p p'' : Progress σ ε} :
    S.Follows pass f (xs ++ ys) p p'' ↔
      ∃ p', S.Follows pass f xs p p' ∧ S.Follows pass f ys p' p'' := by
  induction xs generalizing p with
  | nil => simp [Follows]
  | cons site xs ih =>
    simp only [List.cons_append, Follows, ih]
    constructor
    · rintro ⟨p₁, hsite, p', hxs, hys⟩
      exact ⟨p', ⟨p₁, hsite, hxs⟩, hys⟩
    · rintro ⟨p', ⟨p₁, hsite, hxs⟩, hys⟩
      exact ⟨p₁, hsite, p', hxs, hys⟩

/-- What is answered in a part is answered at the places of the part. -/
theorem follows_under {i : Nat} {xs : List (Site κ α)} {p p' : Progress σ ε} :
    S.Follows pass f (xs.map (Site.under i)) p p' ↔
      S.Follows pass (fun place => f (i :: place)) xs p p' := by
  induction xs generalizing p with
  | nil => exact Iff.rfl
  | cons site xs ih =>
    simp only [List.map_cons, Follows, ih]
    exact Iff.rfl

/-- The walk over a tree comes to what it rewrites to by the answers on the way. -/
def Explains (S : Shape ι κ α) (pass : Visitor ι κ α σ ε) (a : α) : Prop :=
  ∀ k p, ∃ f p', (S.walk pass k a).run p = ((f [], S.rewriteBelow f a), p') ∧
    S.Follows pass f (S.sites k a) p p'

/-- The parts of a node are walked over one after another; `n` numbers the first of them. -/
theorem exists_follows_parts {cs : List α} (h : ∀ c ∈ cs, S.Explains pass c) (k : κ) (n : Nat)
    (p : Progress σ ε) : ∃ (g : Nat → Place → Verdict α) (p' : Progress σ ε),
      (cs.mapM (S.walk pass k)).run p
        = (cs.mapIdx fun i c => (g i [], S.rewriteBelow (g i) c), p') ∧
      ∀ f : Place → Verdict α, (∀ i, (fun place => f ((n + i) :: place)) = g i) →
        S.Follows pass f
          ((cs.mapIdx fun i c => (S.sites k c).map (Site.under (n + i))).flatten) p p' := by
  induction cs generalizing n p with
  | nil => exact ⟨fun _ _ => .keep, p, rfl, fun _ _ => rfl⟩
  | cons c cs ih =>
    obtain ⟨hc, hcs⟩ := List.forall_mem_cons.mp h
    obtain ⟨f₀, p₁, hrun, hfollows⟩ := hc k p
    obtain ⟨g, p', hruns, hall⟩ := ih hcs (n + 1) p₁
    -- The answers about the first part are put before those about the others.
    refine ⟨fun i => i.casesOn f₀ g, p', ?_, ?_⟩
    · rw [List.mapM_cons, StateT.run_bind, hrun]
      show (StateT.run (List.mapM (S.walk pass k) cs >>= fun answers => _) p₁) = _
      rw [StateT.run_bind, hruns, List.mapIdx_cons]
      rfl
    · intro f hf
      rw [List.mapIdx_cons, List.flatten_cons, follows_append]
      refine ⟨p₁, follows_under.mpr ?_, ?_⟩
      · rw [hf 0]
        exact hfollows
      · have hnumber : ∀ i, n + 1 + i = n + (i + 1) := fun i => by omega
        have hrest := hall f fun i => by rw [hnumber]; exact hf (i + 1)
        simp only [hnumber] at hrest
        exact hrest

/-- By induction over the tree: the places of a part are those of the whole behind its number. -/
theorem explains (S : Shape ι κ α) (pass : Visitor ι κ α σ ε) (a : α) : S.Explains pass a := by
  induction a using S.inductionOn with
  | step a ih =>
    intro k p
    obtain ⟨g, p₁, hruns, hparts⟩ := exists_follows_parts ih (S.inside a k) 0 p
    let settled := S.rebuild a ((S.parts a).mapIdx fun i c => (g i [], S.rewriteBelow (g i) c))
    obtain ⟨⟨v, p'⟩, hanswer⟩ : ∃ r, (S.answer pass k settled).run p₁ = r := ⟨_, rfl⟩
    -- The answer about the node goes to the root, those about the parts below it.
    let f : Place → Verdict α := fun place => place.casesOn v g
    have hsettled : S.rewriteBelow f a = settled := S.rewriteBelow_eq f a
    refine ⟨f, p', ?_, ?_⟩
    · rw [walk_eq, StateT.run_bind, hruns, hsettled]
      show StateT.run (_ <$> S.answer pass k settled) p₁ = _
      rw [StateT.run_map, hanswer]
      rfl
    · rw [sites_eq, follows_append]
      have hzero : ∀ i : Nat, 0 + i = i := Nat.zero_add
      have hfollows := hparts f fun i => by rw [hzero]
      simp only [hzero] at hfollows
      refine ⟨p₁, hfollows, p', ?_, rfl⟩
      show (S.answer pass k (S.rewriteBelow f a)).run p₁ = _
      rw [hsettled]
      exact hanswer

/-! ### What is asked -/

/-- A walk that has failed asks nothing and keeps everything. -/
theorem Follows.of_failed {xs : List (Site κ α)} {p p' : Progress σ ε} (hp : p.failure.isSome)
    (h : S.Follows pass f xs p p') : p' = p ∧ ∀ site ∈ xs, f site.place = .keep := by
  induction xs generalizing p with
  | nil => exact ⟨h.symm, List.forall_mem_nil _⟩
  | cons site xs ih =>
    obtain ⟨p₁, hsite, hrest⟩ := h
    have hanswer : (S.answer pass site.around (S.presented f site)).run p = (.keep, p) := by
      unfold answer
      split
      · exact Walk.ask_of_failed hp
      · rfl
    obtain ⟨hkeep, rfl⟩ := Prod.mk.inj (hanswer.symm.trans hsite)
    obtain ⟨rfl, hall⟩ := ih hp hrest
    exact ⟨rfl, List.forall_mem_cons.mpr ⟨hkeep.symm, hall⟩⟩

/-- What has become of a node below it does not change whether the pass cares about it. -/
theorem answer_presented (f : Place → Verdict α) (site : Site κ α) :
    S.answer pass site.around (S.presented f site) = if S.isAsked pass site then
      Walk.ask (pass.visit (S.presented f site) site.around) .keep else pure .keep := by
  rw [answer, presented, kind_rewriteBelow]
  rfl

/-- The answers of a walk that has not failed are those of a conversation. -/
theorem Follows.conversation {xs : List (Site κ α)} {s : σ} {p : Progress σ ε}
    (h : S.Follows pass f xs ⟨s, none⟩ p) :
    (∀ site ∈ xs, ¬ S.isAsked pass site → f site.place = .keep) ∧
      S.Conversation pass f (xs.filter (S.isAsked pass)) s p := by
  induction xs generalizing s with
  | nil =>
    obtain rfl : _ = p := h
    exact ⟨List.forall_mem_nil _, .finished s⟩
  | cons site xs ih =>
    obtain ⟨p₁, hsite, hrest⟩ := h
    rw [answer_presented] at hsite
    by_cases hasked : S.isAsked pass site
    · rw [List.filter_cons_of_pos hasked]
      rw [if_pos hasked] at hsite
      cases hvisit : pass.visit (S.presented f site) site.around s with
      | mk result s' =>
        cases result with
        | ok v =>
          obtain ⟨hv, rfl⟩ := Prod.mk.inj ((ask_of_ok hvisit .keep).symm.trans hsite)
          obtain ⟨hothers, hvisits⟩ := ih hrest
          refine ⟨List.forall_mem_cons.mpr ⟨fun hnot => absurd hasked hnot, hothers⟩, ?_⟩
          exact .answered (hv ▸ hvisit) hvisits
        -- From a failure on nothing is asked, so the rest is kept.
        | error e =>
          obtain ⟨hkeep, rfl⟩ := Prod.mk.inj ((ask_of_error hvisit .keep).symm.trans hsite)
          obtain ⟨rfl, hafter⟩ := hrest.of_failed rfl
          refine ⟨List.forall_mem_cons.mpr ⟨fun _ => hkeep.symm, fun x hx _ => hafter x hx⟩, ?_⟩
          refine .failed hvisit (List.forall_mem_cons.mpr ⟨hkeep.symm, fun x hx => ?_⟩)
          exact hafter x (List.mem_filter.mp hx).1
    · rw [List.filter_cons_of_neg hasked]
      rw [if_neg hasked] at hsite
      obtain ⟨hkeep, rfl⟩ := Prod.mk.inj hsite
      obtain ⟨hothers, hvisits⟩ := ih hrest
      exact ⟨List.forall_mem_cons.mpr ⟨fun _ => hkeep.symm, hothers⟩, hvisits⟩

/-- Without a failure all nodes get their answers from the pass. -/
theorem Conversation.exists_visit {sites : List (Site κ α)} {s : σ} {p : Progress σ ε}
    (h : S.Conversation pass f sites s p) (hok : p.failure = none) :
    ∀ site ∈ sites, ∃ s s',
      pass.visit (S.presented f site) site.around s = (.ok (f site.place), s') := by
  induction h with
  | finished => exact List.forall_mem_nil _
  | failed => cases hok
  | answered h _ ih => exact List.forall_mem_cons.mpr ⟨⟨_, _, h⟩, ih hok⟩

/-- A walk comes to the tree that is rewritten from the leaves up by the answers of the pass. -/
theorem exists_rewrites (S : Shape ι κ α) (pass : Visitor ι κ α σ ε) (k : κ) (a : α) (s : σ) :
    ∃ f p, (S.walk pass k a).start s = ((f [], S.rewriteBelow f a), p) ∧
      S.Rewrites pass k a s f p := by
  obtain ⟨f, p, hrun, hfollows⟩ := explains S pass a k ⟨s, none⟩
  obtain ⟨hothers, hvisits⟩ := hfollows.conversation
  exact ⟨f, p, hrun, fun site => S.mem_sites, S.nodup_sites k a, S.pairwise_sites k a, hothers,
    hvisits⟩

end Shape

end KernelTree
