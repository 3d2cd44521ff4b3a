import HornResolution.Proofs.Soundness

/-!
# A solution only adds to its parent

A search hands substitutions down to bodies and remaining operands and takes solutions back, and
the same parent serves many branches. No branch changes what it was given: every solution has
the bindings of the parent of its node, in their order, and after them those that were made on
the way. What can be bound on the way are the variables of the goal, those that the values of
the parent mention, and those of the copies of rules, which are allocated later than the parent
was given.
-/

namespace HornResolution

/-- The second substitution has the bindings of the first and then others. These bind variables
that the first leaves unbound, and they and the variables of their values have a property. -/
def Substitution.ExtendsTo (p : Var → Prop) (θ σ : Substitution) : Prop :=
  ∃ added, σ.bindings = θ.bindings ++ added ∧
    ∀ b ∈ added, θ.get? b.1 = none ∧ p b.1 ∧ ∀ w ∈ b.2.occurrences, p w

namespace Substitution

variable {p : Var → Prop} {θ σ : Substitution} {v : Var} {e : Expr}

theorem ExtendsTo.refl (p : Var → Prop) (θ : Substitution) : θ.ExtendsTo p θ :=
  ⟨[], by simp⟩

theorem ExtendsTo.get?_eq_none (h : θ.ExtendsTo p σ) (hv : σ.get? v = none) : θ.get? v = none := by
  obtain ⟨added, hadded, -⟩ := h
  rw [get?, hadded, List.lookup_append] at hv
  exact (Option.or_eq_none_iff.mp hv).1

theorem ExtendsTo.value (h : θ.ExtendsTo p σ)
    (hθ : ∀ b ∈ θ.bindings, ∀ w ∈ b.2.occurrences, p w) (hv : σ.get? v = some e) :
    ∀ w ∈ e.occurrences, p w := by
  obtain ⟨added, hadded, hnew⟩ := h
  have hmem : (v, e) ∈ θ.bindings ++ added := hadded ▸ mem_bindings_of_get? hv
  rcases List.mem_append.mp hmem with hold | hmem
  · exact hθ _ hold
  · exact (hnew _ hmem).2.2

theorem ExtendsTo.add (h : θ.ExtendsTo p σ) (hfree : σ.get? v = none) (hv : p v)
    (he : ∀ w ∈ e.occurrences, p w) : θ.ExtendsTo p (σ.add v e) := by
  have hθ := h.get?_eq_none hfree
  obtain ⟨added, hadded, hnew⟩ := h
  refine ⟨added ++ [(v, e)], ?_, ?_⟩
  · rw [bindings_add hfree, hadded, List.append_assoc]
  · intro b hb
    rcases List.mem_append.mp hb with hb | hb
    · exact hnew b hb
    · obtain rfl := List.mem_singleton.mp hb
      exact ⟨hθ, hv, he⟩

end Substitution

/-- A comparison of expressions over variables with a property makes bindings of such variables,
and of unbound ones. -/
theorem Unification.invariant_extendsTo {p : Var → Prop} {θ : Substitution}
    (hθ : ∀ b ∈ θ.bindings, ∀ w ∈ b.2.occurrences, p w) :
    Unification.Invariant (θ.ExtendsTo p)
      fun a b => (∀ v ∈ a.occurrences, p v) ∧ ∀ v ∈ b.occurrences, p v where
  boundLeft hσ hab hv := ⟨hσ.value hθ hv, hab.2⟩
  boundRight hσ hab hv := ⟨hab.1, hσ.value hθ hv⟩
  terms := (invariant_occurrences p).terms
  atoms := (invariant_occurrences p).atoms
  addLeft hσ hab hv _ := hσ.add hv (hab.1 _ (by simp [Expr.occurrences])) hab.2
  addRight hσ hab hv _ := hσ.add hv (hab.2 _ (by simp [Expr.occurrences])) hab.1

section Resolution

variable {P : Program} {n : ℕ} {goal : Formula} {θ σ : Substitution}

theorem Program.Copy.le_of_mem {copy : Clause} (h : P.Copy n copy) {w : Var}
    (hw : w ∈ copy.occurrences) : n ≤ w.id := by
  obtain ⟨i, rule, V, V', -, hn, hcopy⟩ := h
  exact hn.trans (Clause.le_of_mem_copy hcopy hw)

/-- What can be bound on the way to a solution: the variables of the goal, those of the values
of the parent, and those that are numbered from `n` on. -/
def InReach (goal : Formula) (θ : Substitution) (n : ℕ) (v : Var) : Prop :=
  v ∈ goal.occurrences ∨ (∃ b ∈ θ.bindings, v ∈ b.2.occurrences) ∨ n ≤ v.id

theorem Resolves.extendsTo {p : Var → Prop} {f : Formula} {τ : Substitution}
    (h : Resolves P n f τ σ) (hθ : ∀ b ∈ θ.bindings, ∀ w ∈ b.2.occurrences, p w)
    (hnew : ∀ v : Var, n ≤ v.id → p v) (hf : ∀ v ∈ f.occurrences, p v) (hτ : θ.ExtendsTo p τ) :
    θ.ExtendsTo p σ := by
  induction h with
  | @fact goal head τ σ hcopy hσ =>
    rw [Formula.occurrences_atom] at hf
    exact (Unification.invariant_extendsTo hθ).unify (a := .atom goal) (b := .atom head)
      ⟨hf, fun v hv => hnew v (hcopy.le_of_mem hv)⟩ hτ hσ
  | @rule goal head body τ υ σ hcopy hυ _ ih =>
    rw [Formula.occurrences_atom] at hf
    have hhead : ∀ v ∈ head.occurrences, p v :=
      fun v hv => hnew v (hcopy.le_of_mem (List.mem_append_left _ hv))
    have hbody : ∀ v ∈ body.occurrences, p v :=
      fun v hv => hnew v (hcopy.le_of_mem (List.mem_append_right _ hv))
    exact ih hbody ((Unification.invariant_extendsTo hθ).unify (a := .atom goal) (b := .atom head)
      ⟨hf, hhead⟩ hτ hυ)
  | single _ ih =>
    exact ih (fun v hv => hf v (Formula.mem_occurrences_conj.mpr ⟨_, by simp, hv⟩)) hτ
  | @conj f g gs τ υ σ _ _ ihf ihgs =>
    have hfirst : ∀ v ∈ f.occurrences, p v :=
      fun v hv => hf v (Formula.mem_occurrences_conj.mpr ⟨f, by simp, hv⟩)
    refine ihgs (fun v hv => ?_) (ihf hfirst hτ)
    obtain ⟨f', hf', hv⟩ := Formula.mem_occurrences_conj.mp hv
    exact hf v (Formula.mem_occurrences_conj.mpr ⟨f', List.mem_cons_of_mem f hf', hv⟩)

theorem Resolves.extendsTo_inReach (h : Resolves P n goal θ σ) :
    θ.ExtendsTo (InReach goal θ n) σ :=
  h.extendsTo (fun b hb _ hw => Or.inr (Or.inl ⟨b, hb, hw⟩)) (fun _ hv => Or.inr (Or.inr hv))
    (fun _ hv => Or.inl hv) (.refl _ θ)

end Resolution

section Histories

variable {P : Program} {goal : Formula} {V₀ : Vocabulary} {u : Usage} {σ : Substitution}

/-- In every history the node resolves the goal under its latest parent by copies that are
younger than the parent. -/
theorem History.explores_since (h : History P .allocating goal V₀ u)
    (hgoal : V₀.Allocated goal.occurrences) :
    u.node.Explores P u.since.varCount goal u.parent ∧
      u.since.varCount ≤ u.vocabulary.varCount ∧ u.vocabulary.Allocated u.node.occurrences := by
  refine h.invariant (fun u => u.node.Explores P u.since.varCount goal u.parent ∧
    u.since.varCount ≤ u.vocabulary.varCount ∧ u.vocabulary.Allocated u.node.occurrences) ?_ ?_
  · intro θ node hθ h
    exact ⟨Node.explores_start h, le_rfl, Node.allocated_start h hgoal hθ⟩
  · rintro deed u u' hdoes ⟨hexplores, hle, hallocated⟩
    cases hdoes with
    | ask hs =>
      have htakes := takes_of_next hs
      exact ⟨(htakes.explores (.node hexplores) hle).1, hle.trans htakes.varCount_le,
        (Vocabulary.allocated_append.mp (htakes.allocated hallocated)).1⟩
    | give hθ =>
      exact ⟨Node.explores_start (hexplores.start_eq_reset _), le_rfl,
        Node.allocated_reset hallocated hθ⟩
    | wait hV => exact ⟨hexplores, hle.trans hV, hallocated.mono hV⟩

/-- A solution only adds to its parent. Whatever was done with the node before, every solution
that it returns begins with the bindings of its latest parent, unchanged and in order. Each
further binding is of a variable that the parent leaves unbound and that occurs in the goal, or
in a value of the parent, or was allocated since the node was given that parent. If the parent
binds variables to terms only, so does the solution. -/
theorem solution_adds_to_parent (hgoal : V₀.Allocated goal.occurrences)
    (hu : History P .allocating goal V₀ u) {depth : ℕ} {J : Journal} {s : Step}
    (hstep : u.node.next P depth u.vocabulary J = some s) (hσ : s.outcome = .solution σ) :
    (∃ added, σ.bindings = u.parent.bindings ++ added ∧
      ∀ b ∈ added, u.parent.isBound b.1 = false ∧
        (b.1 ∈ goal.occurrences ∨ (∃ b' ∈ u.parent.bindings, b.1 ∈ b'.2.occurrences) ∨
          u.since.knowsVar b.1 = false ∧ s.vocabulary.knowsVar b.1 = true)) ∧
      (u.parent.TermValued → σ.TermValued) := by
  obtain ⟨hexplores, hle, hallocated⟩ := hu.explores_since hgoal
  have htakes := takes_of_next hstep
  have hresolves := (htakes.explores (.node hexplores) hle).2 σ hσ
  have hknown := Step.allocated_solution (htakes.allocated hallocated) hσ
  obtain ⟨added, hadded, hnew⟩ := hresolves.extendsTo_inReach
  refine ⟨⟨added, hadded, fun b hb => ?_⟩, hresolves.termValued⟩
  obtain ⟨hfree, hreach, -⟩ := hnew b hb
  have hb : b.1 ∈ σ.occurrences :=
    List.mem_flatMap.mpr ⟨b, hadded ▸ List.mem_append_right _ hb, by simp⟩
  refine ⟨by simp [Substitution.isBound, hfree], ?_⟩
  rcases hreach with hgoal | hvalue | hage
  · exact Or.inl hgoal
  · exact Or.inr (Or.inl hvalue)
  · exact Or.inr (Or.inr ⟨decide_eq_false (Nat.not_lt.mpr hage), hknown b.1 hb⟩)

end Histories

/-- A rule with two atoms in its body and a fact for both. -/
def resumedRules : Program := .ofList
  [.rule ⟨⟨0⟩, [.var ⟨0⟩, .var ⟨1⟩]⟩ (.conj [.atom ⟨⟨1⟩, [.var ⟨0⟩]⟩, .atom ⟨⟨1⟩, [.var ⟨1⟩]⟩]),
    .fact ⟨⟨1⟩, [.app ⟨2⟩ [.const ⟨3⟩]]⟩]

def resumedAtom : Atom := ⟨⟨0⟩, [.var ⟨0⟩, .var ⟨1⟩]⟩

def laterParent : Substitution where
  bindings := [(⟨1⟩, .term (.app ⟨2⟩ [.var ⟨2⟩]))]

def beforeReset : Step :=
  ((Node.ready resumedAtom 0 .empty).next resumedRules 20 { varNames := .replicate 3 ⟨4⟩ }
    .closed).get (by decide)

def afterReset : Step :=
  ((beforeReset.node.reset laterParent).next resumedRules 20 beforeReset.vocabulary
    .closed).get (by decide)

/-- It binds a variable of the goal, one of the value in the parent and two of a copy. -/
def laterSolution : Substitution where
  bindings := [(⟨1⟩, .term (.app ⟨2⟩ [.var ⟨2⟩])), (⟨0⟩, .term (.var ⟨9⟩)),
    (⟨10⟩, .term (.app ⟨2⟩ [.var ⟨2⟩])), (⟨9⟩, .term (.app ⟨2⟩ [.const ⟨3⟩])),
    (⟨2⟩, .term (.const ⟨3⟩))]

theorem solution_adds_to_parent_laterParent :
    afterReset.outcome = .solution laterSolution ∧
      ∃ added, laterSolution.bindings = laterParent.bindings ++ added ∧
        ∀ b ∈ added, laterParent.isBound b.1 = false ∧
          (b.1 ∈ (Formula.atom resumedAtom).occurrences ∨
            (∃ b' ∈ laterParent.bindings, b.1 ∈ b'.2.occurrences) ∨
            beforeReset.vocabulary.knowsVar b.1 = false ∧
              afterReset.vocabulary.knowsVar b.1 = true) := by
  have hstart : History resumedRules .allocating (.atom resumedAtom)
      { varNames := .replicate 3 ⟨4⟩ }
      (.fresh .empty (.ready resumedAtom 0 .empty) { varNames := .replicate 3 ⟨4⟩ }) :=
    .start (show Vocabulary.Allocated _ _ by decide) rfl
  have hfirst : (Node.ready resumedAtom 0 .empty).next resumedRules 20
      { varNames := .replicate 3 ⟨4⟩ } .closed = some beforeReset := (Option.some_get _).symm
  have hparent : beforeReset.vocabulary.Allocated laterParent.occurrences := by decide
  have hreset : History resumedRules .allocating (.atom resumedAtom)
      { varNames := .replicate 3 ⟨4⟩ }
      (.fresh laterParent (beforeReset.node.reset laterParent) beforeReset.vocabulary) :=
    (hstart.ask hfirst).does (.give hparent)
  have houtcome : afterReset.outcome = .solution laterSolution := by decide
  have hlater := solution_adds_to_parent (by decide) hreset (Option.some_get _).symm houtcome
  exact ⟨houtcome, hlater.1⟩

end HornResolution
