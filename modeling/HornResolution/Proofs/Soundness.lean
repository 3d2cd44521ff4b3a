import HornResolution.Proofs.Derivability
import HornResolution.Proofs.Histories
import HornResolution.Proofs.MostGeneral

/-!
# A search finds only what follows

Every solution of a search, read as a system of equations, makes the goal
derivable. This holds of every call in every history of a node: after errors,
after resets, and with whatever vocabulary and journal it is asked.
-/

namespace HornResolution

section Copies

variable {P : Program} {n : ℕ} {head : Atom} {body : Formula} {copy : Clause}

theorem Program.Copy.exists_rename (h : P.Copy n copy) :
    ∃ c ∈ P.clauses, ∃ r : Renaming, copy = c.rename r := by
  obtain ⟨i, c, V, V', hc, -, hcopy⟩ := h
  obtain ⟨-, r, hr, -⟩ := Clause.standardizeApart_ok hcopy
  exact ⟨c, Program.mem_of_get? hc, r, hr⟩

theorem Program.Copy.resolvable (h : P.Copy n copy) (hcopy : copy.isResolvable = true) :
    P.resolvable.Copy n copy := by
  obtain ⟨i, c, V, V', hc, hn, hV⟩ := h
  obtain ⟨-, r, rfl, -⟩ := Clause.standardizeApart_ok hV
  rw [Clause.isResolvable_rename] at hcopy
  obtain ⟨j, hj⟩ := Program.exists_get?_resolvable hc hcopy
  exact ⟨j, c, V, V', hj, hn, hV⟩

theorem Derivable.of_fact_copy (h : P.Copy n (.fact head)) (ρ : Var → Term) :
    Derivable P (.atom (head.bind ρ)) := by
  obtain ⟨c, hc, r, hr⟩ := h.exists_rename
  cases c with
  | fact a =>
    obtain rfl : head = a.rename r := Clause.fact.inj hr
    rw [Atom.bind_rename]
    exact .fact hc _
  | rule a f => simp [Clause.rename, Clause.mapTerms] at hr
  | goal f => simp [Clause.rename, Clause.mapTerms] at hr

theorem Derivable.of_rule_copy (h : P.Copy n (.rule head body)) {ρ : Var → Term}
    (hbody : Derivable P (body.bind ρ)) : Derivable P (.atom (head.bind ρ)) := by
  obtain ⟨c, hc, r, hr⟩ := h.exists_rename
  cases c with
  | rule a f =>
    obtain ⟨rfl, rfl⟩ : head = a.rename r ∧ body = f.rename r := Clause.rule.inj hr
    rw [Formula.bind_rename] at hbody
    rw [Atom.bind_rename]
    exact .rule hc _ hbody
  | fact a => simp [Clause.rename, Clause.mapTerms] at hr
  | goal f => simp [Clause.rename, Clause.mapTerms] at hr

end Copies

section Resolved

variable {P : Program} {n : ℕ} {f : Formula} {θ σ : Substitution}

theorem Resolves.keeps {I : Substitution → Prop} (hI : Unification.Invariant I fun _ _ => True)
    (h : Resolves P n f θ σ) (hθ : I θ) : I σ := by
  induction h with
  | fact _ hσ => exact hI.unify trivial hθ hσ
  | rule _ hτ _ ih => exact ih (hI.unify trivial hθ hτ)
  | single _ ih => exact ih hθ
  | conj _ _ ihf ihgs => exact ihgs (ihf hθ)

theorem Resolves.acyclic (h : Resolves P n f θ σ) (hθ : θ.Acyclic) : σ.Acyclic :=
  h.keeps Unification.invariant_acyclic hθ

theorem Resolves.termValued (h : Resolves P n f θ σ) (hθ : θ.TermValued) : σ.TermValued := by
  induction h with
  | fact _ hσ => exact Unification.unify_termValued hθ hσ
  | rule _ hτ _ ih => exact ih (Unification.unify_termValued hθ hτ)
  | single _ ih => exact ih hθ
  | conj _ _ ihf ihgs => exact ihgs (ihf hθ)

theorem Resolves.isResolvable (h : Resolves P n f θ σ) : f.isResolvable = true := by
  induction h with
  | fact _ _ => simp [Formula.isResolvable]
  | rule _ _ _ _ => simp [Formula.isResolvable]
  | single _ ih => exact (Formula.isResolvable_conj _).mpr ⟨by simp, by simpa using ih⟩
  | conj _ _ ihf ihgs =>
    obtain ⟨-, hgs⟩ := (Formula.isResolvable_conj _).mp ihgs
    exact (Formula.isResolvable_conj _).mpr ⟨by simp, List.forall_mem_cons.mpr ⟨ihf, hgs⟩⟩

theorem Resolves.resolvable (h : Resolves P n f θ σ) : Resolves P.resolvable n f θ σ := by
  induction h with
  | fact hcopy hσ => exact .fact (hcopy.resolvable rfl) hσ
  | rule hcopy hτ hbody ih => exact .rule (hcopy.resolvable hbody.isResolvable) hτ ih
  | single _ ih => exact .single ih
  | conj _ _ ihf ihgs => exact .conj ihf ihgs

/-- A solution keeps the equations of its parent and makes the goal derivable. -/
theorem Resolves.sound (h : Resolves P n f θ σ) (hθ : θ.TermValued) {ρ : Var → Term}
    (hρ : Instantiates ρ σ) : Instantiates ρ θ ∧ Derivable P (f.bind ρ) := by
  induction h with
  | fact hcopy hσ =>
    obtain ⟨hρθ, heq⟩ := (Unification.instantiates_unify hθ hσ).mp hρ
    rw [Formula.bind_atom, heq]
    exact ⟨hρθ, .of_fact_copy hcopy ρ⟩
  | rule hcopy hτ _ ih =>
    obtain ⟨hρτ, hbody⟩ := ih (Unification.unify_termValued hθ hτ) hρ
    obtain ⟨hρθ, heq⟩ := (Unification.instantiates_unify hθ hτ).mp hρτ
    rw [Formula.bind_atom, heq]
    exact ⟨hρθ, .of_rule_copy hcopy hbody⟩
  | single _ ih =>
    obtain ⟨hρθ, hf⟩ := ih hθ hρ
    refine ⟨hρθ, ?_⟩
    rw [Formula.bind_conj]
    exact .conj (by simp) (by simpa using hf)
  | conj hf _ ihf ihgs =>
    obtain ⟨hρτ, hgs⟩ := ihgs (hf.termValued hθ) hρ
    obtain ⟨hρθ, hf⟩ := ihf hθ hρτ
    rw [Formula.bind_conj] at hgs ⊢
    exact ⟨hρθ, hf.cons hgs⟩

end Resolved

theorem Formula.apply_eq_bind (θ : Substitution) (f : Formula) :
    f.apply θ = f.bind (θ.resolve θ.length) := rfl

/-- Soundness of the search. Whatever was done with the node before, under every valuation that
satisfies a solution the goal is derivable, in particular under the solution itself. No
disjunction, negation or empty conjunction has a part in it: there is none in the goal, and the
solution is one of the program without the bodies that have one. -/
theorem search_sound {P : Program} {goal : Formula} {V₀ V : Vocabulary} {u : Usage} {depth : ℕ}
    {J : Journal} {s : Step} {σ : Substitution} (hu : History P .regular goal V₀ u)
    (hstep : u.node.next P depth V J = some s) (hσ : s.outcome = .solution σ) :
    (∀ ρ, Instantiates ρ σ → Derivable P (goal.bind ρ)) ∧ Derivable P (goal.apply σ) ∧
      goal.isResolvable = true ∧ Resolves P.resolvable 0 goal u.parent σ := by
  obtain ⟨hacyclic, hterm⟩ := hu.parents
  have hsol : Resolves P 0 goal u.parent σ :=
    ((takes_of_next hstep).explores_node hu.explores).2 σ hσ
  have hderivable : ∀ ρ, Instantiates ρ σ → Derivable P (goal.bind ρ) := by
    intro ρ hρ
    exact (hsol.sound hterm hρ).2
  refine ⟨hderivable, ?_, hsol.isResolvable, hsol.resolvable⟩
  have hself : Instantiates (σ.resolve σ.length) σ :=
    (hsol.acyclic hacyclic).instantiates_resolve (hsol.termValued hterm)
  rw [Formula.apply_eq_bind]
  exact hderivable _ hself

/-- A rule whose body cannot be resolved, a rule whose body is a conjunction, and a fact. -/
def sampleProgram : Program := .ofList
  [.rule ⟨⟨0⟩, [.var ⟨0⟩]⟩ (.disj []),
    .rule ⟨⟨0⟩, [.var ⟨0⟩]⟩ (.conj [.atom ⟨⟨1⟩, [.var ⟨0⟩]⟩, .atom ⟨⟨1⟩, [.var ⟨1⟩]⟩]),
    .fact ⟨⟨1⟩, [.const ⟨2⟩]⟩]

def sampleGoal : Formula := .atom ⟨⟨0⟩, [.var ⟨1⟩]⟩

/-- The first call on the goal, which meets the body that cannot be resolved. -/
def sampleError : Step :=
  ((Node.ready ⟨⟨0⟩, [.var ⟨1⟩]⟩ 0 .empty).next sampleProgram 10
    { varNames := #[⟨3⟩, ⟨4⟩] } .closed).get (by decide)

/-- The call after an error finds a solution, and what it says is derivable. -/
theorem search_sound_sampleError :
    sampleError.outcome = .failed (.unresolvable .disjunction) ∧
      Derivable sampleProgram (.atom ⟨⟨0⟩, [.const ⟨2⟩]⟩) := by
  have hstart : History sampleProgram .regular sampleGoal { varNames := #[⟨3⟩, ⟨4⟩] }
      (.fresh .empty (.ready ⟨⟨0⟩, [.var ⟨1⟩]⟩ 0 .empty) { varNames := #[⟨3⟩, ⟨4⟩] }) :=
    .start ⟨Substitution.acyclic_empty, by simp [Substitution.TermValued]⟩ rfl
  have hfirst : (Node.ready ⟨⟨0⟩, [.var ⟨1⟩]⟩ 0 .empty).next sampleProgram 10
      { varNames := #[⟨3⟩, ⟨4⟩] } .closed = some sampleError := (Option.some_get _).symm
  have hnext : sampleError.node.next sampleProgram 10 sampleError.vocabulary .closed = some _ := rfl
  exact ⟨by decide, (search_sound (hstart.ask hfirst) hnext rfl).2.1⟩

end HornResolution
