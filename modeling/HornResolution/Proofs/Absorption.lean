import HornResolution.Proofs.Unifiers

/-!
# Applying bindings once is enough

Applying a substitution follows each chain of bindings to its end at once. What is left has no
variable that a term could take the place of: each is unbound, or it stands inside a term and is
bound to an atom, for which there is no room. A second application therefore changes nothing, and
neither does it matter whether some of the bindings were applied before. The five kinds of
expressions differ in one point only: as a whole expression, a bare variable is replaced by an atom
too.
-/

namespace HornResolution

open Unification

section Occurrences

variable {ρ : Var → Term} {v : Var}

theorem Expr.mem_occurrences_bind {e : Expr} :
    v ∈ (e.bind ρ).occurrences ↔ ∃ u ∈ e.occurrences, v ∈ (ρ u).occurrences := by
  cases e with
  | term t => exact Term.mem_occurrences_bind
  | atom a => exact Atom.mem_occurrences_bind

theorem Formula.mem_occurrences_bind {f : Formula} :
    v ∈ (f.bind ρ).occurrences ↔ ∃ u ∈ f.occurrences, v ∈ (ρ u).occurrences := by
  simp only [Formula.occurrences, atoms_bind, List.flatMap_map, List.mem_flatMap,
    Atom.mem_occurrences_bind]
  constructor
  · rintro ⟨a, ha, u, hu, hv⟩
    exact ⟨u, ⟨a, ha, hu⟩, hv⟩
  · rintro ⟨u, ⟨a, ha, hu⟩, hv⟩
    exact ⟨a, ha, u, hu, hv⟩

theorem Clause.mem_occurrences_bind {c : Clause} :
    v ∈ (c.bind ρ).occurrences ↔ ∃ u ∈ c.occurrences, v ∈ (ρ u).occurrences := by
  cases c with
  | fact a => exact Atom.mem_occurrences_bind
  | rule a f =>
    simp only [bind_rule, occurrences, List.mem_append, Atom.mem_occurrences_bind,
      Formula.mem_occurrences_bind, or_and_right, exists_or]
  | goal f => exact Formula.mem_occurrences_bind

theorem Expr.asVar?_bind_eq_none {e : Expr} (ρ : Var → Term) (h : e.asVar? = none) :
    (e.bind ρ).asVar? = none := by
  rcases e with (v | ⟨f, xs⟩) | p
  · simp [Expr.asVar?, Term.asVar?] at h
  · simp [Expr.bind, Expr.mapTerms, Expr.asVar?, Term.asVar?]
  · rfl

end Occurrences

namespace Substitution

variable {θ σ : Substitution} {v w : Var} {e : Expr}

theorem ContainedIn.refl (θ : Substitution) : θ.ContainedIn θ := fun _ _ => id

/-- No term takes the place of the variable: it is unbound, or it is bound to an atom. -/
def Keeps (σ : Substitution) (v : Var) : Prop :=
  σ.get? v = none ∨ ∃ a, σ.get? v = some (.atom a)

section Resolving

theorem Acyclic.keeps_of_mem_resolved (hσ : σ.Acyclic) (h : w ∈ (σ.resolved v).occurrences) :
    σ.Keeps w := by
  induction v using hσ.wellFounded.induction with
  | h v ih =>
    rcases hv : σ.get? v with - | (t | a)
    · rw [resolved_of_free hv, Term.occurrences_var, List.mem_singleton] at h
      exact Or.inl (h ▸ hv)
    · rw [hσ.resolved_of_term hv, Term.mem_occurrences_bind] at h
      obtain ⟨u, hu, hw⟩ := h
      exact ih u ⟨_, hv, hu⟩ hw
    · rw [resolved_of_atom hv, Term.occurrences_var, List.mem_singleton] at h
      exact Or.inr ⟨a, h ▸ hv⟩

/-- To resolve a variable by some of the bindings first does not change what all of them make of
it. -/
theorem Acyclic.resolved_absorbs (hσ : σ.Acyclic) (h : θ.ContainedIn σ) (v : Var) :
    (θ.resolved v).bind σ.resolved = σ.resolved v := by
  have hθ : θ.Acyclic := h.acyclic hσ
  induction v using hσ.wellFounded.induction with
  | h v ih =>
    rcases hv : θ.get? v with - | (t | a)
    · rw [resolved_of_free hv, Term.bind_var]
    · rw [hθ.resolved_of_term hv, hσ.resolved_of_term (h v _ hv), Term.bind_bind]
      apply Term.bind_congr
      intro u hu
      exact ih u ⟨_, h v _ hv, hu⟩
    · rw [resolved_of_atom hv, Term.bind_var]

end Resolving

section Applying

theorem Acyclic.apply_of_bound (hσ : σ.Acyclic) (hv : σ.get? v = some e) :
    (Expr.term (.var v)).apply σ = e.apply σ := by
  rw [Expr.apply_eq_bind, Expr.apply_eq_bind, hσ.walk_of_bound hv]

theorem apply_of_free (he : bound? σ e = none) : e.apply σ = e.bind σ.resolved := by
  rw [Expr.apply_eq_bind, walk_of_free he]

/-- To expressions of one kind it makes no difference whether the first substitution was applied
before the second, and the second leaves only variables that it keeps. -/
structure Absorbs {α : Type} (apply : Substitution → α → α) (occurrences : α → List Var)
    (θ σ : Substitution) : Prop where
  unchanged : ∀ x, apply σ (apply θ x) = apply σ x
  kept : ∀ x, ∀ v ∈ occurrences (apply σ x), σ.Keeps v

theorem Acyclic.absorbs_of_bind {α : Type} {bind : (Var → Term) → α → α}
    {occurrences : α → List Var} (hσ : σ.Acyclic) (h : θ.ContainedIn σ)
    (hbind : ∀ ρ τ x, bind τ (bind ρ x) = bind (fun v => (ρ v).bind τ) x)
    (hmem : ∀ ρ x v, v ∈ occurrences (bind ρ x) ↔
      ∃ u ∈ occurrences x, v ∈ (ρ u).occurrences) :
    Absorbs (fun σ => bind σ.resolved) occurrences θ σ where
  unchanged x := by
    rw [hbind, funext (hσ.resolved_absorbs h)]
  kept x v hv := by
    obtain ⟨u, -, hv⟩ := (hmem _ x v).mp hv
    exact hσ.keeps_of_mem_resolved hv

theorem Acyclic.absorbs_expr (hσ : σ.Acyclic) (h : θ.ContainedIn σ) :
    Absorbs Expr.apply Expr.occurrences θ σ where
  unchanged e := by
    have hθ : θ.Acyclic := h.acyclic hσ
    induction e using hθ.chainInduction with
    | free e he =>
      rw [apply_of_free he]
      cases hvar : e.asVar? with
      | some v =>
        obtain rfl := eq_var_of_asVar? hvar
        rw [bound?_var] at he
        rw [Expr.bind, Expr.mapTerms, Term.bind_var, resolved_of_free he]
      | none =>
        have hinside := Expr.asVar?_bind_eq_none θ.resolved hvar
        rw [apply_of_free (bound?_of_asVar? σ hvar), apply_of_free (bound?_of_asVar? σ hinside),
          Expr.bind_bind, funext (hσ.resolved_absorbs h)]
    | bound v e hv ih => rw [hθ.apply_of_bound hv, hσ.apply_of_bound (h v e hv), ih]
  kept e v hv := by
    rw [Expr.apply_eq_bind] at hv
    obtain ⟨u, -, hv⟩ := Expr.mem_occurrences_bind.mp hv
    exact hσ.keeps_of_mem_resolved hv

end Applying

end Substitution

open Substitution

/-- Applying an acyclic substitution reaches a fixpoint and absorbs what was applied before. For
terms, atoms, formulas, clauses and expressions alike, applying some of its bindings first, or all
of them, does not change the result, and the variables of the result are unbound or bound to
atoms. -/
theorem apply_absorbs {θ σ : Substitution} (hσ : σ.Acyclic) (h : θ.ContainedIn σ) :
    Absorbs Term.apply Term.occurrences θ σ ∧ Absorbs Atom.apply Atom.occurrences θ σ ∧
      Absorbs Formula.apply Formula.occurrences θ σ ∧
      Absorbs Clause.apply Clause.occurrences θ σ ∧ Absorbs Expr.apply Expr.occurrences θ σ :=
  ⟨hσ.absorbs_of_bind h Term.bind_bind fun _ _ _ => Term.mem_occurrences_bind,
    hσ.absorbs_of_bind h Atom.bind_bind fun _ _ _ => Atom.mem_occurrences_bind,
    hσ.absorbs_of_bind h Formula.bind_bind fun _ _ _ => Formula.mem_occurrences_bind,
    hσ.absorbs_of_bind h Clause.bind_bind fun _ _ _ => Clause.mem_occurrences_bind,
    hσ.absorbs_expr h⟩

/-- `sampleBindings` after its free variable was bound, through a chain that ends at an atom. -/
def closedBindings : Substitution :=
  ((sampleBindings.add ⟨1⟩ (.term (.app ⟨6⟩ [.var ⟨3⟩]))).add ⟨3⟩ (.term (.var ⟨4⟩))).add ⟨4⟩
    (.atom ⟨⟨8⟩, []⟩)

theorem acyclic_closedBindings : closedBindings.Acyclic :=
  ((acyclic_sampleBindings.add (by decide)).add (by decide)).add (by decide)

theorem sampleBindings_containedIn : sampleBindings.ContainedIn closedBindings := by
  intro v e h
  have hfirst := sampleBindings.containedIn_add ⟨1⟩ (.term (.app ⟨6⟩ [.var ⟨3⟩])) v e h
  exact containedIn_add _ _ _ v e (containedIn_add _ _ _ v e hfirst)

/-- The variable that is left inside the term is bound to an atom, which replaces the same variable
where it stands alone. -/
theorem apply_absorbs_closedBindings :
    ((Expr.term (.var ⟨2⟩)).apply sampleBindings).apply closedBindings =
        .atom ⟨⟨7⟩, [.app ⟨6⟩ [.var ⟨4⟩]]⟩ ∧
      ((Expr.term (.var ⟨3⟩)).apply sampleBindings).apply closedBindings = .atom ⟨⟨8⟩, []⟩ ∧
      ((Term.var ⟨0⟩).apply closedBindings).apply closedBindings =
        .app ⟨5⟩ [.app ⟨6⟩ [.var ⟨4⟩]] ∧
      closedBindings.Keeps ⟨4⟩ := by
  obtain ⟨-, -, -, -, hexpr⟩ := apply_absorbs acyclic_closedBindings sampleBindings_containedIn
  obtain ⟨hterm, -⟩ := apply_absorbs acyclic_closedBindings (.refl closedBindings)
  refine ⟨?_, ?_, ?_, ?_⟩
  · rw [hexpr.unchanged]
    decide
  · rw [hexpr.unchanged]
    decide
  · rw [hterm.unchanged]
    decide
  · exact hterm.kept (.var ⟨0⟩) ⟨4⟩ (by decide)

end HornResolution
