import HornResolution.Proofs.ComparisonBound

/-!
# Unification computes the most general solution

A result of unification is an answer about each single valuation: the bindings of
a success hold of it exactly if the bindings before and the equation do, and a
failure means that they do not hold of it together. No valuation appears in the
algorithm, so an answer about each is an answer about all.
-/

namespace HornResolution

namespace Unification

section Answers

variable {α : Type} {ρ : Var → Tree α} {θ σ : Substitution} {C D : Prop}
  {r : Except Clash Substitution}

/-- The result says whether a condition on the valuation can be added to the bindings. A
comparison that was cut off says nothing. -/
def Answers (ρ : Var → Tree α) (θ : Substitution) (C : Prop) :
    Except Clash Substitution → Prop
  | .ok σ => Satisfies ρ σ ↔ Satisfies ρ θ ∧ C
  | .error .endless => True
  | .error _ => ¬ (Satisfies ρ θ ∧ C)

theorem answers_error {e : Clash} (h : ¬ (Satisfies ρ θ ∧ C)) : Answers ρ θ C (.error e) := by
  cases e with
  | endless => trivial
  | _ => exact h

theorem Answers.not_of_error {e : Clash} (h : Answers ρ θ C (.error e)) (he : e ≠ .endless) :
    ¬ (Satisfies ρ θ ∧ C) := by
  cases e with
  | endless => exact absurd rfl he
  | _ => exact h

theorem Answers.congr (h : Answers ρ θ C r) (hCD : Satisfies ρ θ → (C ↔ D)) :
    Answers ρ θ D r := by
  have hiff : (Satisfies ρ θ ∧ C) ↔ (Satisfies ρ θ ∧ D) := and_congr_right hCD
  cases r with
  | ok σ => exact Iff.trans h hiff
  | error e =>
    cases e with
    | endless => trivial
    | _ => exact fun hD => h (hiff.mpr hD)

theorem Answers.and {τ : Substitution} (h : Answers ρ θ C (.ok τ)) (hr : Answers ρ τ D r) :
    Answers ρ θ (C ∧ D) r := by
  have hiff : (Satisfies ρ τ ∧ D) ↔ (Satisfies ρ θ ∧ C ∧ D) := by
    rw [← and_assoc]
    exact and_congr_left' h
  cases r with
  | ok σ => exact Iff.trans hr hiff
  | error e =>
    cases e with
    | endless => trivial
    | _ => exact fun hCD => hr (hiff.mpr hCD)

theorem Answers.and_of_error {e : Clash} (h : Answers ρ θ C (.error e)) :
    Answers ρ θ (C ∧ D) (.error e) := by
  cases e with
  | endless => trivial
  | _ => exact fun hCD => h ⟨hCD.1, hCD.2.1⟩

end Answers

section Comparison

variable {α : Type} {ρ : Var → Tree α} {θ : Substitution}

theorem size_le_of_leads (hρ : Satisfies ρ θ) {v w : Var}
    (h : Relation.ReflTransGen θ.Leads v w) : (ρ w).size ≤ (ρ v).size := by
  induction h with
  | refl => exact le_rfl
  | tail _ hlink ih =>
    obtain ⟨e, he, hw⟩ := hlink
    have hle := Expr.size_le_size_eval ρ hw
    rw [← hρ _ e he] at hle
    exact hle.trans ih

theorem eq_var_of_asVar? {e : Expr} {v : Var} (h : e.asVar? = some v) : e = .term (.var v) := by
  rcases e with (w | ⟨f, xs⟩) | p
  · obtain rfl : w = v := by simpa [Expr.asVar?, Term.asVar?] using h
    rfl
  · simp [Expr.asVar?, Term.asVar?] at h
  · simp [Expr.asVar?] at h

/-- An unbound variable leads nowhere, so the occurs check meets a variable only in an
expression that is more than an unbound variable. -/
theorem asVar?_of_occurs {e : Expr} {v u : Var} (hne : e.asVar? ≠ some v)
    (hfree : bound? θ e = none) (hu : u ∈ e.occurrences)
    (h : Relation.ReflTransGen θ.Leads u v) : e.asVar? = none := by
  cases hw : e.asVar? with
  | none => rfl
  | some w =>
    obtain rfl := eq_var_of_asVar? hw
    obtain rfl : u = w := by simpa [Expr.occurrences] using hu
    rcases h.cases_head with rfl | ⟨x, ⟨e, he, -⟩, -⟩
    · exact absurd hw hne
    · rw [bound?_var, he] at hfree
      simp at hfree

theorem bind_answers {e : Expr} {v : Var} (hv : θ.get? v = none) (hfree : bound? θ e = none) :
    Answers ρ θ (ρ v = e.eval ρ) (bind v e θ) := by
  unfold bind
  split_ifs with hself hocc
  · obtain rfl := eq_var_of_asVar? hself
    exact ⟨fun h => ⟨h, rfl⟩, fun h => h.1⟩
  · -- A tree cannot be a proper part of itself.
    rintro ⟨hρ, heq⟩
    obtain ⟨u, hu, hreach⟩ := List.any_eq_true.mp hocc
    have hpath := Substitution.leads_of_reaches hreach
    have hle := size_le_of_leads hρ hpath
    have hlt := Expr.size_lt_size_eval ρ (asVar?_of_occurs hself hfree hu hpath) hu
    rw [← heq] at hlt
    omega
  · exact satisfies_add hv e

theorem pairwise_answers {unifyPair : Term → Term → Substitution → Except Clash Substitution}
    (hpair : ∀ x y θ, Answers ρ θ (x.eval ρ = y.eval ρ) (unifyPair x y θ)) {xs ys : List Term}
    (hlen : xs.length = ys.length) :
    Answers ρ θ (xs.map (Term.eval ρ) = ys.map (Term.eval ρ)) (pairwise unifyPair xs ys θ) := by
  induction xs generalizing ys θ with
  | nil =>
    obtain rfl : ys = [] := List.length_eq_zero_iff.mp hlen.symm
    exact ⟨fun h => ⟨h, rfl⟩, fun h => h.1⟩
  | cons x xs ih =>
    cases ys with
    | nil => simp at hlen
    | cons y ys =>
      have hx := hpair x y θ
      simp only [pairwise, List.map_cons, List.cons.injEq]
      split
      · rename_i τ hτ
        rw [hτ] at hx
        exact hx.and (ih (by simpa using hlen))
      · rename_i e he
        rw [he] at hx
        exact hx.and_of_error

theorem applications_answers {unifyPair : Term → Term → Substitution → Except Clash Substitution}
    (hpair : ∀ x y θ, Answers ρ θ (x.eval ρ = y.eval ρ) (unifyPair x y θ)) (k : Kind)
    (f : Symbol) (xs : List Term) (g : Symbol) (ys : List Term) :
    Answers ρ θ (Tree.node k f (xs.map (Term.eval ρ)) = Tree.node k g (ys.map (Term.eval ρ)))
      (applications unifyPair f xs g ys θ) := by
  unfold applications
  split_ifs with hfg hlen
  · rintro ⟨-, heq⟩
    exact hfg (Tree.node.inj heq).2.1
  · rintro ⟨-, heq⟩
    apply hlen
    simpa using congrArg List.length (Tree.node.inj heq).2.2
  · apply (pairwise_answers hpair (by simpa using hlen)).congr
    intro _
    have : f = g := by simpa using hfg
    simp [this]

theorem within_answers (depth : ℕ) (a b : Expr) (θ : Substitution) :
    Answers ρ θ (a.eval ρ = b.eval ρ) (within depth a b θ) := by
  induction depth generalizing a b θ with
  | zero => trivial
  | succ depth ih =>
    have hpair : ∀ x y θ, Answers ρ θ (x.eval ρ = y.eval ρ)
        (within depth (.term x) (.term y) θ) := fun x y θ => ih (.term x) (.term y) θ
    cases situation θ a b with
    | boundLeft hv =>
      rw [within_boundLeft hv]
      apply (ih _ b θ).congr
      intro hρ
      rw [← hρ _ _ hv]
      rfl
    | boundRight ha hv =>
      rw [within_boundRight ha hv]
      apply (ih a _ θ).congr
      intro hρ
      rw [← hρ _ _ hv]
      rfl
    | freeLeft hv hb =>
      rw [within_freeLeft hv hb]
      exact bind_answers hv hb
    | freeRight ha hv =>
      rw [within_freeRight ha hv]
      exact (bind_answers hv (bound?_of_asVar? θ ha)).congr fun _ => eq_comm
    | terms f xs g ys =>
      rw [within_terms, Expr.eval, Expr.eval, Term.eval_app, Term.eval_app]
      exact applications_answers hpair .function f xs g ys
    | atoms p q =>
      rw [within_atoms]
      exact applications_answers hpair .predicate p.symbol p.args q.symbol q.args
    | termAtom f xs q =>
      rw [within_termAtom]
      exact answers_error fun h => by simp [Expr.eval, Atom.eval] at h
    | atomTerm p g ys =>
      rw [within_atomTerm]
      exact answers_error fun h => by simp [Expr.eval, Atom.eval] at h

theorem unify_answers (ρ : Var → Tree α) (a b : Expr) (θ : Substitution) :
    Answers ρ θ (a.eval ρ = b.eval ρ) (unify a b θ) := by
  obtain ⟨depth, hdepth⟩ := unify_eq_within a b θ
  rw [hdepth]
  exact within_answers depth a b θ

theorem satisfies_unify {a b : Expr} {σ : Substitution} (h : unify a b θ = .ok σ) :
    Satisfies ρ σ ↔ Satisfies ρ θ ∧ a.eval ρ = b.eval ρ := by
  have hanswer := unify_answers ρ a b θ
  rw [h] at hanswer
  exact hanswer

theorem exists_unify {a b : Expr} (hθ : θ.Acyclic) (hρ : Satisfies ρ θ)
    (hab : a.eval ρ = b.eval ρ) : ∃ σ, unify a b θ = .ok σ := by
  have hanswer := unify_answers ρ a b θ
  cases h : unify a b θ with
  | ok σ => exact ⟨σ, rfl⟩
  | error clash =>
    rw [h] at hanswer
    have hne : clash ≠ .endless := by
      rintro rfl
      exact unify_ne_endless hθ a b h
    exact absurd ⟨hρ, hab⟩ (hanswer.not_of_error hne)

end Comparison

section Terms

variable {p q : Atom} {θ σ : Substitution} {ρ : Var → Term}

theorem instantiates_unify (hθ : θ.TermValued) (h : unify (.atom p) (.atom q) θ = .ok σ) :
    Instantiates ρ σ ↔ Instantiates ρ θ ∧ p.bind ρ = q.bind ρ := by
  have hσ := unify_termValued hθ h
  rw [instantiates_iff hσ, instantiates_iff hθ, satisfies_unify h, ← Atom.eval_bind_inj]
  rfl

theorem exists_unify_of_instantiates (hacyclic : θ.Acyclic) (hρ : Instantiates ρ θ)
    (hpq : p.bind ρ = q.bind ρ) : ∃ σ, unify (.atom p) (.atom q) θ = .ok σ :=
  exists_unify hacyclic hρ.satisfies (Atom.eval_bind_inj.mpr hpq)

end Terms

end Unification

/-- Under an acyclic substitution, the bindings that unification returns hold of exactly
those valuations of which the bindings before hold and which make both sides equal; it
fails only if there are no such valuations. -/
theorem unify_most_general {α : Type} {θ : Substitution} (hθ : θ.Acyclic) (a b : Expr) :
    (∀ σ, unify a b θ = .ok σ → ∀ ρ : Var → Tree α,
      Satisfies ρ σ ↔ Satisfies ρ θ ∧ a.eval ρ = b.eval ρ) ∧
    (∀ clash, unify a b θ = .error clash → ∀ ρ : Var → Tree α,
      ¬ (Satisfies ρ θ ∧ a.eval ρ = b.eval ρ)) := by
  constructor
  · intro σ hσ ρ
    exact Unification.satisfies_unify hσ
  · rintro clash hclash ρ ⟨hρ, hab⟩
    obtain ⟨σ, hσ⟩ := Unification.exists_unify hθ hρ hab
    rw [hclash] at hσ
    simp at hσ

/-- One variable bound to a term and one to an atom, both with a further variable in them. -/
def sampleBindings : Substitution :=
  (Substitution.empty.add ⟨0⟩ (.term (.app ⟨5⟩ [.var ⟨1⟩]))).add ⟨2⟩ (.atom ⟨⟨7⟩, [.var ⟨1⟩]⟩)

theorem acyclic_sampleBindings : sampleBindings.Acyclic :=
  (Substitution.acyclic_empty.add (by decide)).add (by decide)

/-- A variable bound to an atom is unified with an atom, and a variable is not unified
with a term that leads back to it through a binding. -/
theorem unify_most_general_sampleBindings :
    (∀ ρ : Var → Tree Empty,
      Satisfies ρ (sampleBindings.add ⟨1⟩ (.term (.app ⟨6⟩ []))) ↔
        Satisfies ρ sampleBindings ∧
          (Expr.term (.var ⟨2⟩)).eval ρ = (Expr.atom ⟨⟨7⟩, [.app ⟨6⟩ []]⟩).eval ρ) ∧
    (∀ ρ : Var → Tree Empty,
      ¬ (Satisfies ρ sampleBindings ∧
          (Expr.term (.var ⟨1⟩)).eval ρ = (Expr.term (.app ⟨5⟩ [.var ⟨0⟩])).eval ρ)) :=
  ⟨(unify_most_general acyclic_sampleBindings (.term (.var ⟨2⟩))
      (.atom ⟨⟨7⟩, [.app ⟨6⟩ []]⟩)).1 _ (by decide),
    (unify_most_general acyclic_sampleBindings (.term (.var ⟨1⟩))
      (.term (.app ⟨5⟩ [.var ⟨0⟩]))).2 (.occurs ⟨1⟩ (.term (.app ⟨5⟩ [.var ⟨0⟩]))) (by decide)⟩

end HornResolution
