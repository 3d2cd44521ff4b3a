import HornResolution.Proofs.HeadForms
import HornResolution.Proofs.MostGeneral

/-!
# Solved equations

An acyclic substitution is a system of equations in solved form: whatever trees the unbound
variables are given, the bindings determine the trees of all others. In particular every
unbound variable can stand for itself, and an equation that holds then follows from the
bindings. Such equations are the ones that unification finds solved, which it answers by the
substitution it was given. So an equation that was solved once stays solved, however many
bindings are added later.
-/

namespace HornResolution

open Unification

section Congruence

variable {α : Type} {ρ ρ' : Var → Tree α}

theorem Term.eval_congr {t : Term} (h : ∀ v ∈ t.occurrences, ρ v = ρ' v) :
    t.eval ρ = t.eval ρ' := by
  induction t using Term.induction with
  | var v => exact h v (by simp)
  | app f args ih =>
    rw [Term.eval_app, Term.eval_app]
    congr 1
    apply List.map_congr_left
    intro t ht
    exact ih t ht fun v hv => h v (by simpa using ⟨t, ht, hv⟩)

theorem Expr.eval_congr {e : Expr} (h : ∀ v ∈ e.occurrences, ρ v = ρ' v) :
    e.eval ρ = e.eval ρ' := by
  cases e with
  | term t => exact Term.eval_congr h
  | atom a =>
    rw [Expr.eval, Expr.eval, Atom.eval, Atom.eval]
    congr 1
    apply List.map_congr_left
    intro t ht
    exact Term.eval_congr fun v hv => h v (List.mem_flatMap.mpr ⟨t, ht, hv⟩)

end Congruence

theorem satisfies_empty {α : Type} (ρ : Var → Tree α) : Satisfies ρ .empty := by
  intro v e h
  simp at h

theorem Substitution.ContainedIn.satisfies {α : Type} {ρ : Var → Tree α} {σ τ : Substitution}
    (h : σ.ContainedIn τ) (hτ : Satisfies ρ τ) : Satisfies ρ σ :=
  fun v e he => hτ v e (h v e he)

namespace Substitution

section Completion

variable {α : Type} {θ : Substitution} {base : Var → Tree α} {v : Var}

/-- The tree of a variable after following bindings for the given number of links, where the
variables met then have their trees from `base`. -/
def completeWithin (θ : Substitution) (base : Var → Tree α) : (links : ℕ) → Var → Tree α
  | 0, v => base v
  | links + 1, v =>
    match θ.get? v with
    | some e => e.eval (θ.completeWithin base links)
    | none => base v

/-- The valuation that gives unbound variables their trees from `base` and the others what the
bindings make of these. -/
def complete (θ : Substitution) (base : Var → Tree α) : Var → Tree α :=
  θ.completeWithin base θ.length

theorem completeWithin_of_free (h : θ.get? v = none) (links : ℕ) :
    θ.completeWithin base links v = base v := by
  cases links with
  | zero => rfl
  | succ links => rw [completeWithin, h]

theorem complete_of_free (h : θ.get? v = none) : θ.complete base v = base v :=
  completeWithin_of_free h _

theorem Acyclic.completeWithin_eq (hθ : θ.Acyclic) {m n : ℕ} (hm : θ.rank v ≤ m)
    (hn : θ.rank v ≤ n) : θ.completeWithin base m v = θ.completeWithin base n v := by
  induction v using hθ.wellFounded.induction generalizing m n with
  | h v ih =>
    cases he : θ.get? v with
    | none => rw [completeWithin_of_free he, completeWithin_of_free he]
    | some e =>
      have hpos := rank_pos he
      obtain ⟨m, rfl⟩ : ∃ k, m = k + 1 := ⟨m - 1, by omega⟩
      obtain ⟨n, rfl⟩ : ∃ k, n = k + 1 := ⟨n - 1, by omega⟩
      rw [completeWithin, completeWithin, he]
      apply Expr.eval_congr
      intro u hu
      have hrank := hθ.rank_lt ⟨e, he, hu⟩
      exact ih u ⟨e, he, hu⟩ (by omega) (by omega)

theorem Acyclic.satisfies_complete (hθ : θ.Acyclic) (base : Var → Tree α) :
    Satisfies (θ.complete base) θ := by
  intro v e he
  have hle := θ.rank_le_length v
  calc
    θ.complete base v = θ.completeWithin base (θ.length + 1) v :=
      hθ.completeWithin_eq hle (by omega)
    _ = e.eval (θ.complete base) := by rw [completeWithin, he]; rfl

end Completion

/-- The solution in which every unbound variable stands for itself. -/
def generic (θ : Substitution) : Var → Tree Var := θ.complete .leaf

theorem generic_of_free {θ : Substitution} {v : Var} (h : θ.get? v = none) :
    θ.generic v = .leaf v :=
  complete_of_free h

theorem Acyclic.satisfies_generic {θ : Substitution} (hθ : θ.Acyclic) :
    Satisfies θ.generic θ :=
  hθ.satisfies_complete .leaf

end Substitution

section Solved

variable {θ σ τ : Substitution} {a b : Expr} {v : Var}

theorem eq_var_of_eval_generic {e : Expr} (hfree : bound? θ e = none)
    (h : e.eval θ.generic = .leaf v) : e = .term (.var v) := by
  rcases e with (w | ⟨f, xs⟩) | p
  · rw [bound?_var] at hfree
    rw [Expr.eval, Term.eval_var, Substitution.generic_of_free hfree] at h
    rw [Tree.leaf.inj h]
  · simp [Expr.eval] at h
  · simp [Expr.eval, Atom.eval] at h

theorem bind_solved {e : Expr} (hv : θ.get? v = none) (hfree : bound? θ e = none)
    (h : θ.generic v = e.eval θ.generic) : Unification.bind v e θ = .ok θ := by
  rw [Substitution.generic_of_free hv] at h
  obtain rfl := eq_var_of_eval_generic hfree h.symm
  exact if_pos rfl

theorem pairwise_solved {pair : Term → Term → Substitution → Except Clash Substitution}
    {ρ : Var → Tree Var} {xs ys : List Term}
    (hpair : ∀ x y, x.eval ρ = y.eval ρ → pair x y θ ≠ .error .endless → pair x y θ = .ok θ)
    (h : xs.map (Term.eval ρ) = ys.map (Term.eval ρ))
    (hne : pairwise pair xs ys θ ≠ .error .endless) : pairwise pair xs ys θ = .ok θ := by
  induction xs generalizing ys with
  | nil => rfl
  | cons x xs ih =>
    cases ys with
    | nil => rfl
    | cons y ys =>
      obtain ⟨hxy, hrest⟩ := List.cons.inj h
      rw [pairwise] at hne ⊢
      have hfirst : pair x y θ = .ok θ := by
        apply hpair x y hxy
        intro hend
        rw [hend] at hne
        exact hne rfl
      rw [hfirst] at hne ⊢
      exact ih hrest hne

theorem applications_solved {pair : Term → Term → Substitution → Except Clash Substitution}
    {ρ : Var → Tree Var} {k : Kind} {f g : Symbol} {xs ys : List Term}
    (hpair : ∀ x y, x.eval ρ = y.eval ρ → pair x y θ ≠ .error .endless → pair x y θ = .ok θ)
    (h : Tree.node k f (xs.map (Term.eval ρ)) = Tree.node k g (ys.map (Term.eval ρ)))
    (hne : applications pair f xs g ys θ ≠ .error .endless) :
    applications pair f xs g ys θ = .ok θ := by
  obtain ⟨-, hfg, hargs⟩ := Tree.node.inj h
  have hlength : xs.length = ys.length := by simpa using congrArg List.length hargs
  have hpairs : applications pair f xs g ys θ = pairwise pair xs ys θ := by
    rw [applications, if_neg (not_not.mpr hfg), if_neg (not_not.mpr hlength)]
  rw [hpairs] at hne ⊢
  exact pairwise_solved hpair hargs hne

/-- A comparison of sides that stand for the same makes no binding: where it meets an unbound
variable, the other side is that variable. -/
theorem within_solved {depth : ℕ} (hθ : θ.Acyclic) (hab : a.eval θ.generic = b.eval θ.generic)
    (hne : within depth a b θ ≠ .error .endless) : within depth a b θ = .ok θ := by
  have hsatisfies := hθ.satisfies_generic
  -- No call changes the substitution, so one valuation serves them all.
  induction depth generalizing a b with
  | zero => simp [within] at hne
  | succ depth ih =>
    have hpair : ∀ x y : Term, x.eval θ.generic = y.eval θ.generic →
        within depth (.term x) (.term y) θ ≠ .error .endless →
        within depth (.term x) (.term y) θ = .ok θ := fun x y hxy hne => ih hxy hne
    cases situation θ a b with
    | boundLeft hv =>
      rw [within_boundLeft hv] at hne ⊢
      exact ih ((hsatisfies _ _ hv).symm.trans hab) hne
    | boundRight ha hv =>
      rw [within_boundRight ha hv] at hne ⊢
      exact ih (hab.trans (hsatisfies _ _ hv)) hne
    | freeLeft hv hb =>
      rw [within_freeLeft hv hb]
      exact bind_solved hv hb hab
    | freeRight ha hv =>
      rw [within_freeRight ha hv]
      exact bind_solved hv (bound?_of_asVar? θ ha) hab.symm
    | terms f xs g ys =>
      rw [within_terms] at hne ⊢
      rw [Expr.eval, Expr.eval, Term.eval_app, Term.eval_app] at hab
      exact applications_solved hpair hab hne
    | atoms p q =>
      rw [within_atoms] at hne ⊢
      exact applications_solved hpair hab hne
    | termAtom f xs q => simp [Expr.eval, Atom.eval] at hab
    | atomTerm p g ys => simp [Expr.eval, Atom.eval] at hab

/-- Unification adds nothing exactly if the equation follows from the bindings. -/
theorem unify_eq_self_iff (hθ : θ.Acyclic) :
    unify a b θ = .ok θ ↔ ∀ ρ : Var → Tree Var, Satisfies ρ θ → a.eval ρ = b.eval ρ := by
  constructor
  · intro h ρ hρ
    exact ((satisfies_unify h).mp hρ).2
  · intro h
    obtain ⟨depth, hdepth, hne⟩ := exists_unify_eq_within hθ a b
    rw [hdepth]
    exact within_solved hθ (h _ hθ.satisfies_generic) hne

/-- A solved equation stays solved. If two expressions were unified, under whatever
substitution, then under every acyclic substitution with all bindings of the result they are
unified again and no binding is added. -/
theorem unify_stays_solved (h : unify a b θ = .ok σ) (hτ : τ.Acyclic) (hστ : σ.ContainedIn τ) :
    unify a b τ = .ok τ := by
  rw [unify_eq_self_iff hτ]
  intro ρ hρ
  exact ((satisfies_unify h).mp (hστ.satisfies hρ)).2

/-- What `sampleBindings` becomes if its atom is unified with one that has a further variable in
it, in another order and with bindings of that variable to one that is bound to an atom. -/
def laterBindings : Substitution :=
  ((((Substitution.empty.add ⟨3⟩ (.term (.var ⟨4⟩))).add ⟨2⟩ (.atom ⟨⟨7⟩, [.var ⟨1⟩]⟩)).add
    ⟨4⟩ (.atom ⟨⟨8⟩, []⟩)).add ⟨1⟩ (.term (.app ⟨6⟩ [.var ⟨3⟩]))).add
    ⟨0⟩ (.term (.app ⟨5⟩ [.var ⟨1⟩]))

theorem unify_stays_solved_laterBindings :
    unify (.term (.var ⟨2⟩)) (.atom ⟨⟨7⟩, [.app ⟨6⟩ [.var ⟨3⟩]]⟩) sampleBindings =
        .ok (sampleBindings.add ⟨1⟩ (.term (.app ⟨6⟩ [.var ⟨3⟩]))) ∧
      unify (.term (.var ⟨2⟩)) (.atom ⟨⟨7⟩, [.app ⟨6⟩ [.var ⟨3⟩]]⟩) laterBindings =
        .ok laterBindings := by
  have hfirst : unify (.term (.var ⟨2⟩)) (.atom ⟨⟨7⟩, [.app ⟨6⟩ [.var ⟨3⟩]]⟩) sampleBindings =
      .ok (sampleBindings.add ⟨1⟩ (.term (.app ⟨6⟩ [.var ⟨3⟩]))) := by decide
  have hacyclic : laterBindings.Acyclic :=
    ((((Substitution.acyclic_empty.add (by decide)).add (by decide)).add (by decide)).add
      (by decide)).add (by decide)
  have hkept : ∀ b ∈ (sampleBindings.add ⟨1⟩ (.term (.app ⟨6⟩ [.var ⟨3⟩]))).bindings,
      laterBindings.get? b.1 = some b.2 := by decide
  exact ⟨hfirst, unify_stays_solved hfirst hacyclic fun v e h =>
    hkept (v, e) (Substitution.mem_bindings_of_get? h)⟩

end Solved

end HornResolution
