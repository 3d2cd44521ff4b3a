import HornResolution.Proofs.OccursCheck

/-!
# Where chains end

Three recursions follow the bindings of a bare variable. Walking does nothing else. Applying has
one rule for bound variables that are the whole expression and others for what is found behind
them. Unifying follows its left side, then its right side, and only then compares the two. All
three stop at the head form of the expression, which is an unbound variable, a function term or an
atom: below it applying changes arguments only, and unification never looks at what was in front
of it, not even in its errors.

The recursions are taken as they are, without bounds. Under an acyclic substitution a derivation
comes to the result that the library computes and to no other, so that what is said of the
functions is said of every run of the recursions.
-/

namespace HornResolution

open Substitution Unification

section HeadShapes

/-- What stands outermost in an expression: a bare variable, or a symbol of either kind with the
number of its arguments. -/
inductive HeadShape where
  | var (v : Var)
  | symbol (kind : Kind) (f : Symbol) (arity : Nat)
deriving DecidableEq

def Expr.headShape : Expr → HeadShape
  | .term (.var v) => .var v
  | .term (.app f args) => .symbol .function f args.length
  | .atom a => .symbol .predicate a.symbol a.arity

variable {θ : Substitution} {e : Expr}

theorem Expr.headShape_bind (ρ : Var → Term) (h : e.asVar? = none) :
    (e.bind ρ).headShape = e.headShape := by
  rcases e with (v | ⟨f, args⟩) | a
  · simp [Expr.asVar?, Term.asVar?] at h
  · simp [Expr.bind, Expr.mapTerms, Expr.headShape]
  · simp [Expr.bind, Expr.mapTerms, Expr.headShape, Atom.mapTerms, Atom.arity]

theorem Substitution.Acyclic.walk_asVar? (hθ : θ.Acyclic) (e : Expr) :
    (θ.walk e).asVar? = none ∨ ∃ v, θ.walk e = .term (.var v) ∧ θ.get? v = none := by
  have hfree := hθ.bound?_walk e
  cases hvar : (θ.walk e).asVar? with
  | none => exact Or.inl rfl
  | some v =>
    have hwalk := eq_var_of_asVar? hvar
    rw [hwalk, bound?_var] at hfree
    exact Or.inr ⟨v, hwalk, hfree⟩

theorem Substitution.Acyclic.apply_walk (hθ : θ.Acyclic) (e : Expr) :
    (θ.walk e).apply θ = e.apply θ := by
  rw [apply_of_free (hθ.bound?_walk e), Expr.apply_eq_bind]

theorem Substitution.bind_resolved_of_free {v : Var} (hv : θ.get? v = none) :
    (Expr.term (.var v)).bind θ.resolved = .term (.var v) := by
  rw [Expr.bind, Expr.mapTerms, Term.bind_var, resolved_of_free hv]

theorem Substitution.Acyclic.headShape_apply (hθ : θ.Acyclic) (e : Expr) :
    (e.apply θ).headShape = (θ.walk e).headShape := by
  rw [Expr.apply_eq_bind]
  rcases hθ.walk_asVar? e with hvar | ⟨v, hwalk, hv⟩
  · exact Expr.headShape_bind θ.resolved hvar
  · rw [hwalk, bind_resolved_of_free hv]

end HeadShapes

namespace Unbounded

section Reading

variable {θ : Substitution} {e r : Expr}

theorem Walk.eq_walk (hθ : θ.Acyclic) (h : Walk θ e r) : r = θ.walk e := by
  induction h with
  | stop he => rw [walk_of_free he]
  | follow hv _ ih => rw [hθ.walk_of_bound hv, ih]

theorem eq_map_of_forall₂ {α β : Type} {R : α → β → Prop} {f : α → β} {as : List α} {bs : List β}
    (h : List.Forall₂ R as bs) (hR : ∀ a ∈ as, ∀ b, R a b → b = f a) : bs = as.map f := by
  induction h with
  | nil => rfl
  | cons hab _ ih =>
    rw [List.map_cons, hR _ List.mem_cons_self _ hab,
      ih fun a ha => hR a (List.mem_cons_of_mem _ ha)]

theorem eq_bind_of_vars {t s : Term}
    (h : ∀ u ∈ t.occurrences, ∀ s, ApplyTerm θ (.var u) s → s = θ.resolved u)
    (ht : ApplyTerm θ t s) : s = t.bind θ.resolved := by
  induction t using Term.induction generalizing s with
  | var u => exact h u (by simp) s ht
  | app f xs ih =>
    cases ht with
    | app hargs =>
      rw [Term.bind_app]
      congr 1
      refine eq_map_of_forall₂ hargs fun x hx y hxy => ?_
      exact ih x hx (fun u hu => h u (by simpa using ⟨x, hx, hu⟩)) hxy

theorem ApplyTerm.eq_apply (hθ : θ.Acyclic) {t s : Term} (h : ApplyTerm θ t s) :
    s = t.apply θ := by
  -- Along the links between variables: the value of a variable is no part of the term at hand.
  have hvar (u : Var) : ∀ s, ApplyTerm θ (.var u) s → s = θ.resolved u := by
    induction u using hθ.wellFounded.induction with
    | h u ih =>
      intro s hs
      cases hs with
      | follow hu hvalue =>
        rw [hθ.resolved_of_term hu]
        exact eq_bind_of_vars (fun w hw => ih w ⟨_, hu, hw⟩) hvalue
      | keep hu =>
        rcases hget : θ.get? u with - | (t | a)
        · rw [resolved_of_free hget]
        · exact absurd hget (hu t)
        · rw [resolved_of_atom hget]
  exact eq_bind_of_vars (fun u _ => hvar u) h

theorem ApplyAtom.eq_apply (hθ : θ.Acyclic) {a b : Atom} (h : ApplyAtom θ a b) :
    b = a.apply θ := by
  cases h with
  | intro hargs =>
    have hmap := eq_map_of_forall₂ hargs fun x _ y hxy => hxy.eq_apply hθ
    rw [hmap, Atom.apply, Atom.mapTerms]

theorem ApplyExpr.eq_apply (hθ : θ.Acyclic) (h : ApplyExpr θ e r) : r = e.apply θ := by
  induction h with
  | follow hv _ ih => rw [hθ.apply_of_bound hv, ih]
  | @free v hv =>
    have hfree : bound? θ (.term (.var v)) = none := hv
    rw [apply_of_free hfree, bind_resolved_of_free hv]
  | @app f xs _ h =>
    rw [h.eq_apply hθ]
    exact (apply_of_free (bound?_app θ f xs)).symm
  | @atom a _ h =>
    rw [h.eq_apply hθ]
    exact (apply_of_free (bound?_atom θ a)).symm

end Reading

section Unifying

theorem Bind.eq_bind {θ : Substitution} {v : Var} {e : Expr} {r : Except Clash Substitution}
    (hθ : θ.Acyclic) (h : Bind θ v e r) : r = Unification.bind v e θ := by
  unfold Unification.bind
  cases h with
  | same hself => rw [if_pos hself]
  | occurs hne hocc => rw [if_neg hne, if_pos ((occurs_iff hθ).mp hocc).symm]
  | bound hne hocc =>
    have hfalse := (occurs_iff hθ).mp hocc
    rw [if_neg hne, if_neg (by simp [← hfalse])]

mutual

/-- A comparison that comes to an end comes to what `unify` gives, success or clash. By recursion
on the derivation; the substitution stays acyclic from one pair of arguments to the next. -/
theorem Unify.eq_unify : ∀ {a b : Expr} {θ : Substitution} {r : Except Clash Substitution},
    Unify a b θ r → θ.Acyclic → r = HornResolution.unify a b θ
  | _, _, _, _, .boundLeft hv hnext, hθ => by
    rw [unify_boundLeft hθ hv]
    exact hnext.eq_unify hθ
  | _, _, _, _, .boundRight ha hv hnext, hθ => by
    rw [unify_boundRight hθ ha hv]
    exact hnext.eq_unify hθ
  | _, _, _, _, .freeLeft hv hb h, hθ => by
    rw [unify_freeLeft hθ hv hb]
    exact h.eq_bind hθ
  | _, _, _, _, .freeRight ha hv h, hθ => by
    rw [unify_freeRight hθ ha hv]
    exact h.eq_bind hθ
  | _, _, _, _, .terms h, hθ => by
    rw [unify_terms hθ]
    exact h.eq_applications hθ
  | _, _, _, _, .atoms h, hθ => by
    rw [unify_atoms hθ]
    exact h.eq_applications hθ
  | _, _, _, _, .termAtom, hθ => by rw [unify_termAtom hθ]
  | _, _, _, _, .atomTerm, hθ => by rw [unify_atomTerm hθ]

theorem UnifyApplications.eq_applications : ∀ {f g : Symbol} {xs ys : List Term}
    {θ : Substitution} {r : Except Clash Substitution},
    UnifyApplications f xs g ys θ r → θ.Acyclic → r = applications unifyTerms f xs g ys θ
  | _, _, _, _, _, _, .symbols hne, _ => by rw [applications, if_pos hne]
  | _, _, _, _, _, _, .arities hne, _ => by
    rw [applications, if_neg (not_not.mpr rfl), if_pos hne]
  | _, _, _, _, _, _, .pairs hlength hpairs, hθ => by
    rw [applications, if_neg (not_not.mpr rfl), if_neg (not_not.mpr hlength)]
    exact hpairs.eq_pairwise hθ

theorem UnifyPairs.eq_pairwise : ∀ {xs ys : List Term} {θ : Substitution}
    {r : Except Clash Substitution},
    UnifyPairs xs ys θ r → θ.Acyclic → r = pairwise unifyTerms xs ys θ
  | _, _, _, _, .nil, _ => rfl
  | _, _, _, _, .clash h, hθ => by rw [pairwise, unifyTerms, ← h.eq_unify hθ]
  | _, _, _, _, .cons h hrest, hθ => by
    have hfirst := h.eq_unify hθ
    have hσ := invariant_acyclic.unify trivial hθ hfirst.symm
    rw [pairwise, unifyTerms, ← hfirst]
    exact hrest.eq_pairwise hσ

end

end Unifying

end Unbounded

variable {θ : Substitution}

/-- Walking finds the head that applying and unifying work on. Under an acyclic substitution, with
atoms among its values, each of the three recursions comes to one result, the one that the library
computes. A walk ends at something other than a variable or at an unbound variable. Applying a
substitution to an expression is applying it to its head form, and the result has the outermost
variable, or the kind, the symbol and the arity, of the head form. Two expressions unify as their
head forms do, with the same unifier or the same clash. -/
theorem walk_head_normal (hθ : θ.Acyclic) (x y : Expr) :
    (∀ r, Unbounded.Walk θ x r ↔ r = θ.walk x) ∧
      (∀ r, Unbounded.ApplyExpr θ x r ↔ r = x.apply θ) ∧
      (∀ r, Unbounded.Unify x y θ r ↔ r = unify x y θ) ∧
      ((θ.walk x).asVar? = none ∨ ∃ v, θ.walk x = .term (.var v) ∧ θ.get? v = none) ∧
      x.apply θ = (θ.walk x).apply θ ∧
      (x.apply θ).headShape = (θ.walk x).headShape ∧
      unify x y θ = unify (θ.walk x) (θ.walk y) θ := by
  refine ⟨fun r => ⟨fun h => h.eq_walk hθ, ?_⟩, fun r => ⟨fun h => h.eq_apply hθ, ?_⟩,
    fun r => ⟨fun h => h.eq_unify hθ, ?_⟩, hθ.walk_asVar? x, (hθ.apply_walk x).symm,
    hθ.headShape_apply x, (unify_walk hθ x y).symm⟩
  · rintro rfl
    exact Unbounded.walk_ends hθ x
  · rintro rfl
    exact Unbounded.applyExpr_ends hθ x
  · rintro rfl
    exact Unbounded.unify_ends hθ x y

/-- One chain that ends at an atom, whose argument is bound to a term, and one that ends at an
unbound variable. -/
def mixedChains : Substitution :=
  ((((Substitution.empty.add ⟨0⟩ (.term (.var ⟨1⟩))).add ⟨1⟩ (.term (.var ⟨2⟩))).add
    ⟨2⟩ (.atom ⟨⟨7⟩, [.var ⟨3⟩]⟩)).add ⟨3⟩ (.term (.app ⟨5⟩ [.var ⟨4⟩]))).add
      ⟨5⟩ (.term (.var ⟨6⟩))

theorem acyclic_mixedChains : mixedChains.Acyclic :=
  ((((acyclic_empty.add (by decide)).add (by decide)).add (by decide)).add (by decide)).add
    (by decide)

/-- The two chains are unified through their ends. A variable behind the atom cannot be unified
with the first chain, and the clash shows the atom and no variable of the chain. -/
theorem walk_head_normal_mixedChains :
    mixedChains.Acyclic ∧
      ((Expr.term (.var ⟨0⟩)).apply mixedChains).headShape = .symbol .predicate ⟨7⟩ 1 ∧
      ((Expr.term (.var ⟨5⟩)).apply mixedChains).headShape = .var ⟨6⟩ ∧
      unify (.term (.var ⟨0⟩)) (.term (.var ⟨5⟩)) mixedChains =
        .ok (mixedChains.add ⟨6⟩ (.atom ⟨⟨7⟩, [.var ⟨3⟩]⟩)) ∧
      Unbounded.Unify (.term (.var ⟨4⟩)) (.term (.var ⟨0⟩)) mixedChains
        (.error (.occurs ⟨4⟩ (.atom ⟨⟨7⟩, [.var ⟨3⟩]⟩))) := by
  obtain ⟨-, -, -, -, -, hatom, hunify⟩ :=
    walk_head_normal acyclic_mixedChains (.term (.var ⟨0⟩)) (.term (.var ⟨5⟩))
  obtain ⟨-, -, -, -, -, hvar, -⟩ :=
    walk_head_normal acyclic_mixedChains (.term (.var ⟨5⟩)) (.term (.var ⟨0⟩))
  obtain ⟨-, -, hends, -, -, -, hclash⟩ :=
    walk_head_normal acyclic_mixedChains (.term (.var ⟨4⟩)) (.term (.var ⟨0⟩))
  refine ⟨acyclic_mixedChains, ?_, ?_, ?_, ?_⟩
  · rw [hatom]
    decide
  · rw [hvar]
    decide
  · rw [hunify]
    rfl
  · rw [hends, hclash]
    rfl

end HornResolution
