import HornResolution.Proofs.AliasClasses
import HornResolution.Proofs.MostGeneral

/-!
# Unification is commutative

When two unbound variables meet, the left one is bound to the right one, so the order of
the two sides decides which of them stays. Nothing else depends on the order. Two
comparisons of the same expressions from either side go through substitutions that are
alike: each binding gives a value to the same class or joins the same two classes. A
comparison that fails finds the same obstruction from the other side, and a renaming that
exchanges the roots takes the one result to the other.
-/

namespace HornResolution

open Unification Substitution

/-- The results of comparing two expressions from either side: two substitutions that are
related, or the same failure with the sides exchanged. -/
inductive Mirrored (R : Substitution → Substitution → Prop) :
    Except Clash Substitution → Except Clash Substitution → Prop
  | ok {σ τ : Substitution} (h : R σ τ) : Mirrored R (.ok σ) (.ok τ)
  | symbols (f g : Symbol) : Mirrored R (.error (.symbols f g)) (.error (.symbols g f))
  | arities (m n : ℕ) : Mirrored R (.error (.arities m n)) (.error (.arities n m))
  | kinds : Mirrored R (.error .kinds) (.error .kinds)
  | occurs (v w : Var) (value : Expr) :
      Mirrored R (.error (.occurs v value)) (.error (.occurs w value))

theorem Mirrored.mono {R S : Substitution → Substitution → Prop}
    {r r' : Except Clash Substitution} (h : Mirrored R r r') (hRS : ∀ σ τ, R σ τ → S σ τ) :
    Mirrored S r r' := by
  cases h with
  | ok h => exact .ok (hRS _ _ h)
  | symbols f g => exact .symbols f g
  | arities m n => exact .arities m n
  | kinds => exact .kinds
  | occurs v w value => exact .occurs v w value

section Comparisons

variable {σ τ : Substitution} {u v w : Var} {e : Expr}

theorem occursIn_free (hw : σ.get? w = none) (hne : v ≠ w) :
    σ.occursIn v (.term (.var w)) = false := by
  have hbeq : (w == v) = false := by simpa using hne.symm
  unfold Substitution.occursIn
  cases σ.length <;> simp [Expr.occurrences, reaches, hbeq, hw]

theorem bind_value_mirrored (h : Alike σ τ) (hσ : σ.get? (σ.root u) = none)
    (hτ : τ.get? (τ.root u) = none) (he : e.asVar? = none) :
    Mirrored Alike (bind (σ.root u) e σ) (bind (τ.root u) e τ) := by
  have hself : ∀ x, e.asVar? ≠ some x := by simp [he]
  unfold Unification.bind
  rw [if_neg (hself _), if_neg (hself _), ← h.occursIn_eq hσ hτ]
  split_ifs with hocc
  · exact .occurs _ _ e
  · exact .ok (h.add_value hσ hτ he (by simpa using hocc))

theorem bind_alias_mirrored (h : Alike σ τ) (hσu : σ.get? (σ.root u) = none)
    (hτu : τ.get? (τ.root u) = none) (hσw : σ.get? (σ.root w) = none)
    (hτw : τ.get? (τ.root w) = none) :
    Mirrored Alike (bind (σ.root u) (.term (.var (σ.root w))) σ)
      (bind (τ.root w) (.term (.var (τ.root u))) τ) := by
  have hself : ∀ x y : Var, (Expr.term (.var x)).asVar? = some y ↔ x = y := by
    simp [Expr.asVar?, Term.asVar?]
  unfold Unification.bind
  simp only [hself]
  by_cases heq : σ.root w = σ.root u
  · rw [if_pos heq, if_pos ((h.root w u).mp heq).symm]
    exact .ok h
  · have hne : σ.root u ≠ σ.root w := fun hroot => heq hroot.symm
    have hne' : τ.root w ≠ τ.root u := fun hroot => heq ((h.root w u).mpr hroot)
    have hocc := occursIn_free hσw hne
    have hocc' := occursIn_free hτu hne'
    rw [if_neg heq, if_neg hne'.symm, hocc, hocc']
    exact .ok (h.add_alias hσu hτu hσw hτw hne (h.acyclic.add hocc) (h.acyclic'.add hocc'))

theorem free_mirrored {a b : Expr} (h : Alike σ τ) (hv : σ.get? v = none)
    (ha : Heads σ τ (.term (.var v)) a) (hb : Heads σ τ e b) :
    Mirrored Alike (bind v e σ) (unify b a τ) := by
  cases ha with
  | same he => simp [Expr.asVar?, Term.asVar?] at he
  | free hσu hτu =>
    cases hb with
    | free hσw hτw =>
      rw [unify_freeLeft h.acyclic' hτw ((bound?_var τ _).trans hτu)]
      exact bind_alias_mirrored h hσu hτu hσw hτw
    | same he =>
      rw [unify_freeRight h.acyclic' he hτu]
      exact bind_value_mirrored h hσu hτu he

variable {pair pair' : Term → Term → Substitution → Except Clash Substitution}

theorem pairwise_mirrored
    (hpair : ∀ x y σ τ, Alike σ τ → pair x y σ ≠ .error .endless →
      Mirrored Alike (pair x y σ) (pair' y x τ)) {xs ys : List Term} (h : Alike σ τ)
    (hne : pairwise pair xs ys σ ≠ .error .endless) :
    Mirrored Alike (pairwise pair xs ys σ) (pairwise pair' ys xs τ) := by
  induction xs generalizing ys σ τ with
  | nil => cases ys <;> exact .ok h
  | cons x xs ih =>
    cases ys with
    | nil => exact .ok h
    | cons y ys =>
      rw [pairwise] at hne
      have hxy : pair x y σ ≠ .error .endless := by
        intro hend
        rw [hend] at hne
        exact hne rfl
      have hfirst := hpair x y σ τ h hxy
      rw [pairwise, pairwise]
      generalize pair x y σ = r, pair' y x τ = r' at hne hfirst ⊢
      cases hfirst with
      | ok h' => exact ih h' hne
      | symbols f g => exact .symbols f g
      | arities m n => exact .arities m n
      | kinds => exact .kinds
      | occurs v w value => exact .occurs v w value

theorem applications_mirrored
    (hpair : ∀ x y σ τ, Alike σ τ → pair x y σ ≠ .error .endless →
      Mirrored Alike (pair x y σ) (pair' y x τ)) {f g : Symbol} {xs ys : List Term}
    (h : Alike σ τ) (hne : applications pair f xs g ys σ ≠ .error .endless) :
    Mirrored Alike (applications pair f xs g ys σ) (applications pair' g ys f xs τ) := by
  unfold applications at hne ⊢
  by_cases hfg : f = g
  · by_cases hlen : xs.length = ys.length
    · simp only [hfg, hlen, ne_eq, not_true_eq_false, if_false] at hne ⊢
      exact pairwise_mirrored hpair h hne
    · simp only [hfg, hlen, Ne.symm hlen, ne_eq, not_true_eq_false, not_false_eq_true, if_true,
        if_false]
      exact .arities _ _
  · simp only [hfg, Ne.symm hfg, ne_eq, not_false_eq_true, if_true]
    exact .symbols f g

/-- A comparison and the one from the other side, under substitutions that are alike. The
first is followed call by call; the second follows chains of its own, which only its head
forms show. -/
theorem within_mirrored {depth : ℕ} {a b : Expr} (h : Alike σ τ)
    (hne : within depth a b σ ≠ .error .endless) :
    Mirrored Alike (within depth a b σ) (unify b a τ) := by
  induction depth generalizing a b σ τ with
  | zero => simp [within] at hne
  | succ depth ih =>
    have hpair : ∀ x y σ τ, Alike σ τ → within depth (.term x) (.term y) σ ≠ .error .endless →
        Mirrored Alike (within depth (.term x) (.term y) σ) (unifyTerms y x τ) :=
      fun x y σ τ h hne => ih h hne
    cases situation σ a b with
    | boundLeft hv =>
      rw [within_boundLeft hv] at hne ⊢
      rw [← unify_walk h.acyclic', h.walk_value hv, unify_walk h.acyclic']
      exact ih h hne
    | boundRight ha hv =>
      rw [within_boundRight ha hv] at hne ⊢
      rw [← unify_walk h.acyclic', h.walk_value hv, unify_walk h.acyclic']
      exact ih h hne
    | @freeLeft v b hv hb =>
      have ha := h.heads (.term (.var v))
      have hb' := h.heads b
      rw [walk_of_free ((bound?_var σ v).trans hv)] at ha
      rw [walk_of_free hb] at hb'
      rw [within_freeLeft hv hb, ← unify_walk h.acyclic']
      exact free_mirrored h hv ha hb'
    | @freeRight a v ha hv =>
      have hb := h.heads (.term (.var v))
      rw [walk_of_free ((bound?_var σ v).trans hv)] at hb
      rw [within_freeRight ha hv, ← unify_walk h.acyclic', walk_of_free (bound?_of_asVar? τ ha)]
      generalize τ.walk (.term (.var v)) = b' at hb ⊢
      cases hb with
      | same he => simp [Expr.asVar?, Term.asVar?] at he
      | free hσu hτu =>
        rw [unify_freeLeft h.acyclic' hτu (bound?_of_asVar? τ ha)]
        exact bind_value_mirrored h hσu hτu ha
    | terms f xs g ys =>
      rw [within_terms] at hne ⊢
      rw [unify_terms h.acyclic']
      exact applications_mirrored hpair h hne
    | atoms p q =>
      rw [within_atoms] at hne ⊢
      rw [unify_atoms h.acyclic']
      exact applications_mirrored hpair h hne
    | termAtom f xs q =>
      rw [within_termAtom, unify_atomTerm h.acyclic']
      exact .kinds
    | atomTerm p g ys =>
      rw [within_atomTerm, unify_termAtom h.acyclic']
      exact .kinds

end Comparisons

namespace Substitution

/-- The map that takes the root of each class under the first substitution to its root under
the second, and back. -/
def exchange (σ τ : Substitution) (v : Var) : Var :=
  if v = σ.root v then τ.root v else if v = τ.root v then σ.root v else v

namespace Alike

variable {σ τ : Substitution}

theorem exchange_root (h : Alike σ τ) (v : Var) : exchange σ τ (σ.root v) = τ.root v := by
  rw [exchange, if_pos (h.acyclic.root_root v).symm]
  exact h.symm.root_root' v

theorem exchange_root' (h : Alike σ τ) (v : Var) : exchange σ τ (τ.root v) = σ.root v := by
  unfold exchange
  rw [h.root_root', h.acyclic'.root_root, if_pos rfl]
  split_ifs with heq
  · exact heq
  · rfl

theorem exchange_involutive (h : Alike σ τ) : Function.Involutive (exchange σ τ) := by
  intro v
  by_cases hσ : v = σ.root v
  · rw [hσ, h.exchange_root, h.exchange_root']
  · by_cases hτ : v = τ.root v
    · rw [hτ, h.exchange_root', h.exchange_root]
    · have hfix : exchange σ τ v = v := by rw [exchange, if_neg hσ, if_neg hτ]
      rw [hfix, hfix]

theorem resolved_eq (h : Alike σ τ) (v : Var) :
    τ.resolved v = (σ.resolved v).bind (relabelling (exchange σ τ)) := by
  induction v using h.acyclic.wellFounded.induction with
  | h v ih =>
    have hvalue := h.value v
    cases hv : σ.get? v with
    | none =>
      have hroot := root_of_last (alias?_of_free hv)
      rw [hroot, hv] at hvalue
      rw [← h.acyclic'.resolved_root, resolved_of_free hvalue.symm, resolved_of_free hv,
        Term.bind_var, relabelling, ← h.exchange_root, hroot]
    | some e =>
      rcases e with (w | ⟨f, xs⟩) | p
      · have halias := alias?_eq_some.mpr hv
        have hroot := (h.root v w).mp (h.acyclic.root_of_alias halias)
        rw [← h.acyclic'.resolved_root, hroot, h.acyclic'.resolved_root,
          h.acyclic.resolved_of_term hv, Term.bind_var]
        exact ih w (leads_of_alias? halias)
      · rw [root_of_last (alias?_of_value hv), hv] at hvalue
        rw [← h.acyclic'.resolved_root, h.acyclic'.resolved_of_term hvalue.symm,
          h.acyclic.resolved_of_term hv, Term.bind_bind]
        apply Term.bind_congr
        intro u hu
        exact ih u ⟨_, hv, hu⟩
      · have hroot := root_of_last (alias?_of_value hv)
        rw [hroot, hv] at hvalue
        rw [← h.acyclic'.resolved_root, resolved_of_atom hvalue.symm, resolved_of_atom hv,
          Term.bind_var, relabelling, ← h.exchange_root, hroot]

theorem apply_eq (h : Alike σ τ) (e : Expr) :
    e.apply τ = (e.apply σ).bind (relabelling (exchange σ τ)) := by
  have hheads := h.heads e
  rw [Expr.apply_eq_bind, Expr.apply_eq_bind, Expr.bind_bind]
  generalize σ.walk e = s, τ.walk e = t at hheads ⊢
  cases hheads with
  | @free v _ _ =>
    have hroot := h.resolved_eq v
    rw [← h.acyclic'.resolved_root, ← h.acyclic.resolved_root] at hroot
    exact congrArg Expr.term hroot
  | same _ => exact Expr.bind_congr fun v _ => h.resolved_eq v

end Alike

/-- Two substitutions with the same number of bindings that take every expression to the same,
up to one renaming of the variables. -/
structure Variants (σ τ : Substitution) : Prop where
  length : σ.length = τ.length
  apply_eq : ∃ π : Var → Var, π.Bijective ∧
    ∀ e : Expr, e.apply τ = (e.apply σ).bind (relabelling π)

theorem Alike.variants {σ τ : Substitution} (h : Alike σ τ) : Variants σ τ :=
  ⟨h.length, exchange σ τ, h.exchange_involutive.bijective, h.apply_eq⟩

end Substitution

/-- Unification is commutative up to the direction in which variables are bound to each other,
failures included. -/
theorem unify_comm {θ : Substitution} (hθ : θ.Acyclic) (a b : Expr) :
    Mirrored Variants (unify a b θ) (unify b a θ) := by
  obtain ⟨depth, hdepth, hne⟩ := exists_unify_eq_within hθ a b
  rw [hdepth]
  exact (within_mirrored (.refl hθ) hne).mono fun _ _ h => h.variants

/-- Two variables that are bound to each other before they meet a value, under bindings to a
term and to an atom; and two that are bound to each other before the occurs check fails. -/
theorem unify_comm_sampleBindings :
    Variants
      ((sampleBindings.add ⟨3⟩ (.term (.var ⟨4⟩))).add ⟨4⟩ (.term (.app ⟨5⟩ [.var ⟨1⟩])))
      ((sampleBindings.add ⟨4⟩ (.term (.var ⟨3⟩))).add ⟨3⟩ (.term (.app ⟨5⟩ [.var ⟨1⟩]))) ∧
    Mirrored Variants (.error (.occurs ⟨4⟩ (.term (.app ⟨5⟩ [.var ⟨4⟩]))))
      (.error (.occurs ⟨3⟩ (.term (.app ⟨5⟩ [.var ⟨4⟩])))) := by
  constructor
  · have h : Mirrored Variants (.ok _) (.ok _) := unify_comm acyclic_sampleBindings
      (.term (.app ⟨6⟩ [.var ⟨3⟩, .var ⟨4⟩])) (.term (.app ⟨6⟩ [.var ⟨4⟩, .var ⟨0⟩]))
    cases h with
    | ok h => exact h
  · exact unify_comm acyclic_sampleBindings
      (.term (.app ⟨6⟩ [.var ⟨3⟩, .var ⟨3⟩])) (.term (.app ⟨6⟩ [.var ⟨4⟩, .app ⟨5⟩ [.var ⟨4⟩]]))

end HornResolution
