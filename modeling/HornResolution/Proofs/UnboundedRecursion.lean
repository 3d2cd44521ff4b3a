import HornResolution.Proofs.HeadForms

/-!
# Recursions without a bound

The functions that follow bindings are given bounds on the links they follow and the calls they
make. Here are the same recursions without bounds, as relations between a call and what it comes
to: one rule for each branch, whose premises are the calls that the branch makes. A call comes to
an end if and only if it has a derivation, which is the finite tree of all calls below it.

Under an acyclic substitution every call comes to an end, and it comes to what the function with
the bound gives. For the functions that only read the substitution, the links between variables
carry the induction. Unification changes the substitution on the way; what it comes to within its
bound is turned into a derivation.

Acyclicity is also needed: if every occurs check comes to an end, no variable leads to itself.
-/

namespace HornResolution

namespace Unbounded

open Unification

section Rules

variable (θ : Substitution)

inductive Walk : Expr → Expr → Prop
  | stop {e : Expr} (he : bound? θ e = none) : Walk e e
  | follow {v : Var} {e r : Expr} (hv : θ.get? v = some e) (hnext : Walk e r) :
      Walk (.term (.var v)) r

mutual

/-- Looks for a variable in an expression, up to the first place where it is found. -/
inductive Occurs (v : Var) : Expr → Bool → Prop
  | here : Occurs v (.term (.var v)) true
  | free {w : Var} (hne : w ≠ v) (hw : θ.get? w = none) : Occurs v (.term (.var w)) false
  | follow {w : Var} {e : Expr} {r : Bool} (hne : w ≠ v) (hw : θ.get? w = some e)
      (hvalue : Occurs v e r) : Occurs v (.term (.var w)) r
  | app {f : Symbol} {xs : List Term} {r : Bool} (hargs : OccursAny v xs r) :
      Occurs v (.term (.app f xs)) r
  | atom {p : Atom} {r : Bool} (hargs : OccursAny v p.args r) : Occurs v (.atom p) r

inductive OccursAny (v : Var) : List Term → Bool → Prop
  | nil : OccursAny v [] false
  | found {x : Term} {xs : List Term} (hx : Occurs v (.term x) true) : OccursAny v (x :: xs) true
  | next {x : Term} {xs : List Term} {r : Bool} (hx : Occurs v (.term x) false)
      (hxs : OccursAny v xs r) : OccursAny v (x :: xs) r

end

inductive ApplyTerm : Term → Term → Prop
  | follow {v : Var} {t r : Term} (hv : θ.get? v = some (.term t)) (hvalue : ApplyTerm t r) :
      ApplyTerm (.var v) r
  | keep {v : Var} (hv : ∀ t, θ.get? v ≠ some (.term t)) : ApplyTerm (.var v) (.var v)
  | app {f : Symbol} {xs ys : List Term} (hargs : List.Forall₂ ApplyTerm xs ys) :
      ApplyTerm (.app f xs) (.app f ys)

inductive ApplyAtom : Atom → Atom → Prop
  | intro {p : Symbol} {xs ys : List Term} (hargs : List.Forall₂ (ApplyTerm θ) xs ys) :
      ApplyAtom ⟨p, xs⟩ ⟨p, ys⟩

inductive ApplyFormula : Formula → Formula → Prop
  | atom {a b : Atom} (h : ApplyAtom θ a b) : ApplyFormula (.atom a) (.atom b)
  | conj {fs gs : List Formula} (h : List.Forall₂ ApplyFormula fs gs) :
      ApplyFormula (.conj fs) (.conj gs)
  | disj {fs gs : List Formula} (h : List.Forall₂ ApplyFormula fs gs) :
      ApplyFormula (.disj fs) (.disj gs)
  | neg {f g : Formula} (h : ApplyFormula f g) : ApplyFormula (.neg f) (.neg g)

inductive ApplyClause : Clause → Clause → Prop
  | fact {a b : Atom} (hhead : ApplyAtom θ a b) : ApplyClause (.fact a) (.fact b)
  | rule {a b : Atom} {f g : Formula} (hhead : ApplyAtom θ a b) (hbody : ApplyFormula θ f g) :
      ApplyClause (.rule a f) (.rule b g)
  | goal {f g : Formula} (hbody : ApplyFormula θ f g) : ApplyClause (.goal f) (.goal g)

inductive ApplyExpr : Expr → Expr → Prop
  | follow {v : Var} {e r : Expr} (hv : θ.get? v = some e) (hvalue : ApplyExpr e r) :
      ApplyExpr (.term (.var v)) r
  | free {v : Var} (hv : θ.get? v = none) : ApplyExpr (.term (.var v)) (.term (.var v))
  | app {f : Symbol} {xs : List Term} {t : Term} (h : ApplyTerm θ (.app f xs) t) :
      ApplyExpr (.term (.app f xs)) (.term t)
  | atom {a b : Atom} (h : ApplyAtom θ a b) : ApplyExpr (.atom a) (.atom b)

/-- Resolves the values of bindings, up to the first that has a variable left. -/
inductive AllGround : List (Var × Expr) → Bool → Prop
  | nil : AllGround [] true
  | found {v : Var} {e r : Expr} {bs : List (Var × Expr)} (h : ApplyExpr θ e r)
      (hr : r.occurrences ≠ []) : AllGround ((v, e) :: bs) false
  | next {v : Var} {e r : Expr} {bs : List (Var × Expr)} {ground : Bool} (h : ApplyExpr θ e r)
      (hr : r.occurrences = []) (hbs : AllGround bs ground) : AllGround ((v, e) :: bs) ground

inductive ResolveAll : List Var → List (Var × Expr) → Prop
  | nil : ResolveAll [] []
  | skip {v : Var} {vs : List Var} {bs : List (Var × Expr)} (hv : θ.get? v = none)
      (hvs : ResolveAll vs bs) : ResolveAll (v :: vs) bs
  | resolve {v : Var} {e r : Expr} {vs : List Var} {bs : List (Var × Expr)}
      (hv : θ.get? v = some e) (h : ApplyExpr θ (.term (.var v)) r) (hvs : ResolveAll vs bs) :
      ResolveAll (v :: vs) ((v, r) :: bs)

inductive Bind (v : Var) (e : Expr) : Except Clash Substitution → Prop
  | same (h : e.asVar? = some v) : Bind v e (.ok θ)
  | occurs (hne : e.asVar? ≠ some v) (h : Occurs θ v e true) : Bind v e (.error (.occurs v e))
  | bound (hne : e.asVar? ≠ some v) (h : Occurs θ v e false) : Bind v e (.ok (θ.add v e))

end Rules

mutual

inductive Unify : Expr → Expr → Substitution → Except Clash Substitution → Prop
  | boundLeft {v : Var} {e b : Expr} {θ : Substitution} {r : Except Clash Substitution}
      (hv : θ.get? v = some e) (hnext : Unify e b θ r) : Unify (.term (.var v)) b θ r
  | boundRight {a e : Expr} {v : Var} {θ : Substitution} {r : Except Clash Substitution}
      (ha : bound? θ a = none) (hv : θ.get? v = some e) (hnext : Unify a e θ r) :
      Unify a (.term (.var v)) θ r
  | freeLeft {v : Var} {b : Expr} {θ : Substitution} {r : Except Clash Substitution}
      (hv : θ.get? v = none) (hb : bound? θ b = none) (h : Bind θ v b r) :
      Unify (.term (.var v)) b θ r
  | freeRight {a : Expr} {v : Var} {θ : Substitution} {r : Except Clash Substitution}
      (ha : a.asVar? = none) (hv : θ.get? v = none) (h : Bind θ v a r) :
      Unify a (.term (.var v)) θ r
  | terms {f g : Symbol} {xs ys : List Term} {θ : Substitution} {r : Except Clash Substitution}
      (h : UnifyApplications f xs g ys θ r) : Unify (.term (.app f xs)) (.term (.app g ys)) θ r
  | atoms {p q : Atom} {θ : Substitution} {r : Except Clash Substitution}
      (h : UnifyApplications p.symbol p.args q.symbol q.args θ r) : Unify (.atom p) (.atom q) θ r
  | termAtom {f : Symbol} {xs : List Term} {q : Atom} {θ : Substitution} :
      Unify (.term (.app f xs)) (.atom q) θ (.error .kinds)
  | atomTerm {p : Atom} {g : Symbol} {ys : List Term} {θ : Substitution} :
      Unify (.atom p) (.term (.app g ys)) θ (.error .kinds)

inductive UnifyApplications :
    Symbol → List Term → Symbol → List Term → Substitution → Except Clash Substitution → Prop
  | symbols {f g : Symbol} {xs ys : List Term} {θ : Substitution} (h : f ≠ g) :
      UnifyApplications f xs g ys θ (.error (.symbols f g))
  | arities {f : Symbol} {xs ys : List Term} {θ : Substitution} (h : xs.length ≠ ys.length) :
      UnifyApplications f xs f ys θ (.error (.arities xs.length ys.length))
  | pairs {f : Symbol} {xs ys : List Term} {θ : Substitution} {r : Except Clash Substitution}
      (h : xs.length = ys.length) (hpairs : UnifyPairs xs ys θ r) :
      UnifyApplications f xs f ys θ r

inductive UnifyPairs :
    List Term → List Term → Substitution → Except Clash Substitution → Prop
  | nil {θ : Substitution} : UnifyPairs [] [] θ (.ok θ)
  | clash {x y : Term} {xs ys : List Term} {θ : Substitution} {clash : Clash}
      (h : Unify (.term x) (.term y) θ (.error clash)) :
      UnifyPairs (x :: xs) (y :: ys) θ (.error clash)
  | cons {x y : Term} {xs ys : List Term} {θ σ : Substitution} {r : Except Clash Substitution}
      (h : Unify (.term x) (.term y) θ (.ok σ)) (hrest : UnifyPairs xs ys σ r) :
      UnifyPairs (x :: xs) (y :: ys) θ r

end

section Reading

open Substitution

variable {θ : Substitution} {v : Var} {e : Expr} {xs : List Term} {r : Bool}

theorem walk_ends (hθ : θ.Acyclic) (e : Expr) : Walk θ e (θ.walk e) := by
  induction e using hθ.chainInduction with
  | free e he =>
    rw [walk_of_free he]
    exact .stop he
  | bound v e hv ih =>
    rw [hθ.walk_of_bound hv]
    exact .follow hv ih

section OccursCheck

theorem exists_occursAny (h : ∀ x ∈ xs, ∃ r, Occurs θ v (.term x) r) :
    ∃ r, OccursAny θ v xs r := by
  induction xs with
  | nil => exact ⟨false, .nil⟩
  | cons x xs ih =>
    obtain ⟨r, hr⟩ := ih fun y hy => h y (List.mem_cons_of_mem x hy)
    obtain ⟨found, hx⟩ := h x List.mem_cons_self
    cases found with
    | true => exact ⟨true, .found hx⟩
    | false => exact ⟨r, .next hx hr⟩

theorem exists_occurs_of_vars (h : ∀ u ∈ e.occurrences, ∃ r, Occurs θ v (.term (.var u)) r) :
    ∃ r, Occurs θ v e r := by
  have hterm (t : Term) (ht : ∀ u ∈ t.occurrences, ∃ r, Occurs θ v (.term (.var u)) r) :
      ∃ r, Occurs θ v (.term t) r := by
    induction t using Term.induction with
    | var u => exact ht u (by simp)
    | app f xs ih =>
      have hargs : ∀ x ∈ xs, ∃ r, Occurs θ v (.term x) r := by
        intro x hx
        exact ih x hx fun u hu => ht u (by simpa using ⟨x, hx, hu⟩)
      obtain ⟨r, hr⟩ := exists_occursAny hargs
      exact ⟨r, .app hr⟩
  cases e with
  | term t => exact hterm t h
  | atom p =>
    have hargs : ∀ x ∈ p.args, ∃ r, Occurs θ v (.term x) r := by
      intro x hx
      exact hterm x fun u hu => h u (List.mem_flatMap.mpr ⟨x, hx, hu⟩)
    obtain ⟨r, hr⟩ := exists_occursAny hargs
    exact ⟨r, .atom hr⟩

theorem exists_occurs (hθ : θ.Acyclic) (v : Var) (e : Expr) : ∃ r, Occurs θ v e r := by
  have hvar (u : Var) : ∃ r, Occurs θ v (.term (.var u)) r := by
    induction u using hθ.wellFounded.induction with
    | h u ih =>
      by_cases huv : u = v
      · exact ⟨true, huv ▸ .here⟩
      · cases hu : θ.get? u with
        | none => exact ⟨false, .free huv hu⟩
        | some value =>
          obtain ⟨r, hr⟩ := exists_occurs_of_vars fun w hw => ih w ⟨value, hu, hw⟩
          exact ⟨r, .follow huv hu hr⟩
  exact exists_occurs_of_vars fun u _ => hvar u

mutual

theorem Occurs.eq_true_iff : ∀ {e : Expr} {r : Bool}, Occurs θ v e r →
    (r = true ↔ ∃ u ∈ e.occurrences, Relation.ReflTransGen θ.Leads u v)
  | _, _, .here => by simpa [Expr.occurrences] using Relation.ReflTransGen.refl
  | _, _, .free (w := w) hne hw => by
    simp only [Expr.occurrences, Term.occurrences_var, List.mem_singleton, exists_eq_left,
      Bool.false_eq_true, false_iff]
    intro hpath
    rcases hpath.cases_head with rfl | ⟨u, ⟨e, he, -⟩, -⟩
    · exact hne rfl
    · simp [hw] at he
  | _, _, .follow (w := w) (e := e) hne hw hvalue => by
    rw [hvalue.eq_true_iff]
    simp only [Expr.occurrences, Term.occurrences_var, List.mem_singleton, exists_eq_left]
    constructor
    · rintro ⟨u, hu, hpath⟩
      exact .head ⟨e, hw, hu⟩ hpath
    · intro hpath
      rcases hpath.cases_head with rfl | ⟨u, ⟨e', he', hu⟩, hpath⟩
      · exact absurd rfl hne
      · obtain rfl := Option.some.inj (hw.symm.trans he')
        exact ⟨u, hu, hpath⟩
  | _, _, .app hargs => by
    rw [hargs.eq_true_iff, Expr.occurrences, Term.occurrences_app]
  | _, _, .atom hargs => hargs.eq_true_iff

theorem OccursAny.eq_true_iff : ∀ {xs : List Term} {r : Bool}, OccursAny θ v xs r →
    (r = true ↔ ∃ u ∈ xs.flatMap Term.occurrences, Relation.ReflTransGen θ.Leads u v)
  | _, _, .nil => by simp
  | _, _, .found hx => by
    obtain ⟨u, hu, hpath⟩ := hx.eq_true_iff.mp rfl
    simp only [List.flatMap_cons, List.mem_append, true_iff]
    exact ⟨u, Or.inl hu, hpath⟩
  | _, _, .next hx hxs => by
    have hnone := mt hx.eq_true_iff.mpr (by simp)
    rw [hxs.eq_true_iff]
    simp only [List.flatMap_cons, List.mem_append]
    constructor
    · rintro ⟨u, hu, hpath⟩
      exact ⟨u, Or.inr hu, hpath⟩
    · rintro ⟨u, hu | hu, hpath⟩
      · exact absurd ⟨u, hu, hpath⟩ hnone
      · exact ⟨u, hu, hpath⟩

end

mutual

theorem Occurs.acc : ∀ {e : Expr} {r : Bool}, Occurs θ v e r → r = false →
    ∀ u ∈ e.occurrences, Acc (fun w u => θ.Leads u w) u
  | _, _, .here, hr => by simp at hr
  | _, _, .free (w := w) _ hw, _ => by
    simp only [Expr.occurrences, Term.occurrences_var, List.mem_singleton, forall_eq]
    refine ⟨w, ?_⟩
    rintro u ⟨e, he, -⟩
    simp [hw] at he
  | _, _, .follow (w := w) (e := e) _ hw hvalue, hr => by
    simp only [Expr.occurrences, Term.occurrences_var, List.mem_singleton, forall_eq]
    refine ⟨w, ?_⟩
    rintro u ⟨e', he', hu⟩
    obtain rfl := Option.some.inj (hw.symm.trans he')
    exact hvalue.acc hr u hu
  | _, _, .app hargs, hr => by
    rw [Expr.occurrences, Term.occurrences_app]
    exact hargs.acc hr
  | _, _, .atom hargs, hr => hargs.acc hr

theorem OccursAny.acc : ∀ {xs : List Term} {r : Bool}, OccursAny θ v xs r → r = false →
    ∀ u ∈ xs.flatMap Term.occurrences, Acc (fun w u => θ.Leads u w) u
  | _, _, .nil, _ => by simp
  | _, _, .found _, hr => by simp at hr
  | _, _, .next hx hxs, hr => by
    intro u hu
    rw [List.flatMap_cons, List.mem_append] at hu
    exact hu.elim (hx.acc rfl u) (hxs.acc hr u)

end

theorem occurs_ends (hθ : θ.Acyclic) (v : Var) (e : Expr) : Occurs θ v e (θ.occursIn v e) := by
  obtain ⟨r, hr⟩ := exists_occurs hθ v e
  have heq : θ.occursIn v e = r := by
    rw [Bool.eq_iff_iff, hθ.occursIn_iff, hr.eq_true_iff]
  exact heq ▸ hr

theorem not_cycle_of_acc (h : Acc (fun w u => θ.Leads u w) v) :
    ¬ Relation.TransGen θ.Leads v v := by
  induction h with
  | intro v _ ih =>
    intro hcycle
    obtain ⟨w, hvw, hwv⟩ := Relation.TransGen.head'_iff.mp hcycle
    exact ih w hvw (.tail' hwv hvw)

/-- Acyclic substitutions are those under which every occurs check comes to an end. A check for a
variable that is nowhere in the bindings has to follow all links, round a circle if there is one. -/
theorem acyclic_iff_exists_occurs : θ.Acyclic ↔ ∀ v e, ∃ r, Occurs θ v e r := by
  refine ⟨exists_occurs, ?_⟩
  intro hends v
  have hinfinite : Infinite Var := .of_injective Var.mk fun _ _ h => congrArg Var.id h
  obtain ⟨target, htarget⟩ := (v :: θ.occurrences).toFinset.exists_notMem
  obtain ⟨hne, hnew⟩ : target ≠ v ∧ target ∉ θ.occurrences := by simpa using htarget
  obtain ⟨r, hr⟩ := hends target (.term (.var v))
  have hfalse : r = false := by
    rw [← Bool.not_eq_true, hr.eq_true_iff]
    rintro ⟨u, hu, hpath⟩
    obtain rfl : u = v := by simpa [Expr.occurrences] using hu
    rcases hpath.cases_tail with rfl | ⟨w, -, e, he, hw⟩
    · exact hne rfl
    · exact hnew (mem_occurrences_of_get? he hw)
  exact not_cycle_of_acc (hr.acc hfalse v (by simp [Expr.occurrences]))

end OccursCheck

section Application

theorem forall₂_map_of_forall {α β : Type} {R : α → β → Prop} {f : α → β} {as : List α}
    (h : ∀ a ∈ as, R a (f a)) : List.Forall₂ R as (as.map f) := by
  rw [List.forall₂_map_right_iff, List.forall₂_same]
  exact h

theorem applyTerm_of_vars {t : Term}
    (h : ∀ u ∈ t.occurrences, ApplyTerm θ (.var u) (θ.resolved u)) :
    ApplyTerm θ t (t.bind θ.resolved) := by
  induction t using Term.induction with
  | var u => exact h u (by simp)
  | app f xs ih =>
    rw [Term.bind_app]
    refine .app (forall₂_map_of_forall fun x hx => ?_)
    exact ih x hx fun u hu => h u (by simpa using ⟨x, hx, hu⟩)

theorem applyTerm_ends (hθ : θ.Acyclic) (t : Term) : ApplyTerm θ t (t.apply θ) := by
  have hvar (u : Var) : ApplyTerm θ (.var u) (θ.resolved u) := by
    induction u using hθ.wellFounded.induction with
    | h u ih =>
      cases hu : θ.get? u with
      | none =>
        rw [resolved_of_free hu]
        exact .keep (by simp [hu])
      | some value =>
        cases value with
        | term t =>
          rw [hθ.resolved_of_term hu]
          exact .follow hu (applyTerm_of_vars fun w hw => ih w ⟨_, hu, hw⟩)
        | atom a =>
          rw [resolved_of_atom hu]
          exact .keep (by simp [hu])
  exact applyTerm_of_vars fun u _ => hvar u

theorem applyAtom_ends (hθ : θ.Acyclic) (a : Atom) : ApplyAtom θ a (a.apply θ) :=
  .intro (forall₂_map_of_forall fun x _ => applyTerm_ends hθ x)

theorem applyFormula_ends (hθ : θ.Acyclic) (f : Formula) : ApplyFormula θ f (f.apply θ) := by
  rw [Formula.apply_eq_bind_resolved]
  induction f using Formula.induction with
  | atom a =>
    rw [Formula.bind_atom]
    exact .atom (applyAtom_ends hθ a)
  | conj fs ih =>
    rw [Formula.bind_conj]
    exact .conj (forall₂_map_of_forall ih)
  | disj fs ih =>
    rw [Formula.bind_disj]
    exact .disj (forall₂_map_of_forall ih)
  | neg f ih =>
    rw [Formula.bind_neg]
    exact .neg ih

theorem applyClause_ends (hθ : θ.Acyclic) (c : Clause) : ApplyClause θ c (c.apply θ) := by
  cases c with
  | fact a => exact .fact (applyAtom_ends hθ a)
  | rule a f => exact .rule (applyAtom_ends hθ a) (applyFormula_ends hθ f)
  | goal f => exact .goal (applyFormula_ends hθ f)

theorem applyExpr_ends (hθ : θ.Acyclic) (e : Expr) : ApplyExpr θ e (e.apply θ) := by
  rw [Expr.apply_eq_bind]
  induction e using hθ.chainInduction with
  | free e he =>
    rw [walk_of_free he]
    rcases e with (v | ⟨f, xs⟩) | a
    · have hv : θ.resolved v = .var v := resolved_of_free he
      rw [Expr.bind, Expr.mapTerms, Term.bind_var, hv]
      exact .free he
    · exact .app (applyTerm_ends hθ (.app f xs))
    · exact .atom (applyAtom_ends hθ a)
  | bound v e hv ih =>
    rw [hθ.walk_of_bound hv]
    exact .follow hv ih

theorem allGround_ends (hθ : θ.Acyclic) (bs : List (Var × Expr)) :
    AllGround θ bs (bs.all fun b => (b.2.apply θ).occurrences.isEmpty) := by
  induction bs with
  | nil => exact .nil
  | cons b bs ih =>
    have hvalue := applyExpr_ends hθ b.2
    by_cases hground : (b.2.apply θ).occurrences = []
    · simp only [List.all_cons, hground, List.isEmpty_nil, Bool.true_and]
      exact .next hvalue hground ih
    · have hfalse : (b.2.apply θ).occurrences.isEmpty = false := by simpa using hground
      simp only [List.all_cons, hfalse, Bool.false_and]
      exact .found hvalue hground

theorem resolveAll_ends (hθ : θ.Acyclic) (vs : List Var) :
    ResolveAll θ vs (θ.resolvedValues vs) := by
  induction vs with
  | nil => exact .nil
  | cons v vs ih =>
    rw [resolvedValues] at ih ⊢
    cases hv : θ.get? v with
    | none =>
      rw [List.filter_cons_of_neg (by simp [isBound, hv])]
      exact .skip hv ih
    | some e =>
      rw [List.filter_cons_of_pos (by simp [isBound, hv])]
      exact .resolve hv (applyExpr_ends hθ _) ih

end Application

end Reading

section Unifying

variable {θ : Substitution} {depth : ℕ}

theorem bind_ends (hθ : θ.Acyclic) (v : Var) (e : Expr) : Bind θ v e (Unification.bind v e θ) := by
  have hocc := occurs_ends hθ v e
  unfold Unification.bind
  split_ifs with hself hoccurs
  · exact .same hself
  · exact .occurs hself (hoccurs ▸ hocc)
  · have hfalse : θ.occursIn v e = false := by simpa using hoccurs
    exact .bound hself (hfalse ▸ hocc)

/-- What holds of comparisons of a bounded depth: one that is not cut off comes to an end without
a bound, and to the same. -/
def EndsWithin (depth : ℕ) : Prop :=
  ∀ a b θ, θ.Acyclic → within depth a b θ ≠ .error .endless → Unify a b θ (within depth a b θ)

theorem unifyPairs_ends (ih : EndsWithin depth) {xs ys : List Term}
    (hlength : xs.length = ys.length) (hθ : θ.Acyclic)
    (hne : pairwise (fun x y => within depth (.term x) (.term y)) xs ys θ ≠ .error .endless) :
    UnifyPairs xs ys θ (pairwise (fun x y => within depth (.term x) (.term y)) xs ys θ) := by
  induction xs generalizing ys θ with
  | nil =>
    obtain rfl : ys = [] := List.length_eq_zero_iff.mp hlength.symm
    exact .nil
  | cons x xs ihxs =>
    cases ys with
    | nil => simp at hlength
    | cons y ys =>
      have hfirst := ih (.term x) (.term y) θ hθ
      rw [pairwise] at hne ⊢
      cases hxy : within depth (.term x) (.term y) θ with
      | error clash =>
        rw [hxy] at hfirst
        simp only [hxy] at hne
        exact .clash (hfirst hne)
      | ok σ =>
        rw [hxy] at hfirst
        simp only [hxy] at hne
        have hσ : σ.Acyclic := invariant_acyclic.within trivial hθ hxy
        exact .cons (hfirst (by simp)) (ihxs (by simpa using hlength) hσ hne)

theorem unifyApplications_ends (ih : EndsWithin depth) {f g : Symbol} {xs ys : List Term}
    (hθ : θ.Acyclic)
    (hne : applications (fun x y => within depth (.term x) (.term y)) f xs g ys θ ≠
      .error .endless) :
    UnifyApplications f xs g ys θ
      (applications (fun x y => within depth (.term x) (.term y)) f xs g ys θ) := by
  unfold applications at hne ⊢
  split_ifs at hne ⊢ with hfg hlength
  · exact .symbols hfg
  · obtain rfl : f = g := not_not.mp hfg
    exact .arities hlength
  · obtain rfl : f = g := not_not.mp hfg
    have hlength : xs.length = ys.length := not_not.mp hlength
    exact .pairs hlength (unifyPairs_ends ih hlength hθ hne)

theorem endsWithin (depth : ℕ) : EndsWithin depth := by
  induction depth with
  | zero =>
    intro a b θ _ hne
    exact absurd rfl hne
  | succ depth ih =>
    intro a b θ hθ hne
    cases situation θ a b with
    | boundLeft hv =>
      rw [within_boundLeft hv] at hne ⊢
      exact .boundLeft hv (ih _ _ θ hθ hne)
    | boundRight ha hv =>
      rw [within_boundRight ha hv] at hne ⊢
      exact .boundRight ha hv (ih _ _ θ hθ hne)
    | freeLeft hv hb =>
      rw [within_freeLeft hv hb]
      exact .freeLeft hv hb (bind_ends hθ _ _)
    | freeRight ha hv =>
      rw [within_freeRight ha hv]
      exact .freeRight ha hv (bind_ends hθ _ _)
    | terms f xs g ys =>
      rw [within_terms] at hne ⊢
      exact .terms (unifyApplications_ends ih hθ hne)
    | atoms p q =>
      rw [within_atoms] at hne ⊢
      exact .atoms (unifyApplications_ends ih hθ hne)
    | termAtom f xs q =>
      rw [within_termAtom]
      exact .termAtom
    | atomTerm p g ys =>
      rw [within_atomTerm]
      exact .atomTerm

theorem unify_ends (hθ : θ.Acyclic) (a b : Expr) : Unify a b θ (HornResolution.unify a b θ) := by
  obtain ⟨depth, heq, hne⟩ := exists_unify_eq_within hθ a b
  rw [heq]
  exact endsWithin (depth + 1) a b θ hθ hne

end Unifying

/-- Following bindings comes to an end. Under an acyclic substitution, whose bindings may be to
terms or atoms, every walk, occurs check and application comes to an end without any bound, for
terms, atoms, formulas, clauses and expressions, and so do the groundness check, the resolution
of lists of variables and unification, which adds bindings on the way. Each comes to what the
library computes for it. -/
theorem recursions_end {θ : Substitution} (hθ : θ.Acyclic) :
    (∀ e, Walk θ e (θ.walk e)) ∧ (∀ v e, Occurs θ v e (θ.occursIn v e)) ∧
      (∀ t, ApplyTerm θ t (t.apply θ)) ∧ (∀ a, ApplyAtom θ a (a.apply θ)) ∧
      (∀ f, ApplyFormula θ f (f.apply θ)) ∧ (∀ c, ApplyClause θ c (c.apply θ)) ∧
      (∀ e, ApplyExpr θ e (e.apply θ)) ∧ AllGround θ θ.bindings θ.isGround ∧
      (∀ vs, ResolveAll θ vs (θ.resolvedValues vs)) ∧
      ∀ a b, Unify a b θ (HornResolution.unify a b θ) :=
  ⟨walk_ends hθ, occurs_ends hθ, applyTerm_ends hθ, applyAtom_ends hθ, applyFormula_ends hθ,
    applyClause_ends hθ, applyExpr_ends hθ, allGround_ends hθ θ.bindings, resolveAll_ends hθ,
    unify_ends hθ⟩

/-- Two terms with one variable twice in them, the one inside the other, and an atom about both. -/
def sharingBindings : Substitution :=
  ((Substitution.empty.add ⟨0⟩ (.term (.app ⟨5⟩ [.var ⟨1⟩, .var ⟨1⟩]))).add
    ⟨1⟩ (.term (.app ⟨5⟩ [.var ⟨2⟩, .var ⟨2⟩]))).add ⟨3⟩ (.atom ⟨⟨7⟩, [.var ⟨0⟩]⟩)

theorem acyclic_sharingBindings : sharingBindings.Acyclic :=
  ((Substitution.acyclic_empty.add (by decide)).add (by decide)).add (by decide)

/-- A variable bound to the atom is walked, and it is unified with another atom, for which two
bindings are made. -/
theorem recursions_end_sharingBindings :
    Walk sharingBindings (.term (.var ⟨3⟩)) (.atom ⟨⟨7⟩, [.var ⟨0⟩]⟩) ∧
      Unify (.term (.var ⟨3⟩))
        (.atom ⟨⟨7⟩, [.app ⟨5⟩ [.var ⟨4⟩, .app ⟨5⟩ [.const ⟨6⟩, .const ⟨6⟩]]]⟩) sharingBindings
        (.ok ((sharingBindings.add ⟨4⟩ (.term (.app ⟨5⟩ [.var ⟨2⟩, .var ⟨2⟩]))).add
          ⟨2⟩ (.term (.const ⟨6⟩)))) := by
  obtain ⟨hwalk, -, -, -, -, -, -, -, -, hunify⟩ := recursions_end acyclic_sharingBindings
  exact ⟨hwalk (.term (.var ⟨3⟩)), hunify _ _⟩

end Unbounded

end HornResolution
