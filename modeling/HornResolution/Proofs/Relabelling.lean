import HornResolution.Proofs.Allocation

/-!
# The numbers of variables do not matter

An injective map of the variables to variables relabels expressions, substitutions and
nodes. Unification only ever asks whether two variables are the same, so it gives on
relabelled expressions, under a relabelled substitution, what it gives on the original ones,
relabelled: the same bindings in the same order, or the same clash. Nodes are started, reset
and led through a rule in the same way.
-/

namespace HornResolution

section Expressions

variable (π : Var → Var)

theorem Term.size_relabelling (t : Term) : (t.bind (relabelling π)).size = t.size := by
  induction t using Term.induction with
  | var v => rfl
  | app f args ih =>
    rw [Term.bind_app, size_app, size_app, List.map_map]
    congr 2
    exact List.map_congr_left ih

theorem Atom.size_relabelling (a : Atom) : (a.bind (relabelling π)).size = a.size := by
  simp only [Atom.size, Atom.bind, Atom.mapTerms, List.map_map]
  congr 2
  exact List.map_congr_left fun t _ => Term.size_relabelling π t

theorem Expr.size_relabelling (e : Expr) : (e.bind (relabelling π)).size = e.size := by
  cases e with
  | term t => exact Term.size_relabelling π t
  | atom a => exact Atom.size_relabelling π a

theorem Expr.occurrences_relabelling (e : Expr) :
    (e.bind (relabelling π)).occurrences = e.occurrences.map π := by
  cases e with
  | term t => exact Term.occurrences_relabelling π t
  | atom a => exact Atom.occurrences_relabelling π a

theorem Expr.asVar?_relabelling (e : Expr) :
    (e.bind (relabelling π)).asVar? = e.asVar?.map π := by
  rcases e with (v | ⟨f, args⟩) | a
  · rfl
  · simp [Expr.bind, Expr.mapTerms, Expr.asVar?, Term.asVar?]
  · rfl

theorem Term.bind_relabelling_id (t : Term) : t.bind (relabelling id) = t := by
  induction t using Term.induction with
  | var v => rfl
  | app f args ih =>
    rw [Term.bind_app, List.map_congr_left ih, List.map_id']

theorem Atom.bind_relabelling_id (a : Atom) : a.bind (relabelling id) = a := by
  rw [Atom.bind, Atom.mapTerms, List.map_congr_left fun t _ => Term.bind_relabelling_id t,
    List.map_id']

theorem Expr.bind_relabelling_id (e : Expr) : e.bind (relabelling id) = e := by
  cases e with
  | term t => exact congrArg Expr.term (Term.bind_relabelling_id t)
  | atom a => exact congrArg Expr.atom (Atom.bind_relabelling_id a)

theorem Formula.bind_relabelling_id (f : Formula) : f.bind (relabelling id) = f := by
  induction f using Formula.induction with
  | atom a => rw [bind_atom, Atom.bind_relabelling_id]
  | conj fs ih => rw [bind_conj, List.map_congr_left ih, List.map_id']
  | disj fs ih => rw [bind_disj, List.map_congr_left ih, List.map_id']
  | neg f ih => rw [bind_neg, ih]

theorem Clause.bind_relabelling_id (c : Clause) : c.bind (relabelling id) = c := by
  cases c with
  | fact a => rw [bind_fact, Atom.bind_relabelling_id]
  | rule a f => rw [bind_rule, Atom.bind_relabelling_id, Formula.bind_relabelling_id]
  | goal f => rw [bind_goal, Formula.bind_relabelling_id]

end Expressions

namespace Substitution

variable {π : Var → Var} {θ : Substitution}

/-- The bindings of a list, each of a variable that has none yet. -/
def ofBindings (bs : List (Var × Expr)) : Substitution :=
  bs.foldl (fun θ b => θ.add b.1 b.2) .empty

theorem bindings_foldl_add {bs : List (Var × Expr)}
    (h : ((θ.bindings ++ bs).map Prod.fst).Nodup) :
    (bs.foldl (fun θ b => θ.add b.1 b.2) θ).bindings = θ.bindings ++ bs := by
  induction bs generalizing θ with
  | nil => simp
  | cons b bs ih =>
    have hfree : θ.get? b.1 = none := by
      refine List.lookup_eq_none_iff.mpr fun b' hb' => ?_
      rw [List.map_append, List.nodup_append] at h
      have hne := h.2.2 b'.1 (List.mem_map_of_mem hb') b.1 (by simp)
      simpa using hne.symm
    have hadded : (θ.add b.1 b.2).bindings ++ bs = θ.bindings ++ b :: bs := by
      simp [bindings_add hfree]
    rw [List.foldl_cons, ih (hadded ▸ h), hadded]

theorem bindings_ofBindings {bs : List (Var × Expr)} (h : (bs.map Prod.fst).Nodup) :
    (ofBindings bs).bindings = bs :=
  bindings_foldl_add (θ := .empty) h

/-- The bindings in the same order, with every variable replaced. -/
def relabel (π : Var → Var) (θ : Substitution) : Substitution :=
  .ofBindings (θ.bindings.map fun b => (π b.1, b.2.bind (relabelling π)))

theorem bindings_relabel (hπ : π.Injective) (θ : Substitution) : (θ.relabel π).bindings =
    θ.bindings.map fun b => (π b.1, b.2.bind (relabelling π)) := by
  apply bindings_ofBindings
  have hkeys := θ.nodup.map hπ
  rwa [List.map_map] at hkeys ⊢

theorem length_relabel (hπ : π.Injective) (θ : Substitution) :
    (θ.relabel π).length = θ.length := by
  rw [length, bindings_relabel hπ, List.length_map, length]

theorem relabel_congr {π' : Var → Var} (h : ∀ v ∈ θ.occurrences, π v = π' v) :
    θ.relabel π = θ.relabel π' := by
  unfold relabel
  apply congrArg ofBindings
  apply List.map_congr_left
  intro b hb
  have hocc : ∀ v ∈ b.1 :: b.2.occurrences, π v = π' v := by
    intro v hv
    exact h v (List.mem_flatMap.mpr ⟨b, hb, hv⟩)
  rw [Prod.mk.injEq]
  refine ⟨hocc b.1 (by simp), Expr.bind_congr fun v hv => ?_⟩
  exact congrArg Term.var (hocc v (by simp [hv]))

theorem relabel_id (θ : Substitution) : θ.relabel id = θ := by
  ext1
  simp [bindings_relabel Function.injective_id, Expr.bind_relabelling_id]

theorem weight_relabel (hπ : π.Injective) (θ : Substitution) :
    (θ.relabel π).weight = θ.weight := by
  simp [weight, bindings_relabel hπ, Function.comp_def, Expr.size_relabelling]

theorem get?_relabel (hπ : π.Injective) (θ : Substitution) (v : Var) :
    (θ.relabel π).get? (π v) = (θ.get? v).map (Expr.bind (relabelling π)) := by
  rw [get?, get?, bindings_relabel hπ]
  generalize θ.bindings = bindings
  induction bindings with
  | nil => rfl
  | cons b bindings ih =>
    obtain ⟨w, e⟩ := b
    by_cases hv : v = w
    · simp [hv]
    · have hv' : (v == w) = false := by simpa using hv
      have hne : (π v == π w) = false := by simpa using fun h => hv (hπ h)
      rw [List.map_cons, List.lookup_cons, List.lookup_cons, hv', hne]
      exact ih

theorem relabel_add (hπ : π.Injective) {v : Var} (h : θ.get? v = none) (e : Expr) :
    (θ.add v e).relabel π = (θ.relabel π).add (π v) (e.bind (relabelling π)) := by
  have hfree : (θ.relabel π).get? (π v) = none := by rw [get?_relabel hπ, h, Option.map_none]
  ext1
  rw [bindings_add hfree, bindings_relabel hπ, bindings_relabel hπ, bindings_add h,
    List.map_append, List.map_singleton]

theorem reaches_relabel (hπ : π.Injective) (θ : Substitution) (target : Var) (links : ℕ)
    (v : Var) : (θ.relabel π).reaches (π target) links (π v) = θ.reaches target links v := by
  have hbeq : ∀ u w, (π u == π w) = (u == w) := by
    intro u w
    rw [Bool.eq_iff_iff, beq_iff_eq, beq_iff_eq]
    exact hπ.eq_iff
  induction links generalizing v with
  | zero => exact hbeq v target
  | succ links ih =>
    rw [reaches, reaches, hbeq, get?_relabel hπ]
    cases θ.get? v with
    | none => rfl
    | some e =>
      simp only [Option.map_some, Expr.occurrences_relabelling, List.any_map]
      congr 1
      exact congrArg (List.any e.occurrences) (funext ih)

theorem occursIn_relabel (hπ : π.Injective) (θ : Substitution) (v : Var) (e : Expr) :
    (θ.relabel π).occursIn (π v) (e.bind (relabelling π)) = θ.occursIn v e := by
  rw [occursIn, occursIn, Expr.occurrences_relabelling, List.any_map, length_relabel hπ]
  exact congrArg (List.any e.occurrences) (funext (reaches_relabel hπ θ v θ.length))

end Substitution

def Clash.relabel (π : Var → Var) : Clash → Clash
  | .occurs v value => .occurs (π v) (value.bind (relabelling π))
  | .symbols left right => .symbols left right
  | .arities left right => .arities left right
  | .kinds => .kinds
  | .endless => .endless

namespace Unification

/-- What a comparison of relabelled expressions gives. -/
def relabel (π : Var → Var) : Except Clash Substitution → Except Clash Substitution
  | .ok θ => .ok (θ.relabel π)
  | .error clash => .error (clash.relabel π)

section Parts

variable {π : Var → Var} (hπ : π.Injective)

include hπ

theorem bind_relabel {v : Var} {θ : Substitution} (hv : θ.get? v = none) (e : Expr) :
    bind (π v) (e.bind (relabelling π)) (θ.relabel π) = relabel π (bind v e θ) := by
  have hself : (e.bind (relabelling π)).asVar? = some (π v) ↔ e.asVar? = some v := by
    rw [Expr.asVar?_relabelling, Option.map_eq_some_iff]
    constructor
    · rintro ⟨w, hw, hwv⟩
      rw [hw, hπ hwv]
    · intro h
      exact ⟨v, h, rfl⟩
  unfold bind
  rw [Substitution.occursIn_relabel hπ]
  by_cases h : e.asVar? = some v
  · rw [if_pos h, if_pos (hself.mpr h)]
    rfl
  · rw [if_neg h, if_neg (mt hself.mp h)]
    split_ifs
    · rfl
    · rw [relabel, Substitution.relabel_add hπ hv]

theorem bound?_relabel (θ : Substitution) (e : Expr) :
    bound? (θ.relabel π) (e.bind (relabelling π)) =
      (bound? θ e).map (Expr.bind (relabelling π)) := by
  rw [bound?, bound?, Expr.asVar?_relabelling]
  cases e.asVar? with
  | none => rfl
  | some v => exact Substitution.get?_relabel hπ θ v

end Parts

section Lists

variable {π : Var → Var} {pair : Term → Term → Substitution → Except Clash Substitution}

theorem pairwise_relabel
    (hpair : ∀ x y θ, pair (x.bind (relabelling π)) (y.bind (relabelling π)) (θ.relabel π) =
      relabel π (pair x y θ)) (xs ys : List Term) (θ : Substitution) :
    pairwise pair (xs.map (Term.bind (relabelling π))) (ys.map (Term.bind (relabelling π)))
      (θ.relabel π) = relabel π (pairwise pair xs ys θ) := by
  induction xs generalizing ys θ with
  | nil => rfl
  | cons x xs ih =>
    cases ys with
    | nil => rfl
    | cons y ys =>
      rw [List.map_cons, List.map_cons, pairwise, pairwise, hpair]
      cases pair x y θ with
      | ok τ => exact ih ys τ
      | error clash => rfl

theorem applications_relabel
    (hpair : ∀ x y θ, pair (x.bind (relabelling π)) (y.bind (relabelling π)) (θ.relabel π) =
      relabel π (pair x y θ)) (f : Symbol) (xs : List Term) (g : Symbol) (ys : List Term)
    (θ : Substitution) :
    applications pair f (xs.map (Term.bind (relabelling π))) g
      (ys.map (Term.bind (relabelling π))) (θ.relabel π) =
        relabel π (applications pair f xs g ys θ) := by
  unfold applications
  rw [List.length_map, List.length_map, pairwise_relabel hpair]
  split_ifs <;> rfl

end Lists

section Comparisons

variable {π : Var → Var} (hπ : π.Injective)

include hπ

theorem within_relabel (depth : ℕ) (a b : Expr) (θ : Substitution) :
    within depth (a.bind (relabelling π)) (b.bind (relabelling π)) (θ.relabel π) =
      relabel π (within depth a b θ) := by
  induction depth generalizing a b θ with
  | zero => rfl
  | succ depth ih =>
    have hpair := fun x y θ => ih (.term x) (.term y) θ
    cases situation θ a b with
    | @boundLeft v e b hv =>
      have hv' : (θ.relabel π).get? (π v) = some (e.bind (relabelling π)) := by
        rw [Substitution.get?_relabel hπ, hv, Option.map_some]
      rw [within_boundLeft hv, ← ih]
      exact within_boundLeft hv'
    | @boundRight a e v ha hv =>
      have hv' : (θ.relabel π).get? (π v) = some (e.bind (relabelling π)) := by
        rw [Substitution.get?_relabel hπ, hv, Option.map_some]
      have ha' : bound? (θ.relabel π) (a.bind (relabelling π)) = none := by
        rw [bound?_relabel hπ, ha, Option.map_none]
      rw [within_boundRight ha hv, ← ih]
      exact within_boundRight ha' hv'
    | @freeLeft v b hv hb =>
      have hv' : (θ.relabel π).get? (π v) = none := by
        rw [Substitution.get?_relabel hπ, hv, Option.map_none]
      have hb' : bound? (θ.relabel π) (b.bind (relabelling π)) = none := by
        rw [bound?_relabel hπ, hb, Option.map_none]
      rw [within_freeLeft hv hb, ← bind_relabel hπ hv]
      exact within_freeLeft hv' hb'
    | @freeRight a v ha hv =>
      have hv' : (θ.relabel π).get? (π v) = none := by
        rw [Substitution.get?_relabel hπ, hv, Option.map_none]
      have ha' : (a.bind (relabelling π)).asVar? = none := by
        rw [Expr.asVar?_relabelling, ha, Option.map_none]
      rw [within_freeRight ha hv, ← bind_relabel hπ hv]
      exact within_freeRight ha' hv'
    | terms f xs g ys =>
      rw [within_terms, ← applications_relabel hpair, Expr.bind, Expr.bind, Expr.mapTerms,
        Expr.mapTerms, Term.bind_app, Term.bind_app, within_terms]
    | atoms p q =>
      rw [within_atoms, ← applications_relabel hpair]
      exact within_atoms _ _
    | termAtom f xs q =>
      rw [within_termAtom, Expr.bind, Expr.bind, Expr.mapTerms, Expr.mapTerms, Term.bind_app,
        within_termAtom]
      rfl
    | atomTerm p g ys =>
      rw [within_atomTerm, Expr.bind, Expr.bind, Expr.mapTerms, Expr.mapTerms, Term.bind_app,
        within_atomTerm]
      rfl

end Comparisons

end Unification

/-- Unification of relabelled expressions is unification, relabelled. -/
theorem unify_relabel {π : Var → Var} (hπ : π.Injective) (a b : Expr) (θ : Substitution) :
    unify (a.bind (relabelling π)) (b.bind (relabelling π)) (θ.relabel π) =
      Unification.relabel π (unify a b θ) := by
  unfold unify
  rw [Expr.size_relabelling, Expr.size_relabelling, Substitution.weight_relabel hπ,
    Unification.within_relabel hπ, Unification.within_relabel hπ]
  cases Unification.within Unification.shallowDepth a b θ with
  | ok σ => rfl
  | error clash => cases clash <;> rfl

theorem unify_atoms_relabel {π : Var → Var} (hπ : π.Injective) (p q : Atom) (θ : Substitution) :
    unify (.atom (p.bind (relabelling π))) (.atom (q.bind (relabelling π))) (θ.relabel π) =
      Unification.relabel π (unify (.atom p) (.atom q) θ) :=
  unify_relabel hπ (.atom p) (.atom q) θ

namespace Node

variable {π π' : Var → Var}

def relabel (π : Var → Var) : Node → Node
  | .ready goal i parent => .ready (goal.bind (relabelling π)) i (parent.relabel π)
  | .inBody goal i parent body =>
    .inBody (goal.bind (relabelling π)) i (parent.relabel π) (body.relabel π)
  | .single first => .single (first.relabel π)
  | .opening first remaining => .opening (first.relabel π) (remaining.bind (relabelling π))
  | .paired first remaining rest =>
    .paired (first.relabel π) (remaining.bind (relabelling π)) (rest.relabel π)

theorem relabel_congr {node : Node} (h : ∀ v ∈ node.occurrences, π v = π' v) :
    node.relabel π = node.relabel π' := by
  have hbind : ∀ v, π v = π' v → relabelling π v = relabelling π' v := fun v => congrArg Term.var
  induction node with
  | ready goal i parent =>
    simp only [occurrences, List.mem_append] at h
    rw [relabel, relabel, Atom.bind_congr fun v hv => hbind v (h v (Or.inl hv)),
      Substitution.relabel_congr fun v hv => h v (Or.inr hv)]
  | inBody goal i parent body ih =>
    simp only [occurrences, List.mem_append] at h
    rw [relabel, relabel, Atom.bind_congr fun v hv => hbind v (h v (Or.inl (Or.inl hv))),
      Substitution.relabel_congr fun v hv => h v (Or.inl (Or.inr hv)),
      ih fun v hv => h v (Or.inr hv)]
  | single first ih => rw [relabel, relabel, ih h]
  | opening first remaining ih =>
    simp only [occurrences, List.mem_append] at h
    rw [relabel, relabel, ih fun v hv => h v (Or.inl hv),
      Formula.bind_congr fun v hv => hbind v (h v (Or.inr hv))]
  | paired first remaining rest ihfirst ihrest =>
    simp only [occurrences, List.mem_append] at h
    rw [relabel, relabel, ihfirst fun v hv => h v (Or.inl (Or.inl hv)),
      Formula.bind_congr fun v hv => hbind v (h v (Or.inl (Or.inr hv))),
      ihrest fun v hv => h v (Or.inr hv)]

theorem relabel_id (node : Node) : node.relabel id = node := by
  induction node with
  | ready goal i parent => rw [relabel, Atom.bind_relabelling_id, Substitution.relabel_id]
  | inBody goal i parent body ih =>
    rw [relabel, Atom.bind_relabelling_id, Substitution.relabel_id, ih]
  | single first ih => rw [relabel, ih]
  | opening first remaining ih => rw [relabel, ih, Formula.bind_relabelling_id]
  | paired first remaining rest ihfirst ihrest =>
    rw [relabel, ihfirst, Formula.bind_relabelling_id, ihrest]

end Node

def Outcome.relabel (π : Var → Var) : Outcome → Outcome
  | .solution σ => .solution (σ.relabel π)
  | .exhausted => .exhausted
  | .failed e => .failed e

@[simp] theorem Outcome.relabel_eq_failed {π : Var → Var} {o : Outcome} {e : Misuse} :
    o.relabel π = .failed e ↔ o = .failed e := by
  cases o <;> simp [relabel]

theorem Outcome.relabel_id (o : Outcome) : o.relabel id = o := by
  cases o with
  | solution σ => rw [relabel, Substitution.relabel_id]
  | exhausted => rfl
  | failed e => rfl

theorem Outcome.relabel_congr {π π' : Var → Var} {o : Outcome}
    (h : ∀ v ∈ o.occurrences, π v = π' v) : o.relabel π = o.relabel π' := by
  cases o with
  | solution σ => exact congrArg Outcome.solution (Substitution.relabel_congr h)
  | exhausted => rfl
  | failed e => rfl

end HornResolution
