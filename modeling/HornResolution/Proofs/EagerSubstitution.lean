import HornResolution.Proofs.HeadForms
import HornResolution.Proofs.Relabelling

/-!
# Unification under bindings and unification of instances

Bindings are followed only where a comparison meets them. The alternative is to replace all
bound variables before the comparison starts. Under substitutions of terms both ways come to
the same: what a comparison does depends on the fully resolved forms of its two sides only. If
two substitutions resolve two pairs of expressions to the same, they are extended by the same
replacement of variables, or both comparisons fail in the same way.
-/

namespace HornResolution

open Unification

section Occurrences

variable {ρ : Var → Term} {v : Var}

theorem Term.mem_occurrences_bind {t : Term} :
    v ∈ (t.bind ρ).occurrences ↔ ∃ u ∈ t.occurrences, v ∈ (ρ u).occurrences := by
  induction t using Term.induction with
  | var w => simp
  | app f args ih =>
    simp only [bind_app, occurrences_app, List.mem_flatMap, List.mem_map]
    constructor
    · rintro ⟨_, ⟨t, ht, rfl⟩, hv⟩
      obtain ⟨u, hu, hv⟩ := (ih t ht).mp hv
      exact ⟨u, ⟨t, ht, hu⟩, hv⟩
    · rintro ⟨u, ⟨t, ht, hu⟩, hv⟩
      exact ⟨_, ⟨t, ht, rfl⟩, (ih t ht).mpr ⟨u, hu, hv⟩⟩

/-- One variable replaced by a term. -/
def replacing (v : Var) (t : Term) (w : Var) : Term := if w = v then t else .var w

theorem Term.bind_replacing_of_not_mem {s t : Term} (h : v ∉ s.occurrences) :
    s.bind (replacing v t) = s := by
  calc
    s.bind (replacing v t) = s.bind (relabelling id) := by
      apply Term.bind_congr
      intro u hu
      have huv : u ≠ v := fun heq => h (heq ▸ hu)
      exact if_neg huv
    _ = s := Term.bind_relabelling_id s

end Occurrences

namespace Substitution

variable {θ : Substitution} {v w : Var} {e : Expr} {t : Term}

/-- A substitution of terms that resolves every variable completely. -/
structure Regular (θ : Substitution) : Prop where
  acyclic : θ.Acyclic
  termValued : θ.TermValued

theorem regular_empty : empty.Regular := ⟨acyclic_empty, by simp [TermValued]⟩

theorem Regular.add (hθ : θ.Regular) (hocc : θ.occursIn v (.term t) = false) :
    (θ.add v (.term t)).Regular :=
  ⟨hθ.acyclic.add hocc, hθ.termValued.add rfl⟩

section Resolving

theorem Regular.resolved_value (hθ : θ.Regular) (h : θ.get? v = some e) :
    e.bind θ.resolved = .term (θ.resolved v) := by
  obtain ⟨t, rfl⟩ := hθ.termValued v e h
  rw [hθ.acyclic.resolved_of_term h]
  rfl

theorem Regular.mem_resolved (hθ : θ.Regular) (hv : θ.get? v = none) :
    v ∈ (θ.resolved w).occurrences ↔ Relation.ReflTransGen θ.Leads w v := by
  induction w using hθ.acyclic.wellFounded.induction with
  | h w ih =>
    cases hw : θ.get? w with
    | none =>
      rw [resolved_of_free hw, Term.occurrences_var, List.mem_singleton]
      constructor
      · rintro rfl
        exact .refl
      · intro hpath
        rcases hpath.cases_head with rfl | ⟨u, ⟨e, he, -⟩, -⟩
        · rfl
        · simp [hw] at he
    | some e =>
      obtain ⟨t, rfl⟩ := hθ.termValued w e hw
      rw [hθ.acyclic.resolved_of_term hw, Term.mem_occurrences_bind]
      constructor
      · rintro ⟨u, hu, hvu⟩
        have hlink : θ.Leads w u := ⟨_, hw, hu⟩
        exact .head hlink ((ih u hlink).mp hvu)
      · intro hpath
        rcases hpath.cases_head with rfl | ⟨u, hlink, hpath⟩
        · simp [hw] at hv
        · obtain ⟨e, he, hu⟩ := id hlink
          obtain rfl := Option.some.inj (hw.symm.trans he)
          exact ⟨u, hu, (ih u hlink).mpr hpath⟩

theorem Regular.occursIn_eq (hθ : θ.Regular) (hv : θ.get? v = none) :
    θ.occursIn v (.term t) = true ↔ v ∈ (t.bind θ.resolved).occurrences := by
  rw [hθ.acyclic.occursIn_iff, Term.mem_occurrences_bind]
  simp only [hθ.mem_resolved hv]
  rfl

theorem Regular.resolved_add (hθ : θ.Regular) (hv : θ.get? v = none)
    (hocc : θ.occursIn v (.term t) = false) (w : Var) :
    (θ.add v (.term t)).resolved w =
      (θ.resolved w).bind (replacing v (t.bind θ.resolved)) := by
  have hadd := hθ.add hocc
  have hbound : (θ.add v (.term t)).get? v = some (.term t) := get?_add_self hv
  induction w using hadd.acyclic.wellFounded.induction with
  | h w ih =>
    by_cases hwv : w = v
    · subst hwv
      rw [hadd.acyclic.resolved_of_term hbound, resolved_of_free hv, Term.bind_var, replacing,
        if_pos rfl]
      apply Term.bind_congr
      intro u hu
      rw [ih u ⟨_, hbound, hu⟩]
      apply Term.bind_replacing_of_not_mem
      intro hmem
      have hoccurs := (hθ.occursIn_eq hv).mpr (Term.mem_occurrences_bind.mpr ⟨u, hu, hmem⟩)
      rw [hocc] at hoccurs
      simp at hoccurs
    · have hsame : (θ.add v (.term t)).get? w = θ.get? w := get?_add_of_ne hwv
      cases hw : θ.get? w with
      | none =>
        rw [resolved_of_free (hsame.trans hw), resolved_of_free hw, Term.bind_var, replacing,
          if_neg hwv]
      | some e =>
        obtain ⟨s, rfl⟩ := hθ.termValued w e hw
        have hw' := hsame.trans hw
        rw [hadd.acyclic.resolved_of_term hw', hθ.acyclic.resolved_of_term hw, Term.bind_bind]
        apply Term.bind_congr
        intro u hu
        exact ih u ⟨_, hw', hu⟩

end Resolving

section Heads

theorem Regular.bind_walk (hθ : θ.Regular) (e : Expr) :
    (θ.walk e).bind θ.resolved = e.bind θ.resolved := by
  induction e using hθ.acyclic.chainInduction with
  | free e he => rw [walk_of_free he]
  | bound v e hv ih =>
    rw [hθ.acyclic.walk_of_bound hv, ih, hθ.resolved_value hv]
    rfl

theorem eq_var_of_bind (hfree : bound? θ e = none) (h : e.bind θ.resolved = .term (.var v)) :
    e = .term (.var v) := by
  rcases e with (w | ⟨f, xs⟩) | p
  · rw [bound?_var] at hfree
    rw [← h]
    exact congrArg Expr.term (resolved_of_free hfree).symm
  · simp [Expr.bind, Expr.mapTerms] at h
  · simp [Expr.bind, Expr.mapTerms] at h

theorem Regular.walk_eq_var (hθ : θ.Regular) (h : e.bind θ.resolved = .term (.var v)) :
    θ.walk e = .term (.var v) ∧ θ.get? v = none := by
  have hfree := hθ.acyclic.bound?_walk e
  have hwalk := eq_var_of_bind hfree ((hθ.bind_walk e).trans h)
  rw [hwalk] at hfree
  exact ⟨hwalk, hfree⟩

theorem Regular.walk_eq_app (hθ : θ.Regular) {ρ : Var → Term} {f : Symbol} {xs : List Term}
    (h : (Expr.term (.app f xs)).bind ρ = e.bind θ.resolved) :
    ∃ ys, θ.walk e = .term (.app f ys) ∧
      xs.map (Term.bind ρ) = ys.map (Term.bind θ.resolved) := by
  have hfree := hθ.acyclic.bound?_walk e
  rw [← hθ.bind_walk] at h
  generalize θ.walk e = head at h hfree ⊢
  rcases head with (w | ⟨g, ys⟩) | p
  · rw [bound?_var] at hfree
    simp [Expr.bind, Expr.mapTerms, resolved_of_free hfree] at h
  · obtain ⟨rfl, hargs⟩ : f = g ∧ xs.map (Term.bind ρ) = ys.map (Term.bind θ.resolved) := by
      simpa [Expr.bind, Expr.mapTerms] using h
    exact ⟨ys, rfl, hargs⟩
  · simp [Expr.bind, Expr.mapTerms] at h

end Heads

end Substitution

namespace Unification

open Substitution

/-- A substitution that resolves every variable as another one does, with variables replaced. -/
structure Refines (σ σ' : Substitution) (μ : Var → Term) : Prop where
  regular : σ'.Regular
  resolved : ∀ v, σ'.resolved v = (σ.resolved v).bind μ

/-- The results of two comparisons under different substitutions. Either both substitutions are
extended by as many bindings, which replace the same variables in the same way, or both
comparisons fail at the same symbols, arities or variable. -/
inductive Concordant (σ τ : Substitution) :
    Except Clash Substitution → Except Clash Substitution → Prop
  | ok {σ' τ' : Substitution} {μ : Var → Term} (hσ : Refines σ σ' μ) (hτ : Refines τ τ' μ)
      (hlength : σ'.length + τ.length = τ'.length + σ.length) : Concordant σ τ (.ok σ') (.ok τ')
  | symbols (f g : Symbol) : Concordant σ τ (.error (.symbols f g)) (.error (.symbols f g))
  | arities (m n : ℕ) : Concordant σ τ (.error (.arities m n)) (.error (.arities m n))
  | occurs (v : Var) (e e' : Expr) :
      Concordant σ τ (.error (.occurs v e)) (.error (.occurs v e'))

section Composition

variable {σ σ' σ'' τ τ' : Substitution} {μ ν : Var → Term} {t : Term}

theorem Refines.refl (hσ : σ.Regular) : Refines σ σ (relabelling id) :=
  ⟨hσ, fun _ => (Term.bind_relabelling_id _).symm⟩

theorem Refines.trans (h : Refines σ σ' μ) (h' : Refines σ' σ'' ν) :
    Refines σ σ'' fun v => (μ v).bind ν := by
  refine ⟨h'.regular, ?_⟩
  intro v
  rw [h'.resolved, h.resolved, Term.bind_bind]

theorem Refines.bind (h : Refines σ σ' μ) (t : Term) :
    t.bind σ'.resolved = (t.bind σ.resolved).bind μ := by
  rw [Term.bind_bind]
  exact Term.bind_congr fun v _ => h.resolved v

theorem Concordant.refl (hσ : σ.Regular) (hτ : τ.Regular) : Concordant σ τ (.ok σ) (.ok τ) :=
  .ok (.refl hσ) (.refl hτ) (Nat.add_comm _ _)

theorem Concordant.trans {r r' : Except Clash Substitution} (hσ : Refines σ σ' μ)
    (hτ : Refines τ τ' μ) (hlength : σ'.length + τ.length = τ'.length + σ.length)
    (h : Concordant σ' τ' r r') : Concordant σ τ r r' := by
  cases h with
  | ok hσ' hτ' hlength' => exact .ok (hσ.trans hσ') (hτ.trans hτ') (by omega)
  | symbols f g => exact .symbols f g
  | arities m n => exact .arities m n
  | occurs v e e' => exact .occurs v e e'

end Composition

section Comparison

variable {σ τ : Substitution} {v : Var} {s t : Term}

theorem asVar?_eq_iff (hfree : bound? σ (.term t) = none) :
    (Expr.term t).asVar? = some v ↔ t.bind σ.resolved = .var v := by
  cases t with
  | var w =>
    rw [bound?_var] at hfree
    simp [Expr.asVar?, Term.asVar?, resolved_of_free hfree]
  | app f xs => simp [Expr.asVar?, Term.asVar?]

theorem bind_concordant (hσ : σ.Regular) (hτ : τ.Regular) (hσv : σ.get? v = none)
    (hτv : τ.get? v = none) (hs : bound? σ (.term s) = none) (ht : bound? τ (.term t) = none)
    (hst : s.bind σ.resolved = t.bind τ.resolved) :
    Concordant σ τ (Unification.bind v (.term s) σ) (Unification.bind v (.term t) τ) := by
  have hself : (Expr.term s).asVar? = some v ↔ (Expr.term t).asVar? = some v := by
    rw [asVar?_eq_iff hs, asVar?_eq_iff ht, hst]
  have hocc : σ.occursIn v (.term s) = τ.occursIn v (.term t) := by
    rw [Bool.eq_iff_iff, hσ.occursIn_eq hσv, hτ.occursIn_eq hτv, hst]
  unfold Unification.bind
  rw [if_congr hself rfl rfl, ← hocc]
  split_ifs with hvar hoccurs
  · exact .refl hσ hτ
  · exact .occurs v _ _
  · have hfalse : σ.occursIn v (.term s) = false := by simpa using hoccurs
    have hfalse' : τ.occursIn v (.term t) = false := hocc ▸ hfalse
    refine .ok (μ := replacing v (s.bind σ.resolved)) ⟨hσ.add hfalse, ?_⟩ ⟨hτ.add hfalse', ?_⟩ ?_
    · exact hσ.resolved_add hσv hfalse
    · rw [hst]
      exact hτ.resolved_add hτv hfalse'
    · rw [length_add hσv, length_add hτv]
      omega

variable {pair pair' : Term → Term → Substitution → Except Clash Substitution}

/-- Two ways to compare pairs of terms agree on pairs that stand for the same. -/
def PairsConcordant (pair pair' : Term → Term → Substitution → Except Clash Substitution) : Prop :=
  ∀ x y x' y' σ τ, Regular σ → Regular τ → x.bind σ.resolved = x'.bind τ.resolved →
    y.bind σ.resolved = y'.bind τ.resolved → pair x y σ ≠ .error .endless →
    Concordant σ τ (pair x y σ) (pair' x' y' τ)

theorem pairwise_concordant (hpair : PairsConcordant pair pair') {xs ys xs' ys' : List Term}
    (hσ : σ.Regular) (hτ : τ.Regular)
    (hxs : xs.map (Term.bind σ.resolved) = xs'.map (Term.bind τ.resolved))
    (hys : ys.map (Term.bind σ.resolved) = ys'.map (Term.bind τ.resolved))
    (hne : pairwise pair xs ys σ ≠ .error .endless) :
    Concordant σ τ (pairwise pair xs ys σ) (pairwise pair' xs' ys' τ) := by
  induction xs generalizing ys xs' ys' σ τ with
  | nil =>
    obtain rfl : xs' = [] := by simpa using hxs.symm
    exact .refl hσ hτ
  | cons x xs ih =>
    cases xs' with
    | nil => simp at hxs
    | cons x' xs' =>
      cases ys with
      | nil =>
        obtain rfl : ys' = [] := by simpa using hys.symm
        exact .refl hσ hτ
      | cons y ys =>
        cases ys' with
        | nil => simp at hys
        | cons y' ys' =>
          obtain ⟨hx, hxs⟩ := List.cons.inj hxs
          obtain ⟨hy, hys⟩ := List.cons.inj hys
          rw [pairwise] at hne
          have hxy : pair x y σ ≠ .error .endless := by
            intro hend
            rw [hend] at hne
            exact hne rfl
          have hfirst := hpair x y x' y' σ τ hσ hτ hx hy hxy
          rw [pairwise, pairwise]
          generalize pair x y σ = r, pair' x' y' τ = r' at hne hfirst ⊢
          cases hfirst with
          | @ok σ' τ' μ hσ' hτ' hlength =>
            have hmap : ∀ {zs zs' : List Term},
                zs.map (Term.bind σ.resolved) = zs'.map (Term.bind τ.resolved) →
                zs.map (Term.bind σ'.resolved) = zs'.map (Term.bind τ'.resolved) := by
              intro zs zs' hzs
              have hreplaced := congrArg (List.map (Term.bind μ)) hzs
              rw [List.map_map, List.map_map] at hreplaced
              simpa only [Function.comp_def, ← hσ'.bind, ← hτ'.bind] using hreplaced
            exact .trans hσ' hτ' hlength
              (ih hσ'.regular hτ'.regular (hmap hxs) (hmap hys) hne)
          | symbols f g => exact .symbols f g
          | arities m n => exact .arities m n
          | occurs v e e' => exact .occurs v e e'

theorem applications_concordant (hpair : PairsConcordant pair pair') {f g : Symbol}
    {xs ys xs' ys' : List Term} (hσ : σ.Regular) (hτ : τ.Regular)
    (hxs : xs.map (Term.bind σ.resolved) = xs'.map (Term.bind τ.resolved))
    (hys : ys.map (Term.bind σ.resolved) = ys'.map (Term.bind τ.resolved))
    (hne : applications pair f xs g ys σ ≠ .error .endless) :
    Concordant σ τ (applications pair f xs g ys σ) (applications pair' f xs' g ys' τ) := by
  have hlength : xs.length = xs'.length := by simpa using congrArg List.length hxs
  have hlength' : ys.length = ys'.length := by simpa using congrArg List.length hys
  unfold applications at hne ⊢
  rw [← hlength, ← hlength']
  split_ifs at hne ⊢
  · exact .symbols f g
  · exact .arities _ _
  · exact pairwise_concordant hpair hσ hτ hxs hys hne

theorem exists_atom_of_bind {p : Atom} {e : Expr}
    (h : (Expr.atom p).bind σ.resolved = e.bind τ.resolved) :
    ∃ q, e = .atom q ∧ p.symbol = q.symbol ∧
      p.args.map (Term.bind σ.resolved) = q.args.map (Term.bind τ.resolved) := by
  rcases e with t | q
  · simp [Expr.bind, Expr.mapTerms] at h
  · exact ⟨q, rfl, by simpa [Expr.bind, Expr.mapTerms, Atom.mapTerms] using h⟩

/-- Comparisons of expressions that stand for the same. The first is followed call by call; of
the second only the head forms matter. -/
theorem within_concordant {depth : ℕ} {a b a' b' : Expr} (hσ : σ.Regular) (hτ : τ.Regular)
    (hsort : SameSort a b) (ha : a.bind σ.resolved = a'.bind τ.resolved)
    (hb : b.bind σ.resolved = b'.bind τ.resolved)
    (hne : within depth a b σ ≠ .error .endless) :
    Concordant σ τ (within depth a b σ) (unify a' b' τ) := by
  induction depth generalizing a b a' b' σ τ with
  | zero => simp [within] at hne
  | succ depth ih =>
    have hpair : PairsConcordant (fun x y => within depth (.term x) (.term y)) unifyTerms := by
      intro x y x' y' σ τ hσ hτ hx hy hne
      exact ih hσ hτ rfl (congrArg Expr.term hx) (congrArg Expr.term hy) hne
    cases situation σ a b with
    | @boundLeft v e b hv =>
      rw [within_boundLeft hv] at hne ⊢
      obtain ⟨t, rfl⟩ := hσ.termValued v e hv
      exact ih hσ hτ hsort ((hσ.resolved_value hv).trans ha) hb hne
    | @boundRight a e v hfree hv =>
      rw [within_boundRight hfree hv] at hne ⊢
      obtain ⟨t, rfl⟩ := hσ.termValued v e hv
      exact ih hσ hτ hsort ha ((hσ.resolved_value hv).trans hb) hne
    | @freeLeft v b hv hfree =>
      have hav : a'.bind τ.resolved = .term (.var v) :=
        ha.symm.trans (congrArg Expr.term (resolved_of_free hv))
      obtain ⟨hwalk, hτv⟩ := hτ.walk_eq_var hav
      have hfree' := hτ.acyclic.bound?_walk b'
      rw [within_freeLeft hv hfree, ← unify_walk hτ.acyclic, hwalk,
        unify_freeLeft hτ.acyclic hτv hfree']
      rw [← hτ.bind_walk b'] at hb
      generalize τ.walk b' = head at hb hfree' ⊢
      rcases b with s | q
      · rcases head with t | q
        · exact bind_concordant hσ hτ hv hτv hfree hfree' (Expr.term.inj hb)
        · simp [Expr.bind, Expr.mapTerms] at hb
      · simp [SameSort, Expr.asTerm?] at hsort
    | @freeRight a v hvar hv =>
      have hbv : b'.bind τ.resolved = .term (.var v) :=
        hb.symm.trans (congrArg Expr.term (resolved_of_free hv))
      obtain ⟨hwalk, hτv⟩ := hτ.walk_eq_var hbv
      rcases a with (w | ⟨f, xs⟩) | p
      · simp [Expr.asVar?, Term.asVar?] at hvar
      · obtain ⟨xs', hwalk', hxs⟩ := hτ.walk_eq_app ha
        rw [within_freeRight hvar hv, ← unify_walk hτ.acyclic, hwalk, hwalk',
          unify_freeRight hτ.acyclic rfl hτv]
        exact bind_concordant hσ hτ hv hτv rfl rfl (by rw [Term.bind_app, Term.bind_app, hxs])
      · simp [SameSort, Expr.asTerm?] at hsort
    | terms f xs g ys =>
      obtain ⟨xs', hwalk, hxs⟩ := hτ.walk_eq_app ha
      obtain ⟨ys', hwalk', hys⟩ := hτ.walk_eq_app hb
      rw [within_terms] at hne ⊢
      rw [← unify_walk hτ.acyclic, hwalk, hwalk', unify_terms hτ.acyclic]
      exact applications_concordant hpair hσ hτ hxs hys hne
    | atoms p q =>
      obtain ⟨p', rfl, hp⟩ := exists_atom_of_bind ha
      obtain ⟨q', rfl, hq⟩ := exists_atom_of_bind hb
      rw [within_atoms] at hne ⊢
      rw [unify_atoms hτ.acyclic, ← hp.1, ← hq.1]
      exact applications_concordant hpair hσ hτ hp.2 hq.2 hne
    | termAtom f xs q => simp [SameSort, Expr.asTerm?] at hsort
    | atomTerm p g ys => simp [SameSort, Expr.asTerm?] at hsort

end Comparison

end Unification

/-- Two terms or two atoms are unified under one substitution as two that stand for the same are
under another. -/
theorem unify_concordant {σ τ : Substitution} {a b a' b' : Expr} (hσ : σ.Regular)
    (hτ : τ.Regular) (hsort : SameSort a b) (ha : a.bind σ.resolved = a'.bind τ.resolved)
    (hb : b.bind σ.resolved = b'.bind τ.resolved) :
    Concordant σ τ (unify a b σ) (unify a' b' τ) := by
  obtain ⟨depth, hdepth, hne⟩ := exists_unify_eq_within hσ.acyclic a b
  rw [hdepth]
  exact within_concordant hσ hτ hsort ha hb hne

end HornResolution
