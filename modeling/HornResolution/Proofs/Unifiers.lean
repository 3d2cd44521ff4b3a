import HornResolution.Proofs.EagerSubstitution
import HornResolution.Proofs.MostGeneral

/-!
# What unifiers do to expressions

Under a substitution of terms, a unifier of two expressions makes them identical once it is
applied. Two terms or two atoms are compared through terms alone, and there the claim is one
about valuations. A term and an atom can be unified only if the term leads to an unbound
variable, which is then bound to the atom. Such a binding shows in bare expressions only: inside
a term the variable is kept.

The same division shows that bindings may be followed late. Whether two expressions are unified
under a substitution or their instances are unified without one, the replacements in the
results are the same, and so are the failures.
-/

namespace HornResolution

open Unification

section Instances

variable {ρ : Var → Term}

theorem Atom.mem_occurrences_bind {v : Var} {a : Atom} :
    v ∈ (a.bind ρ).occurrences ↔ ∃ u ∈ a.occurrences, v ∈ (ρ u).occurrences := by
  simp only [Atom.occurrences, Atom.bind, Atom.mapTerms, List.flatMap_map, List.mem_flatMap,
    Term.mem_occurrences_bind]
  constructor
  · rintro ⟨s, hs, u, hu, hv⟩
    exact ⟨u, ⟨s, hs, hu⟩, hv⟩
  · rintro ⟨u, ⟨s, hs, hu⟩, hv⟩
    exact ⟨s, hs, u, hu, hv⟩

theorem Expr.bind_eq_of_eval {a b : Expr} (hsort : SameSort a b)
    (h : a.eval (treeValuation ρ) = b.eval (treeValuation ρ)) : a.bind ρ = b.bind ρ := by
  cases a with
  | term s =>
    cases b with
    | term t =>
      rw [Expr.eval, Expr.eval, ← Term.tree_bind, ← Term.tree_bind] at h
      exact congrArg Expr.term (Term.tree_injective h)
    | atom q => simp [SameSort, Expr.asTerm?] at hsort
  | atom p =>
    cases b with
    | term t => simp [SameSort, Expr.asTerm?] at hsort
    | atom q => exact congrArg Expr.atom (Atom.eval_bind_inj.mp h)

end Instances

namespace Substitution

variable {θ : Substitution} {v : Var} {e : Expr} {t : Term} {q : Atom}

section Application

theorem Regular.apply_eq_bind (hθ : θ.Regular) (e : Expr) : e.apply θ = e.bind θ.resolved := by
  rw [Expr.apply_eq_bind, hθ.bind_walk]

@[simp] theorem resolved_empty (v : Var) : empty.resolved v = .var v := resolved_of_free rfl

theorem bind_resolved_empty (e : Expr) : e.bind empty.resolved = e := by
  have hid : empty.resolved = relabelling id := funext resolved_empty
  rw [hid, Expr.bind_relabelling_id]

theorem bound?_empty (e : Expr) : bound? empty e = none := by
  rw [bound?, Option.bind_eq_none_iff]
  exact fun _ _ => rfl

theorem Regular.exists_walk_term (hθ : θ.Regular) (t : Term) :
    ∃ s, θ.walk (.term t) = .term s := by
  have hbind := hθ.bind_walk (.term t)
  rcases hwalk : θ.walk (.term t) with s | p
  · exact ⟨s, rfl⟩
  · simp [hwalk, Expr.bind, Expr.mapTerms] at hbind

theorem Regular.occursIn_atom (hθ : θ.Regular) (hv : θ.get? v = none) :
    θ.occursIn v (.atom q) = true ↔ v ∈ (q.bind θ.resolved).occurrences := by
  rw [hθ.acyclic.occursIn_iff, Atom.mem_occurrences_bind]
  simp only [hθ.mem_resolved hv]
  rfl

end Application

section AtomBindings

theorem Acyclic.resolved_add_atom (hθ : θ.Acyclic) (hv : θ.get? v = none)
    (hocc : θ.occursIn v (.atom q) = false) (w : Var) :
    (θ.add v (.atom q)).resolved w = θ.resolved w := by
  have hadd := hθ.add hocc
  induction w using hadd.wellFounded.induction with
  | h w ih =>
    by_cases hwv : w = v
    · subst hwv
      rw [resolved_of_atom (get?_add_self hv), resolved_of_free hv]
    · have hsame : (θ.add v (.atom q)).get? w = θ.get? w := get?_add_of_ne hwv
      cases hw : θ.get? w with
      | none => rw [resolved_of_free (hsame.trans hw), resolved_of_free hw]
      | some e =>
        cases e with
        | term t =>
          rw [hadd.resolved_of_term (hsame.trans hw), hθ.resolved_of_term hw]
          apply Term.bind_congr
          intro u hu
          exact ih u ⟨_, hsame.trans hw, hu⟩
        | atom p => rw [resolved_of_atom (hsame.trans hw), resolved_of_atom hw]

theorem Acyclic.walk_walk_add (hθ : θ.Acyclic) (hv : θ.get? v = none) {value : Expr}
    (hocc : θ.occursIn v value = false) (e : Expr) :
    (θ.add v value).walk (θ.walk e) = (θ.add v value).walk e := by
  induction e using hθ.chainInduction with
  | free e he => rw [walk_of_free he]
  | bound w e hw ih =>
    have hwv : w ≠ v := by
      rintro rfl
      simp [hv] at hw
    rw [hθ.walk_of_bound hw, ih, (hθ.add hocc).walk_of_bound ((get?_add_of_ne hwv).trans hw)]

theorem Acyclic.walk_add_atom (hθ : θ.Acyclic) (hv : θ.get? v = none)
    (hocc : θ.occursIn v (.atom q) = false) (h : θ.walk e = .term (.var v)) :
    (θ.add v (.atom q)).walk e = .atom q := by
  rw [← hθ.walk_walk_add hv hocc, h, (hθ.add hocc).walk_of_bound (get?_add_self hv),
    walk_of_free rfl]

theorem Acyclic.walk_add_atom_of_ne (hθ : θ.Acyclic) (hv : θ.get? v = none)
    (hocc : θ.occursIn v (.atom q) = false) (h : θ.walk e ≠ .term (.var v)) :
    (θ.add v (.atom q)).walk e = θ.walk e := by
  have hfree := hθ.bound?_walk e
  rw [← hθ.walk_walk_add hv hocc]
  apply walk_of_free
  generalize θ.walk e = head at h hfree
  rcases head with (w | ⟨f, xs⟩) | p
  · have hwv : w ≠ v := fun heq => h (by rw [heq])
    rw [bound?_var] at hfree ⊢
    exact (get?_add_of_ne hwv).trans hfree
  · rfl
  · rfl

end AtomBindings

end Substitution

namespace Unification

open Substitution

variable {θ σ : Substitution} {a b : Expr} {v : Var} {q : Atom}

theorem bind_atom (v : Var) (q : Atom) (θ : Substitution) :
    Unification.bind v (.atom q) θ =
      if θ.occursIn v (.atom q) then .error (.occurs v (.atom q)) else .ok (θ.add v (.atom q)) :=
  if_neg (by simp [Expr.asVar?])

/-- A term meets an atom, from either side. An unbound variable to which the term leads is bound
to the atom, and nothing else is done. -/
inductive Encounters (θ : Substitution) (t : Term) (q : Atom) : Except Clash Substitution → Prop
  | bind {v : Var} (hwalk : θ.walk (.term t) = .term (.var v)) (hv : θ.get? v = none) :
      Encounters θ t q (Unification.bind v (.atom q) θ)
  | kinds {f : Symbol} {xs : List Term} (hwalk : θ.walk (.term t) = .term (.app f xs)) :
      Encounters θ t q (.error .kinds)

theorem encounters_unify (hθ : θ.Regular) (t : Term) (q : Atom) :
    ∃ r, Encounters θ t q r ∧ unify (.term t) (.atom q) θ = r ∧
      unify (.atom q) (.term t) θ = r := by
  have hfree := hθ.acyclic.bound?_walk (.term t)
  have hatom : θ.walk (.atom q) = .atom q := walk_of_free rfl
  obtain ⟨s, hwalk⟩ := hθ.exists_walk_term t
  rw [← unify_walk hθ.acyclic (.term t), ← unify_walk hθ.acyclic (.atom q), hwalk, hatom]
  rw [hwalk] at hfree
  cases s with
  | var v =>
    exact ⟨_, .bind hwalk hfree, unify_freeLeft hθ.acyclic hfree rfl,
      unify_freeRight hθ.acyclic rfl hfree⟩
  | app f xs =>
    exact ⟨_, .kinds hwalk, unify_termAtom hθ.acyclic f xs q, unify_atomTerm hθ.acyclic q f xs⟩

/-- Any two expressions are two terms or two atoms, or a term meets an atom. -/
theorem sameSort_or_encounters (hθ : θ.Regular) (a b : Expr) :
    SameSort a b ∨ ∃ t q, Encounters θ t q (unify a b θ) ∧
      (a = .term t ∧ b = .atom q ∨ a = .atom q ∧ b = .term t) := by
  cases a with
  | term s =>
    cases b with
    | term t => exact Or.inl rfl
    | atom q =>
      obtain ⟨r, hr, hleft, -⟩ := encounters_unify hθ s q
      exact Or.inr ⟨s, q, hleft ▸ hr, Or.inl ⟨rfl, rfl⟩⟩
  | atom p =>
    cases b with
    | term t =>
      obtain ⟨r, hr, -, hright⟩ := encounters_unify hθ t p
      exact Or.inr ⟨t, p, hright ▸ hr, Or.inr ⟨rfl, rfl⟩⟩
    | atom q => exact Or.inl rfl

theorem regular_unify (hθ : θ.Regular) (hsort : SameSort a b) (h : unify a b θ = .ok σ) :
    σ.Regular :=
  ⟨invariant_acyclic.unify trivial hθ.acyclic h, invariant_termValued.unify hsort hθ.termValued h⟩

end Unification

section Identical

open Substitution

variable {θ σ : Substitution} {a b : Expr} {t : Term} {q : Atom}

theorem apply_eq_of_sameSort (hθ : θ.Regular) (hsort : SameSort a b) (h : unify a b θ = .ok σ) :
    a.apply σ = b.apply σ := by
  have hσ := regular_unify hθ hsort h
  have hsatisfies := (hσ.acyclic.instantiates_resolve hσ.termValued).satisfies
  rw [hσ.apply_eq_bind, hσ.apply_eq_bind]
  exact Expr.bind_eq_of_eval hsort ((satisfies_unify h).mp hsatisfies).2

theorem Unification.Encounters.apply_eq (hθ : θ.Acyclic) (h : Encounters θ t q (.ok σ)) :
    (Expr.term t).apply σ = (Expr.atom q).apply σ := by
  generalize hr : Except.ok σ = r at h
  cases h with
  | @bind v hwalk hv =>
    obtain ⟨-, hvar⟩ | ⟨rfl, hocc⟩ := bind_ok hr.symm
    · simp [Expr.asVar?] at hvar
    · rw [Expr.apply_eq_bind, Expr.apply_eq_bind, hθ.walk_add_atom hv hocc hwalk,
        walk_of_free rfl]
  | kinds hwalk => simp at hr

/-- A unifier makes the two sides identical. Under an acyclic substitution of terms, whatever two
expressions are unified, terms or atoms in any combination, applying the result to the one side
gives the same as applying it to the other. -/
theorem unify_equalizes (hθ : θ.Regular) (h : unify a b θ = .ok σ) : a.apply σ = b.apply σ := by
  obtain hsort | ⟨t, q, hmeets, ⟨rfl, rfl⟩ | ⟨rfl, rfl⟩⟩ := sameSort_or_encounters hθ a b
  · exact apply_eq_of_sameSort hθ hsort h
  · exact (h ▸ hmeets).apply_eq hθ.acyclic
  · exact ((h ▸ hmeets).apply_eq hθ.acyclic).symm

/-- A variable bound to another one, and a variable bound to a term with the first in it. -/
def linkedBindings : Substitution :=
  (Substitution.empty.add ⟨0⟩ (.term (.var ⟨1⟩))).add ⟨2⟩ (.term (.app ⟨5⟩ [.var ⟨0⟩]))

theorem regular_linkedBindings : linkedBindings.Regular :=
  (regular_empty.add (by decide)).add (by decide)

/-- Two terms that meet at the end of a chain, and a variable at whose end there is an atom. -/
theorem unify_equalizes_linkedBindings :
    (Expr.term (.var ⟨2⟩)).apply (linkedBindings.add ⟨1⟩ (.term (.app ⟨6⟩ [.var ⟨3⟩]))) =
        (Expr.term (.app ⟨5⟩ [.app ⟨6⟩ [.var ⟨3⟩]])).apply
          (linkedBindings.add ⟨1⟩ (.term (.app ⟨6⟩ [.var ⟨3⟩]))) ∧
      (Expr.term (.var ⟨0⟩)).apply (linkedBindings.add ⟨1⟩ (.atom ⟨⟨7⟩, [.var ⟨3⟩]⟩)) =
        (Expr.atom ⟨⟨7⟩, [.var ⟨3⟩]⟩).apply (linkedBindings.add ⟨1⟩ (.atom ⟨⟨7⟩, [.var ⟨3⟩]⟩)) :=
  ⟨unify_equalizes regular_linkedBindings (by decide),
    unify_equalizes regular_linkedBindings (by decide)⟩

end Identical

/-- Two failures of one kind, at the same symbols, arities or variable. The value in which a
variable occurs is shown as it stands there, and that may differ. -/
inductive Clash.SameCause : Clash → Clash → Prop
  | occurs (v : Var) (e e' : Expr) : SameCause (.occurs v e) (.occurs v e')
  | symbols (f g : Symbol) : SameCause (.symbols f g) (.symbols f g)
  | arities (m n : ℕ) : SameCause (.arities m n) (.arities m n)
  | kinds : SameCause .kinds .kinds

section Eager

open Substitution

variable {θ : Substitution} {a b : Expr} {t : Term} {q : Atom} {v : Var}

/-- What came of a comparison under a substitution, and of a comparison of instances without
one: the second result goes on from where the substitution ended, or both failed alike. -/
inductive GoesOn (θ : Substitution) :
    Except Clash Substitution → Except Clash Substitution → Prop
  | ok {σ τ : Substitution} (happly : ∀ x : Expr, x.apply σ = (x.apply θ).apply τ)
      (hlength : σ.length = θ.length + τ.length) : GoesOn θ (.ok σ) (.ok τ)
  | error {clash clash' : Clash} (h : clash.SameCause clash') :
      GoesOn θ (.error clash) (.error clash')

theorem goesOn_of_concordant (hθ : θ.Regular) {r r' : Except Clash Substitution}
    (h : Concordant θ .empty r r') : GoesOn θ r r' := by
  cases h with
  | @ok σ τ μ hσ hτ hlength =>
    refine .ok (fun x => ?_) (by simpa [length, empty, add_comm] using hlength)
    have hμ : τ.resolved = μ := by
      funext v
      rw [hτ.resolved, resolved_empty, Term.bind_var]
    rw [hσ.regular.apply_eq_bind, hθ.apply_eq_bind, hτ.regular.apply_eq_bind, Expr.bind_bind, hμ]
    exact Expr.bind_congr fun v _ => hσ.resolved v
  | symbols f g => exact .error (.symbols f g)
  | arities m n => exact .error (.arities m n)
  | occurs v e e' => exact .error (.occurs v e e')

theorem goesOn_bind_atom (hθ : θ.Regular) (hv : θ.get? v = none) (q : Atom) :
    GoesOn θ (Unification.bind v (.atom q) θ)
      (Unification.bind v (.atom (q.bind θ.resolved)) .empty) := by
  have hocc : θ.occursIn v (.atom q) = empty.occursIn v (.atom (q.bind θ.resolved)) := by
    have hinstance : (q.bind θ.resolved).bind empty.resolved = q.bind θ.resolved :=
      Expr.atom.inj (bind_resolved_empty (.atom (q.bind θ.resolved)))
    rw [Bool.eq_iff_iff, hθ.occursIn_atom hv, regular_empty.occursIn_atom rfl, hinstance]
  rw [bind_atom, bind_atom, ← hocc]
  split_ifs with hoccurs
  · exact .error (.occurs v _ _)
  · have hfalse : θ.occursIn v (.atom q) = false := by simpa using hoccurs
    have hfalse' : empty.occursIn v (.atom (q.bind θ.resolved)) = false := hocc ▸ hfalse
    refine .ok (fun x => ?_) (by rw [length_add hv, length_add rfl]; rfl)
    have hresolved := funext (hθ.acyclic.resolved_add_atom hv hfalse)
    have hresolved' := funext (acyclic_empty.resolved_add_atom rfl hfalse')
    rw [Expr.apply_eq_bind, Expr.apply_eq_bind _ (x.apply θ), hresolved, hresolved',
      bind_resolved_empty]
    have hempty : empty.walk (x.apply θ) = x.apply θ := walk_of_free (bound?_empty _)
    by_cases hx : θ.walk x = .term (.var v)
    · have hvar : x.apply θ = .term (.var v) := by
        rw [Expr.apply_eq_bind, hx]
        exact congrArg Expr.term (resolved_of_free hv)
      rw [hθ.acyclic.walk_add_atom hv hfalse hx,
        acyclic_empty.walk_add_atom rfl hfalse' (hempty.trans hvar)]
      rfl
    · have hvar : x.apply θ ≠ .term (.var v) :=
        fun h => hx (eq_var_of_bind (hθ.acyclic.bound?_walk x) h)
      rw [hθ.acyclic.walk_add_atom_of_ne hv hfalse hx,
        acyclic_empty.walk_add_atom_of_ne rfl hfalse' (hempty ▸ hvar), hempty, Expr.apply_eq_bind]

theorem goesOn_of_encounters (hθ : θ.Regular) {t' : Term} {r r' : Except Clash Substitution}
    (ht : (Expr.term t).apply θ = .term t') (h : Encounters θ t q r)
    (h' : Encounters .empty t' (q.bind θ.resolved) r') : GoesOn θ r r' := by
  have hempty : empty.walk (.term t') = .term t' := walk_of_free (bound?_empty _)
  rw [Expr.apply_eq_bind] at ht
  cases h with
  | @bind v hwalk hv =>
    rw [hwalk] at ht
    obtain rfl : Term.var v = t' := Expr.term.inj (resolved_of_free hv ▸ ht)
    cases h' with
    | bind hwalk' _ =>
      obtain ⟨rfl⟩ : v = _ := by simpa [hempty] using hwalk'
      exact goesOn_bind_atom hθ hv q
    | kinds hwalk' => simp [hempty] at hwalk'
  | kinds hwalk =>
    rw [hwalk] at ht
    cases h' with
    | bind hwalk' _ =>
      rw [hempty] at hwalk'
      simp [← ht, Expr.bind, Expr.mapTerms] at hwalk'
    | kinds _ => exact .error .kinds

theorem goesOn_unify (hθ : θ.Regular) (a b : Expr) :
    GoesOn θ (unify a b θ) (unify (a.apply θ) (b.apply θ) .empty) := by
  have hinstance (e : Expr) : e.bind θ.resolved = (e.apply θ).bind empty.resolved := by
    rw [bind_resolved_empty, hθ.apply_eq_bind]
  obtain hsort | ⟨t, q, hmeets, hab⟩ := sameSort_or_encounters hθ a b
  · exact goesOn_of_concordant hθ
      (unify_concordant hθ regular_empty hsort (hinstance a) (hinstance b))
  · have ht : (Expr.term t).apply θ = .term (t.bind θ.resolved) := hθ.apply_eq_bind _
    have hq : (Expr.atom q).apply θ = .atom (q.bind θ.resolved) := hθ.apply_eq_bind _
    obtain ⟨r, hr, hleft, hright⟩ :=
      encounters_unify regular_empty (t.bind θ.resolved) (q.bind θ.resolved)
    obtain ⟨rfl, rfl⟩ | ⟨rfl, rfl⟩ := hab
    · rw [ht, hq, hleft]
      exact goesOn_of_encounters hθ ht hmeets hr
    · rw [ht, hq, hright]
      exact goesOn_of_encounters hθ ht hmeets hr

/-- Lazy unification agrees with eager substitution. Under an acyclic substitution of terms two
expressions are unified if and only if their instances are unified without bindings. Both
results then do the same to every expression, and the first has as many bindings as the
substitution and the second result together. If they fail, they fail in the same way: at the
same symbols, arities or variable. -/
theorem unify_iff_unify_instances (hθ : θ.Regular) (a b : Expr) :
    ((∃ σ, unify a b θ = .ok σ) ↔ ∃ τ, unify (a.apply θ) (b.apply θ) .empty = .ok τ) ∧
      (∀ σ τ, unify a b θ = .ok σ → unify (a.apply θ) (b.apply θ) .empty = .ok τ →
        (∀ x : Expr, x.apply σ = (x.apply θ).apply τ) ∧ σ.length = θ.length + τ.length) ∧
      ∀ clash clash', unify a b θ = .error clash →
        unify (a.apply θ) (b.apply θ) .empty = .error clash' → clash.SameCause clash' := by
  have h := goesOn_unify hθ a b
  generalize unify a b θ = r, unify (a.apply θ) (b.apply θ) .empty = r' at h ⊢
  cases h with
  | ok happly hlength => simpa using ⟨happly, hlength⟩
  | error h => simpa using h

/-- The first unification binds the last variable of a chain to an atom. The second one fails,
because that variable occurs in the atom once the bindings are followed, and the value is shown
as it was written in the one comparison and as an instance in the other. -/
theorem unify_iff_unify_instances_linkedBindings :
    (∀ x : Expr, x.apply (linkedBindings.add ⟨1⟩ (.atom ⟨⟨7⟩, [.var ⟨3⟩]⟩)) =
        (x.apply linkedBindings).apply (.add .empty ⟨1⟩ (.atom ⟨⟨7⟩, [.var ⟨3⟩]⟩))) ∧
      unify (.atom ⟨⟨7⟩, [.var ⟨2⟩]⟩) (.term (.var ⟨0⟩)) linkedBindings =
        .error (.occurs ⟨1⟩ (.atom ⟨⟨7⟩, [.var ⟨2⟩]⟩)) ∧
      Clash.SameCause (.occurs ⟨1⟩ (.atom ⟨⟨7⟩, [.var ⟨2⟩]⟩))
        (.occurs ⟨1⟩ (.atom ⟨⟨7⟩, [.app ⟨5⟩ [.var ⟨1⟩]]⟩)) := by
  have hfails : unify (.atom ⟨⟨7⟩, [.var ⟨2⟩]⟩) (.term (.var ⟨0⟩)) linkedBindings =
      .error (.occurs ⟨1⟩ (.atom ⟨⟨7⟩, [.var ⟨2⟩]⟩)) := by decide
  refine ⟨?_, hfails, ?_⟩
  · exact ((unify_iff_unify_instances regular_linkedBindings (.term (.var ⟨0⟩))
      (.atom ⟨⟨7⟩, [.var ⟨3⟩]⟩)).2.1 _ _ (by decide) (by decide)).1
  · exact (unify_iff_unify_instances regular_linkedBindings (.atom ⟨⟨7⟩, [.var ⟨2⟩]⟩)
      (.term (.var ⟨0⟩))).2.2 _ _ hfails (by decide)

end Eager

end HornResolution
