import HornResolution.Proofs.Completeness
import HornResolution.Proofs.EagerSubstitution

/-!
# Derivation trees

A derivation tree says by which clauses something is derived, and nothing of the instances or of
the order in which a search comes upon them. A search resolves the tree piece by piece: it tries
a copy of a clause, and what remains of the condition that there be such a derivation is a
condition on the body of the copy, under further bindings. Each such step keeps the valuations
that are possible, up to their values on what was allocated meanwhile.
-/

namespace HornResolution

/-- By which clauses of a program something is derived. -/
inductive Derivation where
  | fact (i : ℕ)
  | rule (i : ℕ) (body : Derivation)
  | conj (parts : List Derivation)

def Derivation.clause? : Derivation → Option ℕ
  | .fact i => some i
  | .rule i _ => some i
  | .conj _ => none

/-- The derivation, with suitable instances of its clauses, is one of the formula. -/
inductive Derives (P : Program) : Derivation → Formula → Prop
  | fact {i : ℕ} {c : Clause} {a : Atom} (hc : P.get? i = some c) (τ : Var → Term)
      (h : c.bind τ = .fact a) : Derives P (.fact i) (.atom a)
  | rule {i : ℕ} {c : Clause} {a : Atom} {body : Formula} {t : Derivation}
      (hc : P.get? i = some c) (τ : Var → Term) (h : c.bind τ = .rule a body)
      (hbody : Derives P t body) : Derives P (.rule i t) (.atom a)
  | conj {ts : List Derivation} {fs : List Formula} (hne : fs ≠ [])
      (h : List.Forall₂ (Derives P) ts fs) : Derives P (.conj ts) (.conj fs)

theorem Derives.exists_clause {P : Program} {e : Derivation} {a : Atom}
    (h : Derives P e (.atom a)) : ∃ i c, e.clause? = some i ∧ P.get? i = some c := by
  cases h with
  | fact hc _ _ => exact ⟨_, _, rfl, hc⟩
  | rule hc _ _ _ => exact ⟨_, _, rfl, hc⟩

abbrev Condition := (Var → Term) → Prop

/-- A moment of a run: what was allocated so far, and bindings of it that resolve completely. -/
structure Stage where
  vocabulary : Vocabulary
  bindings : Substitution
  regular : bindings.Regular
  allocated : vocabulary.Allocated bindings.occurrences

namespace Stage

variable {s s' s'' : Stage} {C D E : Condition} {ρ : Var → Term}

/-- The valuations that satisfy the bindings and a condition are those that satisfy the bindings
and the condition of a later stage, once they are given the right values on what was allocated
meanwhile. -/
structure Reduces (s : Stage) (C : Condition) (s' : Stage) (D : Condition) : Prop where
  grows : s.vocabulary.varCount ≤ s'.vocabulary.varCount
  sound : ∀ ρ, Instantiates ρ s'.bindings → D ρ → Instantiates ρ s.bindings ∧ C ρ
  complete : ∀ ρ, Instantiates ρ s.bindings → C ρ →
    ∃ ρ', AgreeOn s.vocabulary ρ' ρ ∧ Instantiates ρ' s'.bindings ∧ D ρ'

/-- The bindings of the later stage are all that remains of the condition. -/
def Settles (s : Stage) (C : Condition) (s' : Stage) : Prop := s.Reduces C s' fun _ => True

theorem Reduces.trans (h : s.Reduces C s' D) (h' : s'.Reduces D s'' E) : s.Reduces C s'' E := by
  refine ⟨h.grows.trans h'.grows, ?_, ?_⟩
  · intro ρ hρ hE
    obtain ⟨hρ', hD⟩ := h'.sound ρ hρ hE
    exact h.sound ρ hρ' hD
  · intro ρ hρ hC
    obtain ⟨ρ', hagree, hρ', hD⟩ := h.complete ρ hρ hC
    obtain ⟨ρ'', hagree', hρ'', hE⟩ := h'.complete ρ' hρ' hD
    exact ⟨ρ'', hagree'.trans hagree h.grows, hρ'', hE⟩

theorem reduces_of_iff (s : Stage) (h : ∀ ρ, C ρ ↔ D ρ) : s.Reduces C s D :=
  ⟨le_rfl, fun ρ hρ hD => ⟨hρ, (h ρ).mpr hD⟩,
    fun ρ hρ hC => ⟨ρ, fun _ _ => rfl, hρ, (h ρ).mp hC⟩⟩

/-- A further condition on what is allocated already is left as it is. -/
theorem Settles.frame (h : s.Settles C s')
    (hD : ∀ ρ ρ', AgreeOn s.vocabulary ρ' ρ → D ρ → D ρ') :
    s.Reduces (fun ρ => C ρ ∧ D ρ) s' D := by
  refine ⟨h.grows, ?_, ?_⟩
  · intro ρ hρ hDρ
    obtain ⟨hρs, hC⟩ := h.sound ρ hρ trivial
    exact ⟨hρs, hC, hDρ⟩
  · rintro ρ hρ ⟨hC, hDρ⟩
    obtain ⟨ρ', hagree, hρ', -⟩ := h.complete ρ hρ hC
    exact ⟨ρ', hagree, hρ', hD ρ ρ' hagree hDρ⟩

theorem Settles.exists_valuation (h : s.Settles C s') : ∃ ρ, Instantiates ρ s.bindings ∧ C ρ :=
  ⟨_, h.sound _ (s'.regular.acyclic.instantiates_resolve s'.regular.termValued) trivial⟩

theorem fits (s : Stage) (hρ : Instantiates ρ s.bindings) : Fits s.vocabulary s.bindings ρ :=
  ⟨s.regular.acyclic, s.regular.termValued, s.allocated, hρ⟩

/-- At or after the stage a copy of a clause is made. -/
def Copies (s : Stage) (P : Program) (i : ℕ) (copy : Clause) (V' : Vocabulary) : Prop :=
  ∃ c V, P.get? i = some c ∧ s.vocabulary.varCount ≤ V.varCount ∧
    c.standardizeApart V = (.ok copy, V')

end Stage

section Copies

variable {P : Program} {s : Stage} {goal head : Atom} {body : Formula} {i : ℕ} {copy : Clause}
  {V : Vocabulary} {σ : Substitution} {e : Derivation} {ρ : Var → Term}

theorem Stage.Copies.grows (h : s.Copies P i copy V) : s.vocabulary.varCount ≤ V.varCount := by
  obtain ⟨c, U, -, hU, hcopy⟩ := h
  exact hU.trans (Clause.varCount_le_standardizeApart hcopy)

theorem Stage.Copies.allocated (h : s.Copies P i copy V) : V.Allocated copy.occurrences := by
  obtain ⟨c, U, -, -, hcopy⟩ := h
  exact fun v hv => Clause.knowsVar_of_mem_copy hcopy hv

theorem Stage.Copies.exists_bind_eq (h : s.Copies P i copy V) (ρ : Var → Term) :
    ∃ c τ, P.get? i = some c ∧ c.bind τ = copy.bind ρ := by
  obtain ⟨c, U, hc, -, hcopy⟩ := h
  obtain ⟨-, r, rfl, -⟩ := Clause.standardizeApart_ok hcopy
  exact ⟨c, _, hc, (Clause.bind_rename r ρ c).symm⟩

/-- The stage after an atom was unified with the head of a copy. -/
def Stage.unified (h : s.Copies P i copy V) (hhead : head.occurrences ⊆ copy.occurrences)
    (hgoal : s.vocabulary.Allocated goal.occurrences)
    (hσ : unify (.atom goal) (.atom head) s.bindings = .ok σ) : Stage where
  vocabulary := V
  bindings := σ
  regular := ⟨Unification.invariant_acyclic.unify trivial s.regular.acyclic hσ,
    Unification.unify_termValued s.regular.termValued hσ⟩
  allocated := (Unification.invariant_occurrences fun v => V.knowsVar v = true).unify
    (a := .atom goal) (b := .atom head) ⟨hgoal.mono h.grows, h.allocated.subset hhead⟩
    (s.allocated.mono h.grows) hσ

/-- What remains of a derivation of an atom once a copy of its clause was tried. -/
inductive Remains (P : Program) (s : Stage) (goal : Atom) (i : ℕ) (copy : Clause)
    (ρ : Var → Term) : Derivation → Prop
  | fact {head : Atom} {σ : Substitution} {ρ' : Var → Term} (hcopy : copy = .fact head)
      (hσ : unify (.atom goal) (.atom head) s.bindings = .ok σ)
      (hagree : AgreeOn s.vocabulary ρ' ρ) (hρ' : Instantiates ρ' σ) :
      Remains P s goal i copy ρ (.fact i)
  | rule {head : Atom} {body : Formula} {σ : Substitution} {ρ' : Var → Term} {t : Derivation}
      (hcopy : copy = .rule head body)
      (hσ : unify (.atom goal) (.atom head) s.bindings = .ok σ)
      (hagree : AgreeOn s.vocabulary ρ' ρ) (hρ' : Instantiates ρ' σ)
      (hbody : Derives P t (body.bind ρ')) : Remains P s goal i copy ρ (.rule i t)

/-- If the atom has a derivation by a clause, the head of every copy of it unifies with the atom,
and the valuation can be extended so that the body has the rest of the derivation. -/
theorem Derives.remains (h : Derives P e (.atom (goal.bind ρ))) (hi : e.clause? = some i)
    (hcopy : s.Copies P i copy V) (hgoal : s.vocabulary.Allocated goal.occurrences)
    (hρ : Instantiates ρ s.bindings) : Remains P s goal i copy ρ e := by
  obtain ⟨c, U, hc, hU, hcopy⟩ := hcopy
  cases h with
  | @fact j c' a hc' τ hbind =>
    obtain rfl : j = i := Option.some.inj hi
    obtain rfl : c' = c := Option.some.inj (hc'.symm.trans hc)
    obtain ⟨ρ', hagree, hcopied, hunify⟩ := (s.fits hρ).exists_lift hgoal hU hcopy τ
    obtain ⟨head, rfl, hhead⟩ := Clause.bind_eq_fact (hcopied.trans hbind)
    obtain ⟨σ, hσ, hfits⟩ := hunify head (fun v hv => hv) hhead
    exact .fact rfl hσ hagree hfits.instantiates
  | @rule j c' a body t hc' τ hbind hbody =>
    obtain rfl : j = i := Option.some.inj hi
    obtain rfl : c' = c := Option.some.inj (hc'.symm.trans hc)
    obtain ⟨ρ', hagree, hcopied, hunify⟩ := (s.fits hρ).exists_lift hgoal hU hcopy τ
    obtain ⟨head, body', rfl, hhead, rfl⟩ := Clause.bind_eq_rule (hcopied.trans hbind)
    obtain ⟨σ, hσ, hfits⟩ := hunify head (fun v hv => List.mem_append_left _ hv) hhead
    exact .rule rfl hσ hagree hfits.instantiates hbody

theorem Remains.exists_unifier (h : Remains P s goal i copy ρ e) :
    ∃ head σ, copy.head? = some head ∧ unify (.atom goal) (.atom head) s.bindings = .ok σ := by
  cases h with
  | fact hcopy hσ _ _ => exact ⟨_, _, by rw [hcopy, Clause.head?], hσ⟩
  | rule hcopy hσ _ _ _ => exact ⟨_, _, by rw [hcopy, Clause.head?], hσ⟩

theorem settles_fact (hcopy : s.Copies P i (.fact head) V)
    (hgoal : s.vocabulary.Allocated goal.occurrences)
    (hσ : unify (.atom goal) (.atom head) s.bindings = .ok σ) :
    s.Settles (fun ρ => Derives P (.fact i) (.atom (goal.bind ρ)))
      (.unified hcopy (List.Subset.refl _) hgoal hσ) := by
  refine ⟨hcopy.grows, ?_, ?_⟩
  · intro ρ hρ _
    obtain ⟨hρs, heq⟩ := (Unification.instantiates_unify s.regular.termValued hσ).mp hρ
    obtain ⟨c, τ, hc, hτ⟩ := hcopy.exists_bind_eq ρ
    rw [heq]
    exact ⟨hρs, .fact hc τ hτ⟩
  · intro ρ hρ hderives
    cases hderives.remains rfl hcopy hgoal hρ with
    | fact hfact hσ' hagree hρ' =>
      obtain rfl := Clause.fact.inj hfact
      obtain rfl := Except.ok.inj (hσ.symm.trans hσ')
      exact ⟨_, hagree, hρ', trivial⟩

theorem reduces_rule (hcopy : s.Copies P i (.rule head body) V)
    (hgoal : s.vocabulary.Allocated goal.occurrences)
    (hσ : unify (.atom goal) (.atom head) s.bindings = .ok σ) (t : Derivation) :
    s.Reduces (fun ρ => Derives P (.rule i t) (.atom (goal.bind ρ)))
      (.unified hcopy (List.subset_append_left _ _) hgoal hσ)
      (fun ρ => Derives P t (body.bind ρ)) := by
  refine ⟨hcopy.grows, ?_, ?_⟩
  · intro ρ hρ hbody
    obtain ⟨hρs, heq⟩ := (Unification.instantiates_unify s.regular.termValued hσ).mp hρ
    obtain ⟨c, τ, hc, hτ⟩ := hcopy.exists_bind_eq ρ
    rw [heq]
    exact ⟨hρs, .rule hc τ hτ hbody⟩
  · intro ρ hρ hderives
    cases hderives.remains rfl hcopy hgoal hρ with
    | rule hrule hσ' hagree hρ' hbody =>
      obtain ⟨rfl, rfl⟩ := Clause.rule.inj hrule
      obtain rfl := Except.ok.inj (hσ.symm.trans hσ')
      exact ⟨_, hagree, hρ', hbody⟩

end Copies

end HornResolution
