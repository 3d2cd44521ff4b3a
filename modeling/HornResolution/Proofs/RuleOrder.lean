import HornResolution.Proofs.Adequacy
import HornResolution.Proofs.Soundness

/-!
# The order of the rules is only the order of the answers

Two programs with the same rules in different orders do the same things at different times, and
every copy of a rule gets other variables. If the search of the one comes to its end, so does
that of the other, and the solutions of the two correspond one to one, each being a relabelled
form of its partner.

The two runs of the depth-first interpreter are compared by a link: an injective map of those
variables that have a meaning in both. A copy that both have made of a rule extends the link by
its variables. What a rule comes to depends on the link only and not on the moment at which the
rule is tried, so it may be tried at its place in either program.
-/

namespace HornResolution

section Application

variable {π : Var → Var}

theorem Substitution.resolve_relabel (hπ : π.Injective) (θ : Substitution) (links : ℕ) (v : Var) :
    (θ.relabel π).resolve links (π v) = (θ.resolve links v).bind (relabelling π) := by
  induction links generalizing v with
  | zero => rfl
  | succ links ih =>
    rw [resolve, resolve, get?_relabel hπ]
    rcases θ.get? v with _ | t | a
    · rfl
    · simp only [Option.map_some, Expr.bind, Expr.mapTerms]
      rw [Term.bind_bind, Term.bind_bind]
      exact Term.bind_congr fun w _ => ih w
    · rfl

theorem Formula.apply_relabel (hπ : π.Injective) (θ : Substitution) (f : Formula) :
    (f.bind (relabelling π)).apply (θ.relabel π) = (f.apply θ).bind (relabelling π) := by
  rw [apply_eq_bind, apply_eq_bind, Formula.bind_bind, Formula.bind_bind,
    Substitution.length_relabel hπ]
  exact bind_congr fun v _ => Substitution.resolve_relabel hπ θ θ.length v

theorem Formula.bind_relabelling_of_fixed {f : Formula} (h : ∀ v ∈ f.occurrences, π v = v) :
    f.bind (relabelling π) = f := by
  calc f.bind (relabelling π) = f.bind (relabelling id) :=
        bind_congr fun v hv => congrArg Term.var (h v hv)
    _ = f := f.bind_relabelling_id

end Application

/-- An injective map of the variables, and the variables for which it says what their partners
are. -/
structure Link where
  map : Var → Var
  domain : List Var
  injective : map.Injective

namespace Link

variable {P : Program} {l l' : Link} {V V' W W' : Vocabulary} {goal : Atom} {θ : Substitution}

/-- A greater link has further variables. -/
instance : Preorder Link where
  le l l' := l.domain ⊆ l'.domain ∧ ∀ v ∈ l.domain, l'.map v = l.map v
  le_refl l := ⟨List.Subset.refl _, fun _ _ => rfl⟩
  le_trans l l' l'' h h' :=
    ⟨List.Subset.trans h.1 h'.1, fun v hv => (h'.2 v (h.1 hv)).trans (h.2 v hv)⟩

theorem relabel_eq_of_le (h : l ≤ l') (hθ : θ.occurrences ⊆ l.domain) :
    θ.relabel l.map = θ.relabel l'.map :=
  Substitution.relabel_congr fun v hv => (h.2 v (hθ hv)).symm

theorem bindAtom_eq_of_le (h : l ≤ l') (hgoal : goal.occurrences ⊆ l.domain) :
    goal.bind (relabelling l.map) = goal.bind (relabelling l'.map) :=
  Atom.bind_congr fun v hv => congrArg Term.var (h.2 v (hgoal hv)).symm

theorem bind_eq_of_le (h : l ≤ l') {f : Formula} (hf : f.occurrences ⊆ l.domain) :
    f.bind (relabelling l.map) = f.bind (relabelling l'.map) :=
  Formula.bind_congr fun v hv => congrArg Term.var (h.2 v (hf hv)).symm

theorem exists_of_injOn {f : Var → Var} {vs : List Var} (hf : Set.InjOn f {v | v ∈ vs})
    (hvs : W.Allocated (vs.map f)) : ∃ l : Link, l.domain = vs ∧ ∀ v ∈ vs, l.map v = f v := by
  -- All other variables are sent beyond what the vocabulary has allocated.
  let g (v : Var) : Var := if v ∈ vs then f v else ⟨W.varCount + v.id⟩
  have hapart : ∀ v ∈ vs, ∀ w : Var, f v ≠ ⟨W.varCount + w.id⟩ := by
    intro v hv w h
    have hlt := Vocabulary.knowsVar_iff.mp (hvs _ (List.mem_map_of_mem hv))
    rw [h] at hlt
    exact absurd hlt (Nat.not_lt.mpr (Nat.le_add_right _ _))
  have hg : g.Injective := by
    intro v w h
    simp only [g] at h
    split_ifs at h with hv hw hw
    · exact hf hv hw h
    · exact absurd h (hapart v hv w)
    · exact absurd h.symm (hapart w hw v)
    · obtain ⟨n⟩ := v
      obtain ⟨m⟩ := w
      simpa using h
  exact ⟨⟨g, vs, hg⟩, rfl, fun v hv => if_pos hv⟩

/-- A link between what two vocabularies have allocated. Both know the rules. -/
structure Joins (l : Link) (P : Program) (V W : Vocabulary) : Prop where
  allocated : V.Allocated l.domain
  allocated' : W.Allocated (l.domain.map l.map)
  known : P.KnownIn V
  known' : P.KnownIn W

theorem Joins.mono (h : l.Joins P V W) (hV : V.varCount ≤ V'.varCount)
    (hW : W.varCount ≤ W'.varCount) : l.Joins P V' W' :=
  ⟨h.allocated.mono hV, h.allocated'.mono hW, h.known.mono hV, h.known'.mono hW⟩

/-- The copies that both vocabularies make of a rule extend the link. -/
theorem Joins.exists_copies (h : l.Joins P V W) {rule copy : Clause} (hrule : rule ∈ P.clauses)
    (hcopy : rule.standardizeApart V = (.ok copy, V')) :
    ∃ l' W', l ≤ l' ∧ copy.occurrences ⊆ l'.domain ∧ l'.Joins P V' W' ∧
      rule.standardizeApart W = (.ok (copy.bind (relabelling l'.map)), W') := by
  let f := realign l.map V W
  obtain ⟨copy₁, V₁, W', hcopy₁, hcopy', haligned⟩ :=
    (aligned_realign h.known h.known' l.map).exists_copies hrule
  obtain ⟨rfl, rfl⟩ : copy₁ = copy ∧ V₁ = V' := by simpa [hcopy₁] using hcopy
  have hold : ∀ v ∈ l.domain, f v = l.map v := fun v hv => realign_of_knows (h.allocated v hv)
  have hinj : Set.InjOn f {v | v ∈ l.domain ++ copy₁.occurrences} := by
    refine realign_injOn l.injective ?_
    intro v hv hknown
    rcases List.mem_append.mp hv with hv | hv
    · exact h.allocated' _ (List.mem_map_of_mem hv)
    · have hlt := Vocabulary.knowsVar_iff.mp hknown
      exact absurd (Clause.le_of_mem_copy hcopy hv) (Nat.not_le.mpr hlt)
  have hvs : W'.Allocated ((l.domain ++ copy₁.occurrences).map f) := by
    rw [List.map_append, Vocabulary.allocated_append, List.map_congr_left hold,
      ← Clause.occurrences_relabelling]
    exact ⟨h.allocated'.mono (Clause.varCount_le_standardizeApart hcopy'),
      fun w hw => Clause.knowsVar_of_mem_copy hcopy' hw⟩
  obtain ⟨l', hdomain, hmap⟩ := exists_of_injOn hinj hvs
  refine ⟨l', W', ⟨?_, ?_⟩, ?_, ⟨?_, ?_, haligned.known, haligned.known'⟩, ?_⟩
  · rw [hdomain]
    exact List.subset_append_left _ _
  · intro v hv
    rw [hmap v (List.mem_append_left _ hv), hold v hv]
  · rw [hdomain]
    exact List.subset_append_right _ _
  · rw [hdomain, Vocabulary.allocated_append]
    exact ⟨h.allocated.mono (Clause.varCount_le_standardizeApart hcopy),
      fun w hw => Clause.knowsVar_of_mem_copy hcopy hw⟩
  · rwa [hdomain, List.map_congr_left hmap]
  · have hbind : copy₁.bind (relabelling f) = copy₁.bind (relabelling l'.map) :=
      Clause.bind_congr fun v hv =>
        congrArg Term.var (hmap v (List.mem_append_right _ hv)).symm
    rw [hcopy', hbind]

end Link

namespace DepthFirst

section Matching

variable {α β : Type*} {R : α → β → Prop} {xs xs' : List α} {ys ys' : List β}

/-- The lists correspond one to one: the second is the first in some order, with a related entry
in place of each one. -/
def Matched (R : α → β → Prop) (xs : List α) (ys : List β) : Prop :=
  ∃ permuted, xs.Perm permuted ∧ List.Forall₂ R permuted ys

theorem Matched.append (h : Matched R xs ys) (h' : Matched R xs' ys') :
    Matched R (xs ++ xs') (ys ++ ys') := by
  obtain ⟨zs, hperm, hrel⟩ := h
  obtain ⟨zs', hperm', hrel'⟩ := h'
  exact ⟨zs ++ zs', hperm.append hperm', List.rel_append hrel hrel'⟩

theorem Matched.of_perm (hperm : xs.Perm xs') (h : Matched R xs' ys) : Matched R xs ys := by
  obtain ⟨zs, hzs, hrel⟩ := h
  exact ⟨zs, hperm.trans hzs, hrel⟩

theorem Matched.length_eq (h : Matched R xs ys) : xs.length = ys.length := by
  obtain ⟨zs, hperm, hrel⟩ := h
  exact hperm.length_eq.trans hrel.length_eq

end Matching

abbrev Pairing := Substitution × Vocabulary → Substitution × Vocabulary → Prop

variable {P Q : Program} {R : Pairing} {l l' : Link} {d : ℕ} {goal : Atom} {θ : Substitution}
  {k k' : Continuation Substitution} {V W : Vocabulary}

/-- If the first run comes to its end, so does the second, and their solutions correspond. -/
def Trace.Matches (R : Pairing) (t t' : Trace Substitution) : Prop :=
  t.Finished → t'.Finished ∧ Matched R t.entries t'.entries

theorem Trace.matches_done (R : Pairing) (V W : Vocabulary) : (done V).Matches R (done W) :=
  fun _ => ⟨⟨W, rfl⟩, [], .nil, .nil⟩

/-- Continuations that make matching runs of linked solutions, whatever further variables these
have. -/
structure Continuation.Matches (P : Program) (R : Pairing) (l : Link)
    (k k' : Continuation Substitution) : Prop where
  grows : k.Grows
  grows' : k'.Grows
  run : ∀ ⦃l' V W σ⦄, l ≤ l' → l'.Joins P V W → σ.occurrences ⊆ l'.domain →
    (k σ V).Matches R (k' (σ.relabel l'.map) W)

theorem Continuation.Matches.mono (hk : Continuation.Matches P R l k k') (h : l ≤ l') :
    Continuation.Matches P R l' k k' :=
  ⟨hk.grows, hk.grows', fun _ _ _ _ hle => hk.run (h.trans hle)⟩

/-- The runs of two programs for a goal and its linked form match, whatever is done with the
solutions. -/
def Corresponds (P Q : Program) (R : Pairing) (d : ℕ) (f : Formula) : Prop :=
  ∀ ⦃l V W θ k k'⦄, Link.Joins l P V W → f.occurrences ⊆ l.domain → θ.occurrences ⊆ l.domain →
    Continuation.Matches P R l k k' →
      (solve P halting d f θ k V).Matches R
        (solve Q halting d (f.bind (relabelling l.map)) (θ.relabel l.map) k' W)

section Rules

theorem matches_tryRule (hbodies : ∀ f, Corresponds P Q R d f) (hjoins : l.Joins P V W)
    (hgoal : goal.occurrences ⊆ l.domain) (hθ : θ.occurrences ⊆ l.domain) {copy : Clause}
    (hcopy : copy.occurrences ⊆ l.domain) (hk : Continuation.Matches P R l k k') :
    (tryRule (solve P halting d) goal θ k copy V).Matches R
      (tryRule (solve Q halting d) (goal.bind (relabelling l.map)) (θ.relabel l.map) k'
        (copy.bind (relabelling l.map)) W) := by
  have hσ {head : Atom} {σ : Substitution} (hhead : head.occurrences ⊆ l.domain)
      (h : unify (.atom goal) (.atom head) θ = .ok σ) : σ.occurrences ⊆ l.domain :=
    (Unification.invariant_occurrences (· ∈ l.domain)).unify (a := .atom goal) (b := .atom head)
      ⟨fun _ hv => hgoal hv, fun _ hv => hhead hv⟩ (fun _ hv => hθ hv) h
  cases copy with
  | goal body => exact Trace.matches_done R V W
  | fact head =>
    rw [Clause.bind_fact, tryRule, tryRule, unify_atoms_relabel l.injective]
    cases h : unify (.atom goal) (.atom head) θ with
    | error clash => exact Trace.matches_done R V W
    | ok σ => exact hk.run le_rfl hjoins (hσ hcopy h)
  | rule head body =>
    obtain ⟨hhead, hbody⟩ := List.append_subset.mp hcopy
    rw [Clause.bind_rule, tryRule, tryRule, unify_atoms_relabel l.injective]
    cases h : unify (.atom goal) (.atom head) θ with
    | error clash => exact Trace.matches_done R V W
    | ok σ => exact hbodies body hjoins hbody (hσ hhead h) hk

/-- From a moment on, whenever the rule is tried for the atom, the run comes to its end and has
solutions that correspond to the given ones. -/
def Yields (R : Pairing) (enter : Solver Substitution) (goal : Atom) (θ : Substitution)
    (k : Continuation Substitution) (W : Vocabulary) (rule : Clause)
    (part : List (Substitution × Vocabulary)) : Prop :=
  ∀ W₁, W.varCount ≤ W₁.varCount → ∃ copy W₂, rule.standardizeApart W₁ = (.ok copy, W₂) ∧
    (tryRule enter goal θ k copy W₂).Finished ∧
    Matched R part (tryRule enter goal θ k copy W₂).entries

/-- A rule whose copy came to its end yields its solutions at any moment of the other run. -/
theorem yields_of_finished (hbodies : ∀ f, Corresponds P Q R d f) (hjoins : l.Joins P V W)
    (hgoal : goal.occurrences ⊆ l.domain) (hθ : θ.occurrences ⊆ l.domain)
    (hk : Continuation.Matches P R l k k') {rule copy : Clause} {V' : Vocabulary}
    (hrule : rule ∈ P.clauses) (hcopy : rule.standardizeApart V = (.ok copy, V'))
    (h : (tryRule (solve P halting d) goal θ k copy V').Finished) :
    Yields R (solve Q halting d) (goal.bind (relabelling l.map)) (θ.relabel l.map) k' W rule
      (tryRule (solve P halting d) goal θ k copy V').entries := by
  intro W₁ hW₁
  obtain ⟨l', W₂, hle, hvars, hjoins', hcopy'⟩ :=
    (hjoins.mono le_rfl hW₁).exists_copies hrule hcopy
  refine ⟨_, W₂, hcopy', ?_⟩
  rw [Link.bindAtom_eq_of_le hle hgoal, Link.relabel_eq_of_le hle hθ]
  exact matches_tryRule hbodies hjoins' (List.Subset.trans hgoal hle.1)
    (List.Subset.trans hθ hle.1) hvars (hk.mono hle) h

theorem exists_parts (hbodies : ∀ f, Corresponds P Q R d f) (hjoins : l.Joins P V W)
    (hgoal : goal.occurrences ⊆ l.domain) (hθ : θ.occurrences ⊆ l.domain)
    (hk : Continuation.Matches P R l k k') {rules : List Clause}
    (hrules : ∀ rule ∈ rules, rule ∈ P.clauses)
    (h : (tryRules (solve P halting d) goal θ k rules V).Finished) :
    ∃ parts, (tryRules (solve P halting d) goal θ k rules V).entries = parts.flatten ∧
      List.Forall₂
        (Yields R (solve Q halting d) (goal.bind (relabelling l.map)) (θ.relabel l.map) k' W)
        rules parts := by
  induction rules generalizing V with
  | nil => exact ⟨[], rfl, .nil⟩
  | cons rule rules ih =>
    rcases hcopy : rule.standardizeApart V with ⟨e | copy, V'⟩
    · rw [tryRules, hcopy] at h
      exact absurd h Trace.not_finished_failed
    · rw [tryRules_cons rules hcopy] at h ⊢
      obtain ⟨U, hU⟩ := h.left
      have hgrows : V.varCount ≤ U.varCount :=
        (Clause.varCount_le_standardizeApart hcopy).trans
          (tryRule_grows (solve_grows P d) hk.grows goal θ copy V' U hU)
      obtain ⟨parts, hparts, hyields⟩ := ih (hjoins.mono hgrows le_rfl)
        (fun r hr => hrules r (List.mem_cons_of_mem rule hr)) (h.right hU)
      have hyield :=
        yields_of_finished hbodies hjoins hgoal hθ hk (hrules rule (by simp)) hcopy h.left
      refine ⟨_, ?_, .cons hyield hyields⟩
      rw [Trace.andThen_of_exhausted _ hU, List.flatten_cons, hparts]

theorem matched_of_yields {enter : Solver Substitution} (henter : enter.Grows) (hk : k.Grows)
    {rules : List Clause} {parts : List (List (Substitution × Vocabulary))}
    (h : List.Forall₂ (Yields R enter goal θ k W) rules parts) (hW : W.varCount ≤ V.varCount) :
    (tryRules enter goal θ k rules V).Finished ∧
      Matched R parts.flatten (tryRules enter goal θ k rules V).entries := by
  induction h generalizing V with
  | nil => exact ⟨⟨V, rfl⟩, [], .nil, .nil⟩
  | @cons rule part rules parts hrule _ ih =>
    obtain ⟨copy, V', hcopy, ⟨U, hU⟩, hmatched⟩ := hrule V hW
    have hgrows : W.varCount ≤ U.varCount :=
      (hW.trans (Clause.varCount_le_standardizeApart hcopy)).trans
        (tryRule_grows henter hk goal θ copy V' U hU)
    obtain ⟨hrest, hmatched'⟩ := ih hgrows
    rw [tryRules_cons rules hcopy, Trace.andThen_of_exhausted _ hU]
    exact ⟨hrest, hmatched.append hmatched'⟩

end Rules

section Goals

theorem corresponds_atom (hPQ : P.clauses.Perm Q.clauses) (hbodies : ∀ f, Corresponds P Q R d f)
    (goal : Atom) : Corresponds P Q R (d + 1) (.atom goal) := by
  intro l V W θ k k' hjoins hgoal hθ hk h
  rw [Formula.occurrences_atom] at hgoal
  rw [Formula.bind_atom, solve_halting_atom]
  rw [solve_halting_atom] at h ⊢
  obtain ⟨parts, hparts, hyields⟩ :=
    exists_parts hbodies hjoins hgoal hθ hk (fun rule => Array.mem_toList_iff.mp) h
  obtain ⟨parts', hyields', hperm⟩ :=
    List.perm_comp_forall₂ (Array.perm_iff_toList_perm.mp hPQ).symm hyields
  obtain ⟨hfinished, hmatched⟩ :=
    matched_of_yields (solve_grows Q d) hk.grows' hyields' le_rfl
  refine ⟨hfinished, ?_⟩
  rw [hparts]
  exact hmatched.of_perm hperm.symm.flatten

theorem corresponds_conj {fs : List Formula} (hfs : ∀ f ∈ fs, Corresponds P Q R (d + 1) f) :
    Corresponds P Q R (d + 1) (.conj fs) := by
  induction fs with
  | nil =>
    intro l V W θ k k' _ _ _ _ h
    rw [solve, solveWith, solveOperands] at h
    exact absurd h Trace.not_finished_failed
  | cons f fs ih =>
    intro l V W θ k k' hjoins hvars hθ hk
    have hf := hfs f (by simp)
    have hothers := ih fun g hg => hfs g (List.mem_cons_of_mem f hg)
    have hfvars : f.occurrences ⊆ l.domain := fun v hv =>
      hvars (Formula.mem_occurrences_conj.mpr ⟨f, by simp, hv⟩)
    rw [Formula.bind_conj]
    cases fs with
    | nil =>
      rw [List.map_cons, List.map_nil, solve_single, solve_single]
      exact hf hjoins hfvars hθ hk
    | cons g gs =>
      have hgvars : (Formula.conj (g :: gs)).occurrences ⊆ l.domain := by
        intro v hv
        obtain ⟨f', hf', hv⟩ := Formula.mem_occurrences_conj.mp hv
        exact hvars (Formula.mem_occurrences_conj.mpr ⟨f', List.mem_cons_of_mem f hf', hv⟩)
      rw [List.map_cons, List.map_cons, solve_conj, solve_conj, ← List.map_cons,
        ← Formula.bind_conj]
      refine hf hjoins hfvars hθ ⟨?_, ?_, ?_⟩
      · exact fun σ U => solve_grows P (d + 1) _ σ k U hk.grows
      · exact fun σ U => solve_grows Q (d + 1) _ σ k' U hk.grows'
      · intro l' V' W' σ hle hjoins' hσ
        rw [Link.bind_eq_of_le hle hgvars]
        exact hothers hjoins' (List.Subset.trans hgvars hle.1) hσ (hk.mono hle)

/-- The runs of two programs that differ in the order of the rules match for every goal, by
induction on their depth and then on the goal. -/
theorem corresponds (hPQ : P.clauses.Perm Q.clauses) (R : Pairing) (d : ℕ) (f : Formula) :
    Corresponds P Q R d f := by
  induction d generalizing f with
  | zero =>
    intro l V W θ k k' _ _ _ _ h
    exact absurd h Trace.not_finished_unfinished
  | succ d hbodies =>
    induction f using Formula.induction with
    | atom a => exact corresponds_atom hPQ hbodies a
    | conj fs ih => exact corresponds_conj ih
    | disj fs _ =>
      intro l V W θ k k' _ _ _ _ h
      rw [solve, solveWith] at h
      exact absurd h Trace.not_finished_failed
    | neg f _ =>
      intro l V W θ k k' _ _ _ _ h
      rw [solve, solveWith] at h
      exact absurd h Trace.not_finished_failed

end Goals

end DepthFirst

section Answers

open DepthFirst

variable {P Q : Program} {goal : Formula} {θ : Substitution} {node : Node} {V W : Vocabulary}

/-- Two solutions that answer a goal in the same way: an injective map of the variables, which
keeps those that were allocated before the search, takes the one to the other, and the goal under
the one to the goal under the other. -/
def SameAnswer (V : Vocabulary) (goal : Formula) (σ τ : Substitution) : Prop :=
  ∃ π : Var → Var, π.Injective ∧ (∀ v, V.knowsVar v = true → π v = v) ∧
    τ = σ.relabel π ∧ goal.apply τ = (goal.apply σ).bind (relabelling π)

/-- The link of a vocabulary with itself, which keeps all that is allocated. -/
def Link.same (V : Vocabulary) : Link :=
  ⟨id, (List.range V.varCount).map Var.mk, Function.injective_id⟩

theorem Link.mem_same {v : Var} : v ∈ (Link.same V).domain ↔ V.knowsVar v = true := by
  rw [Vocabulary.knowsVar_iff]
  constructor
  · intro hv
    obtain ⟨n, hn, rfl⟩ := List.mem_map.mp hv
    exact List.mem_range.mp hn
  · intro hv
    exact List.mem_map.mpr ⟨v.id, List.mem_range.mpr hv, rfl⟩

theorem Link.joins_same (hP : P.KnownIn V) : (Link.same V).Joins P V V := by
  have hdomain : V.Allocated (Link.same V).domain := fun v hv => Link.mem_same.mp hv
  refine ⟨hdomain, ?_, hP, hP⟩
  rw [same, List.map_id]
  exact hdomain

theorem matches_solution (hgoal : V.Allocated goal.occurrences) :
    Continuation.Matches P (fun p p' => SameAnswer V goal p.1 p'.1) (Link.same V)
      .entry .entry := by
  refine ⟨Continuation.grows_entry, Continuation.grows_entry, ?_⟩
  intro l V' W' σ hle _ _ _
  have hfix : ∀ v, V.knowsVar v = true → l.map v = v :=
    fun v hv => hle.2 v (Link.mem_same.mpr hv)
  have hsame : SameAnswer V goal σ (σ.relabel l.map) := by
    refine ⟨l.map, l.injective, hfix, rfl, ?_⟩
    rw [← Formula.apply_relabel l.injective,
      Formula.bind_relabelling_of_fixed fun v hv => hfix v (hgoal v hv)]
  exact ⟨⟨W', rfl⟩, _, .refl _, .cons hsame .nil⟩

/-- Rule order affects only the order of answers. If the calls on a new node end in exhaustion
and none of them failed, the calls under the same rules in any other order do so too, and the
solutions of the two searches correspond one to one: each answers the goal as its partner does,
up to the variables that the searches have allocated. -/
theorem rule_order_irrelevant (hPQ : P.clauses.Perm Q.clauses) (hP : P.KnownIn V)
    (hgoal : V.Allocated goal.occurrences) (hθ : V.Allocated θ.occurrences)
    (hnode : Node.start θ goal = .ok node) (solutions : List (Substitution × Vocabulary))
    (hcalls : node.Calls P V (answers solutions W)) :
    ∃ solutions' W', node.Calls Q V (answers solutions' W') ∧
      solutions'.length = solutions.length ∧
      ∃ permuted, solutions.Perm permuted ∧
        List.Forall₂ (fun p p' => SameAnswer V goal p.1 p'.1) permuted solutions' := by
  obtain ⟨d, hrun⟩ := (calls_iff_run hnode).mp hcalls
  have hfinished : (run P d goal θ V).Finished := ⟨W, congrArg Trace.ending hrun⟩
  have hmatches := corresponds hPQ (fun p p' => SameAnswer V goal p.1 p'.1) d goal
    (Link.joins_same hP) (fun v hv => Link.mem_same.mpr (hgoal v hv))
    (fun v hv => Link.mem_same.mpr (hθ v hv)) (matches_solution hgoal)
  rw [Link.same, Formula.bind_relabelling_id, Substitution.relabel_id] at hmatches
  obtain ⟨⟨W', hending⟩, hmatched⟩ := hmatches hfinished
  have hrun' : run Q d goal θ V = ⟨(run Q d goal θ V).entries, .exhausted W'⟩ := by
    rw [← hending]
    rfl
  rw [← run, ← run, hrun] at hmatched
  exact ⟨_, W', (calls_iff_run hnode).mpr ⟨d, hrun'⟩, hmatched.length_eq.symm, hmatched⟩

/-- A rule whose body two facts with a variable each solve. -/
def orderedRules : Program := .ofList
  [.rule ⟨⟨0⟩, [.var ⟨0⟩]⟩ (.conj [.atom ⟨⟨1⟩, [.var ⟨0⟩]⟩]),
    .fact ⟨⟨1⟩, [.app ⟨2⟩ [.var ⟨0⟩]]⟩, .fact ⟨⟨1⟩, [.app ⟨3⟩ [.var ⟨0⟩]]⟩]

/-- The same with the second fact before the rule. -/
def shuffledRules : Program := .ofList
  [.fact ⟨⟨1⟩, [.app ⟨3⟩ [.var ⟨0⟩]]⟩, .rule ⟨⟨0⟩, [.var ⟨0⟩]⟩ (.conj [.atom ⟨⟨1⟩, [.var ⟨0⟩]⟩]),
    .fact ⟨⟨1⟩, [.app ⟨2⟩ [.var ⟨0⟩]]⟩]

def orderedSolutions : List (Substitution × Vocabulary) :=
  [({ bindings := [(⟨0⟩, .term (.var ⟨1⟩)), (⟨1⟩, .term (.app ⟨2⟩ [.var ⟨3⟩]))] },
      { varNames := .replicate 4 ⟨4⟩ }),
    ({ bindings := [(⟨0⟩, .term (.var ⟨1⟩)), (⟨1⟩, .term (.app ⟨3⟩ [.var ⟨4⟩]))] },
      { varNames := .replicate 5 ⟨4⟩ })]

theorem rule_order_irrelevant_shuffledRules :
    (Node.ready ⟨⟨0⟩, [.var ⟨0⟩]⟩ 0 .empty).Calls orderedRules { varNames := #[⟨4⟩] }
        (answers orderedSolutions { varNames := .replicate 7 ⟨4⟩ }) ∧
    ∃ solutions' W',
      (Node.ready ⟨⟨0⟩, [.var ⟨0⟩]⟩ 0 .empty).Calls shuffledRules { varNames := #[⟨4⟩] }
        (answers solutions' W') ∧ solutions'.length = 2 ∧
      ∃ permuted, orderedSolutions.Perm permuted ∧
        List.Forall₂ (fun p p' => SameAnswer { varNames := #[⟨4⟩] }
          (.atom ⟨⟨0⟩, [.var ⟨0⟩]⟩) p.1 p'.1) permuted solutions' := by
  have hfirst : (Node.ready ⟨⟨0⟩, [.var ⟨0⟩]⟩ 0 .empty).next orderedRules 10
      { varNames := #[⟨4⟩] } .closed = some _ := rfl
  have hcalls := Node.Calls.cons hfirst (by simp)
    (.cons (d := 10) (J := .closed) rfl (by simp)
      (.cons (d := 10) (J := .closed) rfl (by simp) .nil))
  have hPQ : orderedRules.clauses.Perm shuffledRules.clauses := by
    rw [Array.perm_iff_toList_perm]
    decide
  refine ⟨hcalls, ?_⟩
  exact rule_order_irrelevant (θ := .empty) hPQ (by decide) (by decide) (by decide) rfl
    orderedSolutions hcalls

end Answers

end HornResolution
