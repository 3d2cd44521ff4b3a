import HornResolution.Proofs.Derivability
import HornResolution.Proofs.MostGeneral
import HornResolution.Proofs.Refinement

/-!
# A search that ends has found everything

If the calls of a search end in exhaustion without a failure, every derivable
instance of the goal is an instance of one of the solutions. The argument is made on
the depth-first interpreter: a run that came to its end tried every rule, among
them the one that the derivation ends with, and the copy that was made of it
unifies with the goal because its variables were fresh.
-/

namespace HornResolution

section Lifting

variable {V V' : Vocabulary} {θ : Substitution} {ρ ρ' : Var → Term}

/-- Two valuations that differ at most on what is still to be allocated. -/
def AgreeOn (V : Vocabulary) (ρ' ρ : Var → Term) : Prop := ∀ v, V.knowsVar v = true → ρ' v = ρ v

theorem AgreeOn.trans {ρ₁ ρ₂ ρ₃ : Var → Term} (h : AgreeOn V' ρ₁ ρ₂) (h' : AgreeOn V ρ₂ ρ₃)
    (hV : V.varCount ≤ V'.varCount) : AgreeOn V ρ₁ ρ₃ :=
  fun v hv => (h v (Vocabulary.knowsVar_of_le hV hv)).trans (h' v hv)

theorem AgreeOn.bind_eq (h : AgreeOn V ρ' ρ) {f : Formula}
    (hf : ∀ v ∈ f.occurrences, V.knowsVar v = true) : f.bind ρ' = f.bind ρ :=
  Formula.bind_congr fun v hv => h v (hf v hv)

/-- A substitution over known variables, and a valuation that satisfies it. -/
structure Fits (V : Vocabulary) (θ : Substitution) (ρ : Var → Term) : Prop where
  acyclic : θ.Acyclic
  termValued : θ.TermValued
  known : ∀ v ∈ θ.occurrences, V.knowsVar v = true
  instantiates : Instantiates ρ θ

theorem Fits.extend (h : Fits V θ ρ) (hV : V.varCount ≤ V'.varCount) (hρ : AgreeOn V ρ' ρ) :
    Fits V' θ ρ' := by
  refine ⟨h.acyclic, h.termValued, fun v hv => Vocabulary.knowsVar_of_le hV (h.known v hv), ?_⟩
  intro v e he
  rw [hρ v (h.known v (Substitution.mem_occurrences_key he)), h.instantiates v e he]
  apply Expr.bind_congr
  intro w hw
  exact (hρ w (h.known w (Substitution.mem_occurrences_of_get? he hw))).symm

theorem Fits.unify (h : Fits V θ ρ) {p q : Atom} (hp : ∀ v ∈ p.occurrences, V.knowsVar v = true)
    (hq : ∀ v ∈ q.occurrences, V.knowsVar v = true) (hpq : p.bind ρ = q.bind ρ) :
    ∃ σ, unify (.atom p) (.atom q) θ = .ok σ ∧ Fits V σ ρ := by
  obtain ⟨σ, hσ⟩ := Unification.exists_unify_of_instantiates h.acyclic h.instantiates hpq
  have hknown : (∀ v ∈ (Expr.atom p).occurrences, V.knowsVar v = true) ∧
      ∀ v ∈ (Expr.atom q).occurrences, V.knowsVar v = true := ⟨hp, hq⟩
  refine ⟨σ, hσ, ?_, Unification.unify_termValued h.termValued hσ, ?_, ?_⟩
  · exact Unification.invariant_acyclic.unify trivial h.acyclic hσ
  · exact (Unification.invariant_occurrences _).unify hknown h.known hσ
  · exact (Unification.instantiates_unify h.termValued hσ).mpr ⟨h.instantiates, hpq⟩

/-- The lifting lemma. If an instance of an atom is an instance of the head of a clause, the atom
unifies with the head of a fresh copy, and the valuation can be extended to the copy. -/
theorem Fits.exists_lift (h : Fits V θ ρ) {goal : Atom}
    (hgoal : ∀ v ∈ goal.occurrences, V.knowsVar v = true) {c copy : Clause} {V₁ V₂ : Vocabulary}
    (hV₁ : V.varCount ≤ V₁.varCount) (hcopy : c.standardizeApart V₁ = (.ok copy, V₂))
    (τ : Var → Term) :
    ∃ ρ', AgreeOn V ρ' ρ ∧ copy.bind ρ' = c.bind τ ∧
      ∀ head : Atom, (∀ v ∈ head.occurrences, v ∈ copy.occurrences) →
        head.bind ρ' = goal.bind ρ →
          ∃ σ, HornResolution.unify (.atom goal) (.atom head) θ = .ok σ ∧ Fits V₂ σ ρ' := by
  obtain ⟨ρ', hρ', hbind⟩ := Clause.exists_valuation_of_copy hcopy ρ τ
  have hV₂ : V.varCount ≤ V₂.varCount := hV₁.trans (Clause.varCount_le_standardizeApart hcopy)
  have hagree : AgreeOn V ρ' ρ := fun v hv => hρ' v (Vocabulary.knowsVar_of_le hV₁ hv)
  refine ⟨ρ', hagree, hbind, ?_⟩
  intro head hhead heq
  have hgoal' : goal.bind ρ' = goal.bind ρ :=
    Atom.bind_congr fun v hv => hagree v (hgoal v hv)
  refine (h.extend hV₂ hagree).unify ?_ ?_ (hgoal'.trans heq.symm)
  · exact fun v hv => Vocabulary.knowsVar_of_le hV₂ (hgoal v hv)
  · exact fun v hv => Clause.knowsVar_of_mem_copy hcopy (hhead v hv)

end Lifting

namespace DepthFirst

variable {α : Type}

section Growth

variable {t : Trace α} {f : Vocabulary → Trace α} {V V' : Vocabulary} {enter : Solver α}
  {k : Continuation α}

/-- A run that comes to its end has not lost a variable. -/
def Trace.Grows (t : Trace α) (V : Vocabulary) : Prop :=
  ∀ W, t.ending = .exhausted W → V.varCount ≤ W.varCount

def Continuation.Grows (k : Continuation α) : Prop := ∀ σ V, (k σ V).Grows V

def Solver.Grows (enter : Solver α) : Prop :=
  ∀ f θ k V, Continuation.Grows k → (enter f θ k V).Grows V

theorem Continuation.grows_entry : Continuation.Grows .entry := by
  intro σ V W hW
  obtain rfl := Ending.exhausted.inj hW
  exact le_rfl

theorem Trace.grows_done (V : Vocabulary) : (done V : Trace α).Grows V := by
  intro W hW
  obtain rfl := Ending.exhausted.inj hW
  exact le_rfl

theorem Trace.grows_failed (e : Misuse) (V V' : Vocabulary) :
    (failed e V' : Trace α).Grows V := by
  intro W hW
  cases hW

theorem Trace.Grows.andThen (ht : t.Grows V) (hf : ∀ W, (f W).Grows W) : (t.andThen f).Grows V := by
  intro W hW
  cases hend : t.ending with
  | exhausted U =>
    rw [andThen_of_exhausted f hend] at hW
    exact (ht U hend).trans (hf U W hW)
  | failed e U => simp [Trace.andThen, hend] at hW
  | unfinished => simp [Trace.andThen, hend] at hW

theorem Trace.Grows.mono (ht : t.Grows V') (h : V.varCount ≤ V'.varCount) : t.Grows V :=
  fun W hW => h.trans (ht W hW)

theorem tryRule_grows (henter : enter.Grows) (hk : k.Grows) (goal : Atom) (θ : Substitution)
    (copy : Clause) (V : Vocabulary) : (tryRule enter goal θ k copy V).Grows V := by
  cases copy with
  | goal body => exact Trace.grows_done V
  | fact head =>
    rw [tryRule]
    split
    · exact Trace.grows_done V
    · exact hk _ V
  | rule head body =>
    rw [tryRule]
    split
    · exact Trace.grows_done V
    · exact henter _ _ k V hk

theorem tryRules_grows (henter : enter.Grows) (hk : k.Grows) (goal : Atom) (θ : Substitution)
    (rules : List Clause) (V : Vocabulary) : (tryRules enter goal θ k rules V).Grows V := by
  induction rules generalizing V with
  | nil => exact Trace.grows_done V
  | cons rule rules ih =>
    rw [tryRules]
    split
    · exact Trace.grows_failed _ _ _
    · rename_i copy V' hcopy
      have hrule := tryRule_grows henter hk goal θ copy V'
      exact (hrule.andThen ih).mono (Clause.varCount_le_standardizeApart hcopy)

theorem solveWith_grows (P : Program) {enter : Solver Substitution} (henter : enter.Grows) :
    (solveWith P halting enter).Grows := by
  intro f
  induction f using Formula.induction with
  | atom a =>
    intro θ k V hk
    rw [solveWith]
    exact tryRules_grows henter hk a θ _ V
  | conj fs ih =>
    induction fs with
    | nil =>
      intro θ k V _
      rw [solveWith, solveOperands]
      exact Trace.grows_failed _ _ _
    | cons f fs ihfs =>
      intro θ k V hk
      have hf := ih f (by simp) θ
      rw [solveWith, solveOperands.eq_def]
      cases fs with
      | nil => exact hf k V hk
      | cons g gs =>
        refine hf _ V ?_
        intro σ W
        have hgs := ihfs (fun g hg => ih g (List.mem_cons_of_mem f hg)) σ k W hk
        rwa [solveWith] at hgs
  | disj fs _ =>
    intro θ k V _
    rw [solveWith]
    exact Trace.grows_failed _ _ _
  | neg f _ =>
    intro θ k V _
    rw [solveWith]
    exact Trace.grows_failed _ _ _

theorem solve_grows (P : Program) (d : ℕ) : (solve P halting d).Grows := by
  induction d with
  | zero =>
    intro f θ k V _ W hW
    cases hW
  | succ d ih => exact solveWith_grows P ih

end Growth

section Parts

variable {t u : Trace α} {f : Vocabulary → Trace α} {V : Vocabulary} {enter : Solver α}
  {k : Continuation α} {goal : Atom} {θ : Substitution}

def Trace.Finished (t : Trace α) : Prop := ∃ W, t.ending = .exhausted W

/-- A run that came to its end in the course of another. -/
structure Trace.PartOf (u t : Trace α) : Prop where
  finished : u.Finished
  entries : ∀ p ∈ u.entries, p ∈ t.entries

theorem Trace.PartOf.trans {r : Trace α} (hr : r.PartOf u) (hu : u.PartOf t) : r.PartOf t :=
  ⟨hr.finished, fun p hp => hu.entries p (hr.entries p hp)⟩

theorem Trace.Finished.parts (h : (t.andThen f).Finished) :
    t.PartOf (t.andThen f) ∧ ∃ W, t.ending = .exhausted W ∧ (f W).PartOf (t.andThen f) := by
  obtain ⟨W, hW⟩ := h
  cases hend : t.ending with
  | exhausted U =>
    rw [andThen_of_exhausted f hend] at hW ⊢
    exact ⟨⟨⟨U, hend⟩, fun p hp => List.mem_append_left _ hp⟩, U, rfl, ⟨W, hW⟩,
      fun p hp => List.mem_append_right _ hp⟩
  | failed e U => simp [andThen, hend] at hW
  | unfinished => simp [andThen, hend] at hW

theorem exists_tried (henter : enter.Grows) (hk : k.Grows) {rules : List Clause} {rule : Clause}
    (hrule : rule ∈ rules) (h : (tryRules enter goal θ k rules V).Finished) :
    ∃ V₁ copy V₂, V.varCount ≤ V₁.varCount ∧ rule.standardizeApart V₁ = (.ok copy, V₂) ∧
      (tryRule enter goal θ k copy V₂).PartOf (tryRules enter goal θ k rules V) := by
  induction rules generalizing V with
  | nil => simp at hrule
  | cons first rules ih =>
    rcases hcopy : first.standardizeApart V with ⟨e | copy, V'⟩
    · obtain ⟨W, hW⟩ := h
      simp [tryRules, hcopy, Trace.failed] at hW
    · rw [tryRules_cons rules hcopy] at h ⊢
      obtain ⟨hfirst, W, hW, hrest⟩ := h.parts
      rcases List.mem_cons.mp hrule with rfl | hrule
      · exact ⟨V, copy, V', le_rfl, hcopy, hfirst⟩
      · obtain ⟨V₁, copy₁, V₂, hV₁, hcopy₁, hpart⟩ := ih hrule hrest.finished
        have hV : V.varCount ≤ W.varCount :=
          (Clause.varCount_le_standardizeApart hcopy).trans
            (tryRule_grows henter hk goal θ copy V' W hW)
        exact ⟨V₁, copy₁, V₂, hV.trans hV₁, hcopy₁, hpart.trans hrest⟩

end Parts

section Covering

variable {P : Program} {V V' : Vocabulary} {ρ ρ' : Var → Term} {k : Continuation Substitution}
  {t u : Trace Substitution}

/-- In the course of a run a solution was handed on that the valuation satisfies, once it is
given the right values on the variables allocated meanwhile. -/
def Meets (V : Vocabulary) (ρ : Var → Term) (k : Continuation Substitution)
    (t : Trace Substitution) : Prop :=
  ∃ σ V' ρ', V.varCount ≤ V'.varCount ∧ AgreeOn V ρ' ρ ∧ Fits V' σ ρ' ∧ (k σ V').PartOf t

theorem Meets.of_part (h : Meets V' ρ' k u) (hV : V.varCount ≤ V'.varCount)
    (hρ : AgreeOn V ρ' ρ) (hu : u.PartOf t) : Meets V ρ k t := by
  obtain ⟨σ, W, ρ'', hW, hagree, hfits, hpart⟩ := h
  exact ⟨σ, W, ρ'', hV.trans hW, hagree.trans hρ hV, hfits, hpart.trans hu⟩

/-- No run that comes to its end misses a valuation under which its goal is `F`. -/
def Covered (P : Program) (F : Formula) : Prop :=
  ∀ ⦃f : Formula⦄ ⦃ρ : Var → Term⦄ ⦃θ : Substitution⦄ ⦃k : Continuation Substitution⦄
    ⦃V : Vocabulary⦄ ⦃d : ℕ⦄,
    f.bind ρ = F → (∀ v ∈ f.occurrences, V.knowsVar v = true) → Fits V θ ρ → k.Grows →
      (solve P halting d f θ k V).Finished → Meets V ρ k (solve P halting d f θ k V)

/-- A run on an atom that came to its end tried a copy of every clause, and the valuation can
be extended so that the copy is any given instance of the clause. -/
theorem exists_lifted {goal : Atom} {θ : Substitution} {d : ℕ} {c : Clause} (hc : c ∈ P.clauses)
    (τ : Var → Term) (hgoal : ∀ v ∈ goal.occurrences, V.knowsVar v = true) (hθ : Fits V θ ρ)
    (hk : k.Grows) (h : (solve P halting d (.atom goal) θ k V).Finished) :
    ∃ d' copy V' ρ', V.varCount ≤ V'.varCount ∧ AgreeOn V ρ' ρ ∧ copy.bind ρ' = c.bind τ ∧
      (∀ v ∈ copy.occurrences, V'.knowsVar v = true) ∧
      (tryRule (solve P halting d') goal θ k copy V').PartOf
        (solve P halting d (.atom goal) θ k V) ∧
      ∀ head : Atom, (∀ v ∈ head.occurrences, v ∈ copy.occurrences) →
        head.bind ρ' = goal.bind ρ →
          ∃ σ, unify (.atom goal) (.atom head) θ = .ok σ ∧ Fits V' σ ρ' := by
  cases d with
  | zero =>
    obtain ⟨W, hW⟩ := h
    cases hW
  | succ d =>
    rw [solve_halting_atom] at h ⊢
    obtain ⟨V₁, copy, V₂, hV₁, hcopy, hpart⟩ :=
      exists_tried (solve_grows P d) hk (Array.mem_toList_iff.mpr hc) h
    obtain ⟨ρ', hagree, hbind, hunify⟩ := hθ.exists_lift hgoal hV₁ hcopy τ
    exact ⟨d, copy, V₂, ρ', hV₁.trans (Clause.varCount_le_standardizeApart hcopy), hagree, hbind,
      fun v hv => Clause.knowsVar_of_mem_copy hcopy hv, hpart, hunify⟩

theorem covered_fact {a : Atom} (ha : .fact a ∈ P.clauses) (τ : Var → Term) :
    Covered P (.atom (a.bind τ)) := by
  intro f ρ θ k V d hf hknown hθ hk h
  obtain ⟨goal, rfl, hgoal⟩ := Formula.bind_eq_atom hf
  rw [Formula.occurrences_atom] at hknown
  obtain ⟨d', copy, V', ρ', hV', hagree, hbind, -, hpart, hunify⟩ :=
    exists_lifted ha τ hknown hθ hk h
  obtain ⟨head, rfl, hhead⟩ := Clause.bind_eq_fact hbind
  obtain ⟨σ, hσ, hfits⟩ := hunify head (fun v hv => hv) (hhead.trans hgoal.symm)
  rw [tryRule, hσ] at hpart
  exact ⟨σ, V', ρ', hV', hagree, hfits, hpart⟩

theorem covered_rule {a : Atom} {body : Formula} (ha : .rule a body ∈ P.clauses) (τ : Var → Term)
    (hbody : Covered P (body.bind τ)) : Covered P (.atom (a.bind τ)) := by
  intro f ρ θ k V d hf hknown hθ hk h
  obtain ⟨goal, rfl, hgoal⟩ := Formula.bind_eq_atom hf
  rw [Formula.occurrences_atom] at hknown
  obtain ⟨d', copy, V', ρ', hV', hagree, hbind, hcopy, hpart, hunify⟩ :=
    exists_lifted ha τ hknown hθ hk h
  obtain ⟨head, body', rfl, hhead, hbody'⟩ := Clause.bind_eq_rule hbind
  obtain ⟨σ, hσ, hfits⟩ := hunify head (fun v hv => List.mem_append_left _ hv)
    (hhead.trans hgoal.symm)
  rw [tryRule, hσ] at hpart
  have hmeets := hbody hbody' (fun v hv => hcopy v (List.mem_append_right _ hv)) hfits hk
    hpart.finished
  exact hmeets.of_part hV' hagree hpart

/-- The operands are met one after the other, the later ones under the valuation that the
earlier ones have extended. -/
theorem meets_conj {fs : List Formula} (hne : fs ≠ []) {θ : Substitution} {d : ℕ}
    (hfs : ∀ f ∈ fs, Covered P (f.bind ρ)) (hknown : ∀ f ∈ fs, ∀ v ∈ f.occurrences,
      V.knowsVar v = true) (hθ : Fits V θ ρ) (hk : k.Grows)
    (h : (solve P halting (d + 1) (.conj fs) θ k V).Finished) :
    Meets V ρ k (solve P halting (d + 1) (.conj fs) θ k V) := by
  induction fs generalizing V θ ρ with
  | nil => exact absurd rfl hne
  | cons f fs ih =>
    have hf := hfs f (by simp)
    have hknownf := hknown f (by simp)
    cases fs with
    | nil =>
      rw [solve_single] at h ⊢
      exact hf rfl hknownf hθ hk h
    | cons g gs =>
      rw [solve_conj] at h ⊢
      have hgrows : Continuation.Grows fun σ => solve P halting (d + 1) (.conj (g :: gs)) σ k :=
        fun σ W => solve_grows P (d + 1) _ σ k W hk
      obtain ⟨σ, V', ρ', hV', hagree, hfits, hpart⟩ := hf rfl hknownf hθ hgrows h
      have hcovered : ∀ g' ∈ g :: gs, Covered P (g'.bind ρ') := by
        intro g' hg'
        rw [hagree.bind_eq (hknown g' (List.mem_cons_of_mem f hg'))]
        exact hfs g' (List.mem_cons_of_mem f hg')
      have hknown' : ∀ g' ∈ g :: gs, ∀ v ∈ g'.occurrences, V'.knowsVar v = true := by
        intro g' hg' v hv
        exact Vocabulary.knowsVar_of_le hV' (hknown g' (List.mem_cons_of_mem f hg') v hv)
      exact (ih (by simp) hcovered hknown' hfits hpart.finished).of_part hV' hagree hpart

theorem covered_conj {Fs : List Formula} (hne : Fs ≠ []) (h : ∀ F ∈ Fs, Covered P F) :
    Covered P (.conj Fs) := by
  intro f ρ θ k V d hf hknown hθ hk hfinished
  obtain ⟨fs, rfl, rfl⟩ := Formula.bind_eq_conj hf
  have hfs : ∀ f ∈ fs, Covered P (f.bind ρ) := fun f hf => h _ (List.mem_map_of_mem hf)
  have hknown' : ∀ f ∈ fs, ∀ v ∈ f.occurrences, V.knowsVar v = true :=
    fun f hf v hv => hknown v (Formula.mem_occurrences_conj.mpr ⟨f, hf, hv⟩)
  cases d with
  | zero =>
    obtain ⟨W, hW⟩ := hfinished
    cases hW
  | succ d => exact meets_conj (by simpa using hne) hfs hknown' hθ hk hfinished

theorem covered_of_derivable {F : Formula} (h : Derivable P F) :
    Covered P F := by
  induction h with
  | fact ha τ => exact covered_fact ha τ
  | rule ha τ _ ih => exact covered_rule ha τ ih
  | conj hne _ ih => exact covered_conj hne ih

end Covering

section Events

variable {t : Trace Substitution} {i : ℕ} {W : Vocabulary}

theorem Trace.event?_eq_solution {σ : Substitution} :
    t.event? i = some (.solution σ, W) ↔ t.entries[i]? = some (σ, W) := by
  unfold event?
  split
  · simp [*]
  · split <;> simp [*]

theorem Trace.event?_eq_exhausted :
    t.event? i = some (.exhausted, W) ↔ t.entries.length ≤ i ∧ t.ending = .exhausted W := by
  rw [← List.getElem?_eq_none_iff]
  unfold event?
  split
  · simp [*]
  · split <;> simp [*]

/-- The answers of calls that end in exhaustion. -/
def answers (solutions : List (Substitution × Vocabulary)) (W : Vocabulary) :
    List (Outcome × Vocabulary) :=
  solutions.map (fun p => (.solution p.1, p.2)) ++ [(.exhausted, W)]

theorem answers_ne_failed {solutions : List (Substitution × Vocabulary)} :
    ∀ r ∈ (answers solutions W).dropLast, ∀ e, r.1 ≠ .failed e := by
  intro r hr e
  rw [answers, List.dropLast_concat] at hr
  obtain ⟨p, -, rfl⟩ := List.mem_map.mp hr
  simp

theorem Trace.eq_of_event? {solutions : List (Substitution × Vocabulary)}
    (h : ∀ i < (answers solutions W).length, t.event? i = (answers solutions W)[i]?) :
    t = ⟨solutions, .exhausted W⟩ := by
  have hlast : t.event? solutions.length = some (.exhausted, W) := by
    rw [h _ (by simp [answers])]
    simp [answers]
  obtain ⟨hlength, hending⟩ := event?_eq_exhausted.mp hlast
  have hsolutions : t.entries = solutions := by
    apply List.ext_getElem?
    intro i
    by_cases hi : i < solutions.length
    · rw [List.getElem?_eq_getElem hi]
      apply event?_eq_solution.mp
      rw [h i (by simp [answers]; omega), answers, List.getElem?_append_left (by simpa using hi)]
      simp [hi]
    · rw [List.getElem?_eq_none (by omega), List.getElem?_eq_none (by omega)]
  rw [← hsolutions, ← hending]

end Events

end DepthFirst

open DepthFirst

/-- Completeness of the search. If the calls on a new node end in exhaustion and none of them
failed, every valuation that satisfies the parent and makes the goal derivable satisfies one
of the solutions, up to its values on the variables that the search has allocated. -/
theorem search_complete {P : Program} {goal : Formula} {θ : Substitution} {V W : Vocabulary}
    {node : Node} (hθ : θ.Acyclic) (hterm : θ.TermValued)
    (hgoal : ∀ v ∈ goal.occurrences, V.knowsVar v = true)
    (hparent : ∀ v ∈ θ.occurrences, V.knowsVar v = true) (hnode : Node.start θ goal = .ok node)
    (solutions : List (Substitution × Vocabulary))
    (hcalls : node.Calls P V (answers solutions W)) {ρ : Var → Term} (hρ : Instantiates ρ θ)
    (hderivable : Derivable P (goal.bind ρ)) :
    ∃ p ∈ solutions, ∃ ρ', AgreeOn V ρ' ρ ∧ Instantiates ρ' p.1 := by
  obtain ⟨d, hd⟩ := exists_run_event?_eq hnode hcalls answers_ne_failed
  have hrun : run P d goal θ V = ⟨solutions, .exhausted W⟩ := Trace.eq_of_event? (hd d le_rfl)
  have hfinished : (run P d goal θ V).Finished := ⟨W, congrArg Trace.ending hrun⟩
  have hfits : Fits V θ ρ := ⟨hθ, hterm, hparent, hρ⟩
  obtain ⟨σ, V', ρ', -, hagree, hfits', hpart⟩ :=
    covered_of_derivable hderivable rfl hgoal hfits Continuation.grows_entry hfinished
  have hmem : (σ, V') ∈ (run P d goal θ V).entries :=
    hpart.entries (σ, V') (by simp [Trace.entry])
  rw [hrun] at hmem
  exact ⟨(σ, V'), hmem, ρ', hagree, hfits'.instantiates⟩

/-- A rule with two facts for its body. -/
def twoFacts : Program := .ofList
  [.rule ⟨⟨0⟩, [.var ⟨0⟩]⟩ (.conj [.atom ⟨⟨1⟩, [.var ⟨0⟩]⟩]),
    .fact ⟨⟨1⟩, [.const ⟨2⟩]⟩, .fact ⟨⟨1⟩, [.const ⟨3⟩]⟩]

/-- The solutions with the first and with the second fact. -/
def twoSolutions : List (Substitution × Vocabulary) :=
  [({ bindings := [(⟨0⟩, .term (.var ⟨1⟩)), (⟨1⟩, .term (.const ⟨2⟩))] },
      { varNames := .replicate 3 ⟨4⟩ }),
    ({ bindings := [(⟨0⟩, .term (.var ⟨1⟩)), (⟨1⟩, .term (.const ⟨3⟩))] },
      { varNames := .replicate 3 ⟨4⟩ })]

/-- What the second fact makes derivable is covered by a solution. -/
theorem search_complete_twoFacts :
    (Node.ready ⟨⟨0⟩, [.var ⟨0⟩]⟩ 0 .empty).Calls twoFacts { varNames := #[⟨4⟩] }
        (answers twoSolutions { varNames := .replicate 3 ⟨4⟩ }) ∧
      ∃ p ∈ twoSolutions, ∃ ρ',
        AgreeOn { varNames := #[⟨4⟩] } ρ' (fun _ => .const ⟨3⟩) ∧ Instantiates ρ' p.1 := by
  have hfirst : (Node.ready ⟨⟨0⟩, [.var ⟨0⟩]⟩ 0 .empty).next twoFacts 10
      { varNames := #[⟨4⟩] } .closed = some _ := rfl
  have hcalls := Node.Calls.cons hfirst (by simp)
    (.cons (d := 10) (J := .closed) rfl (by simp)
      (.cons (d := 10) (J := .closed) rfl (by simp) .nil))
  have hfact : Derivable twoFacts (.atom ⟨⟨1⟩, [.const ⟨3⟩]⟩) :=
    .fact (a := ⟨⟨1⟩, [.const ⟨3⟩]⟩) (Program.mem_of_get? (i := 2) rfl) fun _ => .const ⟨3⟩
  have hderivable :
      Derivable twoFacts ((Formula.atom ⟨⟨0⟩, [.var ⟨0⟩]⟩).bind fun _ => .const ⟨3⟩) := by
    rw [Formula.bind_atom]
    refine .rule (Program.mem_of_get? (i := 0) rfl) _ ?_
    rw [Formula.bind_conj]
    refine .conj (by simp) ?_
    intro f hf
    obtain rfl := List.mem_singleton.mp hf
    exact hfact
  refine ⟨hcalls, ?_⟩
  exact search_complete Substitution.acyclic_empty (by simp [Substitution.TermValued]) (by decide)
    (by decide) rfl twoSolutions hcalls (by simp [Instantiates]) hderivable

end HornResolution
