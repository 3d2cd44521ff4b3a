import HornResolution.Proofs.Derivability
import HornResolution.Proofs.Refinement
import HornResolution.Query

/-!
# A search abandons the bodies that fail first

A caller may go on asking a node after failures. A failure is then an event like a solution:
a goal that cannot be resolved gives one failure each time it is reached, and the run goes on
with the alternatives that are left. What a failure does to the body of a rule in which it
arises is a policy. Under `persist` the body is explored to its end. Under `abandon` it is
given up if the first thing that comes of it is a failure.

The answers of a node are the events of the interpreter that abandons. All other failures
cost nothing: a body that has had a solution, the operands of a conjunction and the goal itself
are explored to the end. So a program in which no body fails first loses nothing.
-/

namespace HornResolution

namespace Exploration

open DepthFirst

def solution (σ : Substitution) (V : Vocabulary) : Trace Outcome := .entry (.solution σ) V

def failure (e : Misuse) (V : Vocabulary) : Trace Outcome := .entry (.failed e) V

def persist : Policy Outcome := ⟨failure, id⟩

/-- Gives a body up if its first event is a failure. Up to that event it does not matter what is
done with solutions, so the body is tried alone to find out. -/
def abandon : Policy Outcome where
  failure := failure
  body solver f θ k V :=
    match (solver f θ solution V).entries.head? with
    | some (.failed e, W) => failure e W
    | _ => solver f θ k V

theorem failure_persist : persist.failure = failure := rfl

theorem failure_abandon : abandon.failure = failure := rfl

def run (P : Program) (policy : Policy Outcome) (depth : ℕ) (goal : Formula) (θ : Substitution)
    (V : Vocabulary) : Trace Outcome :=
  solve P policy depth goal θ solution V

section Abandoning

variable {solver : Solver Outcome} {f : Formula} {θ : Substitution} {k : Continuation Outcome}
  {V W : Vocabulary} {e : Misuse}

theorem abandon_of_failed (h : (solver f θ solution V).entries.head? = some (.failed e, W)) :
    abandon.body solver f θ k V = failure e W := by
  simp only [abandon, h]

theorem abandon_of_not_failed
    (h : ∀ e W, (solver f θ solution V).entries.head? ≠ some (.failed e, W)) :
    abandon.body solver f θ k V = solver f θ k V := by
  unfold abandon
  dsimp only
  split
  · rename_i e W hfailed
    exact absurd hfailed (h e W)
  · rfl

theorem givesUp_abandon : abandon.GivesUp where
  failure := by
    intro solver f θ V e W h k
    obtain ⟨g, hg⟩ := h solution
    exact abandon_of_failed (by rw [hg]; rfl)
  solution := by
    intro solver f θ V σ W h k
    obtain ⟨g, hg⟩ := h solution
    exact abandon_of_not_failed fun e W => by simp [hg, solution]
  done := by
    intro solver f θ V W h k
    exact abandon_of_not_failed fun e W => by simp [h, Trace.done]

end Abandoning

theorem exists_rest_eq {P : Program} {rs : List (Outcome × Vocabulary)} {node : Node}
    {V W : Vocabulary} (h : node.Calls P V (rs ++ [(.exhausted, W)]))
    (hrs : ∀ r ∈ rs, r.1 ≠ .exhausted) {f : Formula} {θ : Substitution}
    (hnode : node.Explores P 0 f θ) (hP : P.KnownIn V) :
    ∃ d₀, ∀ d ≥ d₀, rest P abandon node d solution V = ⟨rs, .exhausted W⟩ := by
  induction rs generalizing node V with
  | nil =>
    obtain ⟨_, J, s, hstep, hs, hr, -⟩ := h.exists_step
    obtain ⟨hout, rfl⟩ := Prod.mk.inj hr
    obtain ⟨d₀, hd₀⟩ := takesOff_of_takes givesUp_abandon (takes_of_next hstep) hs (.node hnode)
      trivial (.inr hP)
    refine ⟨d₀, ?_⟩
    intro d hd
    exact (hd₀ d hd _).trans (afterStep_exhausted (takes_of_next hstep) trivial hout.symm)
  | cons r rs ih =>
    obtain ⟨_, J, s, hstep, hs, rfl, hcalls⟩ := h.exists_step
    obtain ⟨hr, hrs⟩ := List.forall_mem_cons.mp hrs
    have htakes := takes_of_next hstep
    obtain ⟨d₁, hd₁⟩ := takesOff_of_takes givesUp_abandon htakes hs (.node hnode) trivial
      (.inr hP)
    obtain ⟨d₂, hd₂⟩ := ih hcalls hrs (htakes.explores_node hnode).1
      (hP.mono htakes.varCount_le)
    refine ⟨max d₁ d₂, ?_⟩
    intro d hd
    refine (hd₁ d (by omega) _).trans ?_
    cases hout : s.outcome with
    | solution σ => rw [afterStep_solution hout, solution, Trace.entry_andThen, hd₂ d (by omega)]
    | exhausted => exact absurd hout hr
    | failed e =>
      rw [afterStep_failed hout, failure_abandon, failure, Trace.entry_andThen, hd₂ d (by omega)]

section Steady

variable {P : Program} {enter enter' : Solver Outcome}
  {θ : Substitution} {k : Continuation Outcome} {V : Vocabulary}

/-- No body of a rule has a failure for its first event, unless it cannot be started at all. -/
def Steady (P : Program) : Prop :=
  ∀ d head body, Clause.rule head body ∈ P.clauses → ∀ r θ V e W,
    (solve P persist d (body.rename r) θ solution V).entries.head? = some (.failed e, W) →
      ∃ e', Node.start θ (body.rename r) = .error e'

/-- Both ways to solve goals agree on the copies of the bodies of rules. -/
def AgreeOnBodies (P : Program) (enter enter' : Solver Outcome) : Prop :=
  ∀ head body, Clause.rule head body ∈ P.clauses → ∀ r θ k V,
    enter (body.rename r) θ k V = enter' (body.rename r) θ k V

theorem tryRules_congr (h : AgreeOnBodies P enter enter') (goal : Atom) {rules : List Clause}
    (hrules : ∀ rule ∈ rules, rule ∈ P.clauses) :
    tryRules enter goal θ k rules V = tryRules enter' goal θ k rules V := by
  induction rules generalizing V with
  | nil => rfl
  | cons rule rules ih =>
    obtain ⟨hrule, hrest⟩ := List.forall_mem_cons.mp hrules
    rw [tryRules, tryRules]
    split
    · rfl
    · rename_i copy V' hcopy
      obtain ⟨-, r, rfl, -⟩ := Clause.standardizeApart_ok hcopy
      have htry : tryRule enter goal θ k (rule.rename r) V' =
          tryRule enter' goal θ k (rule.rename r) V' := by
        cases rule with
        | fact head => rfl
        | goal body => rfl
        | rule head body =>
          simp only [Clause.rename, Clause.mapTerms, tryRule]
          split
          · rfl
          · exact h head body hrule r _ k V'
      rw [htry]
      exact congrArg _ (funext fun W => ih hrest)

theorem solveWith_congr (h : AgreeOnBodies P enter enter') (f : Formula) (θ : Substitution)
    (k : Continuation Outcome) (V : Vocabulary) :
    solveWith P persist enter f θ k V = solveWith P abandon enter' f θ k V := by
  induction f using Formula.induction generalizing θ k V with
  | atom a =>
    rw [solveWith, solveWith]
    exact tryRules_congr h a fun rule hrule => Array.mem_toList_iff.mp hrule
  | conj fs ih =>
    rw [solveWith, solveWith]
    induction fs generalizing θ k V with
    | nil => rfl
    | cons f fs ihfs =>
      cases fs with
      | nil =>
        rw [solveOperands, solveOperands]
        exact ih f (by simp) θ k V
      | cons g gs =>
        have hrest : ∀ σ, solveOperands P persist enter (g :: gs) σ k =
            solveOperands P abandon enter' (g :: gs) σ k :=
          fun σ => funext fun W => ihfs (fun f hf => ih f (List.mem_cons_of_mem _ hf)) σ k W
        rw [solveOperands, solveOperands, funext hrest]
        exact ih f (by simp) θ _ V
  | disj fs _ => rw [solveWith, solveWith, failure_persist, failure_abandon]
  | neg f _ => rw [solveWith, solveWith, failure_persist, failure_abandon]

/-- Where no body fails first, giving such bodies up changes nothing. -/
theorem solve_persist_eq (hP : Steady P) (d : ℕ) : solve P persist d = solve P abandon d := by
  induction d with
  | zero => rfl
  | succ d ih =>
    funext f θ k V
    rw [solve, solve, ← ih]
    apply solveWith_congr
    intro head body hrule r θ k V
    change solve P persist d (body.rename r) θ k V = abandon.body (solve P persist d) _ θ k V
    by_cases hfailed : ∃ e W, (solve P persist d (body.rename r) θ solution V).entries.head? =
        some (.failed e, W)
    · obtain ⟨e, W, hhead⟩ := hfailed
      obtain ⟨e', hstart⟩ := hP d head body hrule r θ V e W hhead
      cases d with
      | zero => simp [solve, Trace.unfinished] at hhead
      | succ d =>
        rw [abandon_of_failed hhead]
        rw [solve_of_start_error hstart, failure_persist] at hhead ⊢
        obtain ⟨he, rfl⟩ := Prod.mk.inj (Option.some.inj hhead)
        rw [Outcome.failed.inj he]
    · rw [abandon_of_not_failed fun e W hhead => hfailed ⟨e, W, hhead⟩]

end Steady

theorem exists_run_abandon_eq {P : Program} {goal : Formula} {θ : Substitution} {V W : Vocabulary}
    {node : Node} (hnode : Node.start θ goal = .ok node) (hP : P.KnownIn V)
    {rs : List (Outcome × Vocabulary)} (hcalls : node.Calls P V (rs ++ [(.exhausted, W)]))
    (hrs : ∀ r ∈ rs, r.1 ≠ .exhausted) :
    ∃ d₀, ∀ d ≥ d₀, run P abandon d goal θ V = ⟨rs, .exhausted W⟩ := by
  obtain ⟨d₀, hd₀⟩ := exists_rest_eq hcalls hrs (Node.explores_start hnode) hP
  refine ⟨d₀ + 1, ?_⟩
  intro d hd
  obtain ⟨d, rfl⟩ : ∃ n, d = n + 1 := ⟨d - 1, by omega⟩
  rw [run, ← rest_start hnode]
  exact hd₀ d (by omega)

/-- A caller who goes on after failures until the node is exhausted gets exactly the events of
the interpreter that abandons a body if the first thing that comes of it is a failure. If no
body fails first, these are the events of the interpreter that explores everything. -/
theorem search_abandons {P : Program} {goal : Formula} {θ : Substitution} {V W : Vocabulary}
    {node : Node} (hnode : Node.start θ goal = .ok node) (hP : P.KnownIn V)
    (rs : List (Outcome × Vocabulary)) (hcalls : node.Calls P V (rs ++ [(.exhausted, W)]))
    (hrs : ∀ r ∈ rs, r.1 ≠ .exhausted) :
    (∃ d₀, ∀ d ≥ d₀, run P abandon d goal θ V = ⟨rs, .exhausted W⟩) ∧
      (Steady P → ∃ d₀, ∀ d ≥ d₀, run P persist d goal θ V = ⟨rs, .exhausted W⟩) := by
  have hrun := exists_run_abandon_eq hnode hP hcalls hrs
  refine ⟨hrun, ?_⟩
  intro hsteady
  obtain ⟨d₀, hd₀⟩ := hrun
  refine ⟨d₀, ?_⟩
  intro d hd
  rw [run, solve_persist_eq hsteady]
  exact hd₀ d hd

/-- A rule for an atom that has a rule whose body cannot be resolved, and after it a fact. -/
def lossyRules : Program := .ofList
  [.rule ⟨⟨0⟩, []⟩ (.atom ⟨⟨1⟩, []⟩),
    .rule ⟨⟨1⟩, []⟩ (.disj [.atom ⟨⟨2⟩, []⟩, .atom ⟨⟨3⟩, []⟩]),
    .fact ⟨⟨1⟩, []⟩]

def lossyGoal : Formula := .atom ⟨⟨0⟩, []⟩

def disjunctionFailed : Outcome := .failed (.unresolvable .disjunction)

theorem calls_lossyRules :
    (Node.ready ⟨⟨0⟩, []⟩ 0 .empty).Calls lossyRules .empty
      [(disjunctionFailed, .empty), (.exhausted, .empty)] := by
  have hfirst : (Node.ready ⟨⟨0⟩, []⟩ 0 .empty).next lossyRules 10 .empty .closed = some _ := rfl
  have hcalls := Node.Calls.cons hfirst (by simp)
    (.cons (d := 10) (J := .closed) rfl (by simp) .nil)
  exact hcalls

/-- The rules for the inner atom alone. -/
def steadyRules : Program := .ofList
  [.rule ⟨⟨1⟩, []⟩ (.disj [.atom ⟨⟨2⟩, []⟩, .atom ⟨⟨3⟩, []⟩]), .fact ⟨⟨1⟩, []⟩]

theorem steady_steadyRules : Steady steadyRules := by
  intro d head body hrule r θ V e W _
  obtain ⟨-, hbody⟩ : head = ⟨⟨1⟩, []⟩ ∧ body = .disj [.atom ⟨⟨2⟩, []⟩, .atom ⟨⟨3⟩, []⟩] := by
    simpa [steadyRules, Program.ofList] using hrule
  refine ⟨.unresolvable .disjunction, ?_⟩
  rw [hbody, Formula.rename, Formula.mapTerms, Node.start]

/-- With the rule in front, the search abandons its body; without it, the failure costs nothing. -/
theorem search_abandons_lossyRules :
    (∃ d₀, ∀ d ≥ d₀,
      run lossyRules abandon d lossyGoal .empty .empty =
        ⟨[(disjunctionFailed, .empty)], .exhausted .empty⟩) ∧
    ∃ d₀, ∀ d ≥ d₀,
      run steadyRules persist d (.atom ⟨⟨1⟩, []⟩) .empty .empty =
        ⟨[(disjunctionFailed, .empty), (.solution .empty, .empty)], .exhausted .empty⟩ := by
  have hlossy := search_abandons (show Node.start .empty lossyGoal = .ok _ from rfl) (by decide)
    [(disjunctionFailed, .empty)] calls_lossyRules (by simp [disjunctionFailed])
  have hfirst : (Node.ready ⟨⟨1⟩, []⟩ 0 .empty).next steadyRules 10 .empty .closed = some _ := rfl
  have hcalls := Node.Calls.cons hfirst (by simp) (.cons (d := 10) (J := .closed) rfl (by simp)
    (.cons (d := 10) (J := .closed) rfl (by simp) .nil))
  have hsteady := search_abandons (show Node.start .empty (.atom ⟨⟨1⟩, []⟩) = .ok _ from rfl)
    (by decide) [(disjunctionFailed, .empty), (.solution .empty, .empty)] hcalls
    (by simp [disjunctionFailed])
  exact ⟨hlossy.1, hsteady.2 steady_steadyRules⟩

/-- The search loses a solution to a failure. If every body were explored to its end, the fact
would solve the goal after the failure; the node is exhausted without that solution, and the
query says that it has explored everything. -/
theorem search_loses_solution :
    run lossyRules persist 3 lossyGoal .empty .empty =
        ⟨[(disjunctionFailed, .empty), (.solution .empty, .empty)], .exhausted .empty⟩ ∧
      (Node.ready ⟨⟨0⟩, []⟩ 0 .empty).Calls lossyRules .empty
        [(disjunctionFailed, .empty), (.exhausted, .empty)] ∧
      ∃ q h, Query.start lossyRules lossyGoal .empty = .ok q ∧
        q.take 10 0 3 .empty .closed = some h ∧
        h.results = [.error (.unresolvable .disjunction)] ∧ h.query.solutions = 0 ∧
        h.query.stopped = some .exhausted :=
  ⟨rfl, calls_lossyRules, _, _, rfl, rfl, rfl, rfl, rfl⟩

end Exploration

end HornResolution
