import HornResolution.Proofs.DepthFirst
import HornResolution.Proofs.Resolution

/-!
# What a node stands for

A node is an interpreter run that was stopped at a solution or a failure. The rest of that
run can be written down from the node alone, and each call of `Node.next` takes its first
event off. This holds for every policy that gives the body of a rule up with a failure that
comes first and leaves it alone otherwise.
-/

namespace HornResolution

theorem exists_bound_of_succ {p : ℕ → Prop} (d₀ : ℕ) (h : ∀ d ≥ d₀, p (d + 1)) :
    ∃ d₀, ∀ d ≥ d₀, p d := by
  refine ⟨d₀ + 1, ?_⟩
  intro d hd
  obtain ⟨d, rfl⟩ : ∃ n, d = n + 1 := ⟨d - 1, by omega⟩
  exact h d (by omega)

namespace DepthFirst

variable {α : Type}

/-- The part of a run that a node stands for. A body that is being explored had a solution, so
nothing of it is given up any more. -/
def rest (P : Program) (policy : Policy α) : Node → ℕ → Continuation α → Vocabulary → Trace α
  | .ready goal i θ, d, k, V =>
    tryRules (policy.body (solve P policy d)) goal θ k (P.clauses.toList.drop i) V
  | .inBody _ _ _ _, 0, _, _ => .unfinished
  | .inBody goal i θ child, d + 1, k, V =>
    (rest P policy child d k V).andThen
      (tryRules (policy.body (solve P policy (d + 1))) goal θ k (P.clauses.toList.drop i))
  | .single first, d, k, V => rest P policy first d k V
  | .opening first remaining, d, k, V =>
    rest P policy first d (fun σ => solve P policy (d + 1) remaining σ k) V
  | .paired first remaining node, d, k, V =>
    (rest P policy node d k V).andThen
      (rest P policy first d fun σ => solve P policy (d + 1) remaining σ k)

/-- The part of a run that a task stands for. The remaining operands of a conjunction that is
asked again have no part in it. -/
def taskRest (P : Program) (policy : Policy α) :
    Task → ℕ → Continuation α → Vocabulary → Trace α
  | .node node, d, k, V => rest P policy node d k V
  | .first first remaining _, d, k, V =>
    rest P policy first d (fun σ => solve P policy (d + 1) remaining σ k) V

def Policy.answered (policy : Policy α) (k : Continuation α) (V : Vocabulary) : Outcome → Trace α
  | .solution σ => k σ V
  | .exhausted => .done V
  | .failed e => policy.failure e V

/-- What a run comes to that begins with a step. -/
def afterStep (P : Program) (policy : Policy α) (s : Step) (d : ℕ) (k : Continuation α) :
    Trace α :=
  (policy.answered k s.vocabulary s.outcome).andThen (rest P policy s.node d k)

/-- A failure that comes first is all that is left of the body of a rule, and any other body is
solved as a goal is. -/
structure Policy.GivesUp (policy : Policy α) : Prop where
  failure : ∀ {solver f θ V e W}, (∀ k, ∃ g, solver f θ k V = (policy.failure e W).andThen g) →
    ∀ k, policy.body solver f θ k V = policy.failure e W
  solution : ∀ {solver f θ V σ W}, (∀ k, ∃ g, solver f θ k V = (k σ W).andThen g) →
    ∀ k, policy.body solver f θ k V = solver f θ k V
  done : ∀ {solver f θ V W}, (∀ k, solver f θ k V = .done W) →
    ∀ k, policy.body solver f θ k V = solver f θ k V

def Policy.Halts (policy : Policy α) : Prop :=
  ∀ e V g, (policy.failure e V).andThen g = .failed e V

theorem halts_halting : halting.Halts := fun _ _ _ => rfl

theorem givesUp_halting : halting.GivesUp where
  failure := by
    intro solver f θ V e W h k
    obtain ⟨g, hg⟩ := h k
    exact hg.trans (halts_halting e W g)
  solution := fun _ _ => rfl
  done := fun _ _ => rfl

section Starting

variable {P : Program} {policy : Policy α} {f : Formula} {θ : Substitution} {k : Continuation α}
  {V : Vocabulary}

theorem drop_of_get? {i : ℕ} {rule : Clause} (h : P.get? i = some rule) :
    P.clauses.toList.drop i = rule :: P.clauses.toList.drop (i + 1) := by
  have hi : P.clauses.toList[i]? = some rule := by simpa [Program.get?] using h
  obtain ⟨hlt, rfl⟩ := List.getElem?_eq_some_iff.mp hi
  exact List.drop_eq_getElem_cons hlt

theorem drop_of_get?_none {i : ℕ} (h : P.get? i = none) : P.clauses.toList.drop i = [] := by
  have hi : P.clauses.toList[i]? = none := by simpa [Program.get?] using h
  exact List.drop_eq_nil_of_le (List.getElem?_eq_none_iff.mp hi)

/-- A new node stands for the whole run of its goal. -/
theorem rest_start {node : Node} (h : Node.start θ f = .ok node) (d : ℕ) :
    rest P policy node d k V = solve P policy (d + 1) f θ k V := by
  induction f using Formula.induction generalizing node k with
  | atom a =>
    rw [Node.start] at h
    obtain rfl := Except.ok.inj h
    rw [rest, solve_atom, List.drop_zero]
  | conj fs ih =>
    rw [Node.start] at h
    cases fs with
    | nil => simp [Node.startOperands] at h
    | cons f fs =>
      rw [Node.startOperands] at h
      split at h
      · simp at h
      · rename_i first hfirst
        cases fs with
        | nil =>
          obtain rfl := Except.ok.inj h
          rw [rest, solve_single]
          exact ih f (by simp) hfirst
        | cons g gs =>
          obtain rfl := Except.ok.inj h
          rw [rest, solve_conj]
          exact ih f (by simp) hfirst
  | disj fs _ => simp [Node.start] at h
  | neg f _ => simp [Node.start] at h

theorem rest_of_spent {node : Node} (h : node.Spent P) (d : ℕ) (k : Continuation α) :
    rest P policy node d k V = .done V := by
  induction h generalizing k V with
  | ready hrule => rw [rest, drop_of_get?_none hrule, tryRules]
  | single _ ih => rw [rest, ih]
  | opening _ ih => rw [rest, ih]
  | paired _ _ ihfirst ihrest => rw [rest, ihrest, Trace.done_andThen, ihfirst]

theorem rest_conjunction {first : Node} {remaining : Formula} {rest? : Option Node}
    (h : Task.RestSpent P (.first first remaining rest?)) {node : Node} (d : ℕ) :
    rest P policy (Node.conjunction node remaining rest?) d k V =
      rest P policy node d (fun σ => solve P policy (d + 1) remaining σ k) V := by
  cases rest? with
  | none => rw [Node.conjunction, rest]
  | some r => rw [Node.conjunction, rest, rest_of_spent (h r rfl), Trace.done_andThen]

end Starting

section Steps

variable {P : Program} {policy : Policy α} {s : Step} {d : ℕ} {k : Continuation α}

theorem afterStep_solution {σ : Substitution} (hs : s.outcome = .solution σ) :
    afterStep P policy s d k = (k σ s.vocabulary).andThen (rest P policy s.node d k) := by
  rw [afterStep, hs, Policy.answered]

theorem afterStep_failed {e : Misuse} (hs : s.outcome = .failed e) :
    afterStep P policy s d k =
      (policy.failure e s.vocabulary).andThen (rest P policy s.node d k) := by
  rw [afterStep, hs, Policy.answered]

theorem afterStep_andThen {d' : ℕ} {node : Node} {f : Vocabulary → Trace α}
    (hnode : ∀ V, rest P policy node d' k V = (rest P policy s.node d k V).andThen f) :
    (afterStep P policy s d k).andThen f = afterStep P policy (s.within node) d' k := by
  rw [afterStep, Trace.andThen_assoc]
  exact congrArg (Trace.andThen _) (funext fun V => (hnode V).symm)

theorem afterStep_of_ended {k' : Continuation α} {node : Node}
    (hs : ∀ σ, s.outcome ≠ .solution σ)
    (hnode : ∀ V, rest P policy node d k V = rest P policy s.node d k' V) :
    afterStep P policy s d k' = afterStep P policy (s.within node) d k := by
  have hanswered : policy.answered k' s.vocabulary s.outcome =
      policy.answered k s.vocabulary s.outcome := by
    cases hout : s.outcome with
    | solution σ => exact absurd hout (hs σ)
    | exhausted => rfl
    | failed e => rfl
  rw [afterStep, hanswered]
  exact congrArg (Trace.andThen _) (funext fun V => (hnode V).symm)

variable {task : Task} {V : Vocabulary} {J : Journal}

theorem afterStep_exhausted (h : Takes P task V J s) (htask : task.RestSpent P)
    (hs : s.outcome = .exhausted) : afterStep P policy s d k = .done s.vocabulary := by
  rw [afterStep, hs, Policy.answered, Trace.done_andThen, rest_of_spent (h.spent htask hs)]

theorem restSpent_of_exhausted {node first : Node} {remaining : Formula}
    (h : Takes P (.node node) V J s) (hs : s.outcome = .exhausted) :
    Task.RestSpent P (.first first remaining (some s.node)) := by
  intro r hr
  obtain rfl := Option.some.inj hr
  exact h.spent trivial hs

end Steps

section Rules

variable {P : Program} {policy : Policy α} {goal : Atom} {i : ℕ} {θ : Substitution}
  {V V' : Vocabulary} {J J' : Journal} {course : Course} {d : ℕ} {k : Continuation α}

/-- A node about to try a rule stands for what the rule gives and then for the node after it. -/
theorem rest_ready_of_tried (h : Tried P goal i θ V J V' J' course) :
    ∃ copy, Trial goal θ copy course ∧ ∀ k, rest P policy (.ready goal i θ) d k V =
      (tryRule (policy.body (solve P policy d)) goal θ k copy V').andThen
        (rest P policy (.ready goal (i + 1) θ) d k) := by
  obtain ⟨hrule, hcopy, -, htrial⟩ := h
  refine ⟨_, htrial, fun k => ?_⟩
  rw [rest, drop_of_get? hrule, tryRules_cons _ hcopy]
  rfl

theorem rest_ready_passed (h : Tried P goal i θ V J V' J' .passed) :
    rest P policy (.ready goal i θ) d k V = rest P policy (.ready goal (i + 1) θ) d k V' := by
  obtain ⟨copy, htrial, hrest⟩ := rest_ready_of_tried h
  rw [hrest]
  cases htrial with
  | headless body => rfl
  | factMismatch hclash => rw [tryRule, hclash, Trace.done_andThen]
  | ruleMismatch hclash => rw [tryRule, hclash, Trace.done_andThen]

theorem rest_ready_solved {σ : Substitution} (h : Tried P goal i θ V J V' J' (.solved σ)) :
    rest P policy (.ready goal i θ) d k V =
      (k σ V').andThen (rest P policy (.ready goal (i + 1) θ) d k) := by
  obtain ⟨copy, htrial, hrest⟩ := rest_ready_of_tried h
  cases htrial with
  | fact hσ => rw [hrest, tryRule, hσ]

theorem rest_ready_entered {child : Node} (h : Tried P goal i θ V J V' J' (.entered child)) :
    ∃ body τ, Node.start τ body = .ok child ∧ ∀ k, rest P policy (.ready goal i θ) d k V =
      (policy.body (solve P policy d) body τ k V').andThen
        (rest P policy (.ready goal (i + 1) θ) d k) := by
  obtain ⟨copy, htrial, hrest⟩ := rest_ready_of_tried h
  cases htrial with
  | entered hτ hbody =>
    refine ⟨_, _, hbody, fun k => ?_⟩
    rw [hrest, tryRule, hτ]

section Bodies

variable (hpolicy : policy.GivesUp)

include hpolicy

theorem rest_ready_blocked {e : Misuse} (h : Tried P goal i θ V J V' J' (.blocked e)) :
    rest P policy (.ready goal i θ) (d + 1) k V =
      (policy.failure e V').andThen (rest P policy (.ready goal (i + 1) θ) (d + 1) k) := by
  obtain ⟨copy, htrial, hrest⟩ := rest_ready_of_tried h
  cases htrial with
  | @blocked head body τ _ hτ hbody =>
    have hgoal : ∀ k, solve P policy (d + 1) body τ k V' =
        (policy.failure e V').andThen .done := by
      intro k
      rw [solve_of_start_error hbody, Trace.andThen_done]
    rw [hrest, tryRule, hτ]
    exact congrArg (Trace.andThen · _) (hpolicy.failure (fun k => ⟨.done, hgoal k⟩) k)

variable {child : Node} (h : Tried P goal i θ V J V' J' (.entered child)) {s : Step}
  (hrun : ∀ k, rest P policy child d k V' = afterStep P policy s d k)

include h hrun

theorem rest_ready_failed {e : Misuse} (hs : s.outcome = .failed e) :
    rest P policy (.ready goal i θ) (d + 1) k V = (policy.failure e s.vocabulary).andThen
      (rest P policy (.ready goal (i + 1) θ) (d + 1) k) := by
  obtain ⟨body, τ, hbody, hrest⟩ := rest_ready_entered h
  have hgoal : ∀ k, solve P policy (d + 1) body τ k V' = afterStep P policy s d k :=
    fun k => (rest_start hbody d).symm.trans (hrun k)
  rw [hrest, hpolicy.failure fun k => ⟨_, (hgoal k).trans (afterStep_failed hs)⟩]

theorem rest_ready_explored (htakes : Takes P (.node child) V' J' s)
    (hs : ∀ e, s.outcome ≠ .failed e) :
    rest P policy (.ready goal i θ) (d + 1) k V = (rest P policy child d k V').andThen
      (rest P policy (.ready goal (i + 1) θ) (d + 1) k) := by
  obtain ⟨body, τ, hbody, hrest⟩ := rest_ready_entered h
  have hgoal : ∀ k, solve P policy (d + 1) body τ k V' = afterStep P policy s d k :=
    fun k => (rest_start hbody d).symm.trans (hrun k)
  rw [hrest, rest_start hbody]
  cases hout : s.outcome with
  | solution σ => rw [hpolicy.solution fun k => ⟨_, (hgoal k).trans (afterStep_solution hout)⟩]
  | exhausted =>
    rw [hpolicy.done fun k => (hgoal k).trans (afterStep_exhausted htakes trivial hout)]
  | failed e => exact absurd hout (hs e)

end Bodies

end Rules

section Simulation

variable {P : Program} {policy : Policy α} {task : Task} {goal : Atom} {i : ℕ} {θ : Substitution}
  {child first node : Node} {remaining : Formula} {rest? : Option Node} {V V' : Vocabulary}
  {J J' : Journal} {s r : Step}

/-- At every depth that is large enough, a step takes the first event off what a task stands
for. -/
def TakesOff (P : Program) (policy : Policy α) (task : Task) (V : Vocabulary) (s : Step) : Prop :=
  ∃ d₀, ∀ d ≥ d₀, ∀ k, taskRest P policy task d k V = afterStep P policy s d k

namespace TakesOff

section Atoms

theorem unknown {rule : Clause} {e : Misuse} (hrule : P.get? i = some rule)
    (hcopy : rule.standardizeApart V = (.error e, V')) (hP : policy.Halts ∨ P.KnownIn V) :
    TakesOff P policy (.node (.ready goal i θ)) V ⟨.failed e, .ready goal i θ, V', J⟩ := by
  refine ⟨0, fun d _ k => ?_⟩
  rcases hP with hhalts | hP
  · rw [taskRest, rest, drop_of_get? hrule, tryRules, hcopy, afterStep]
    exact (hhalts _ _ _).symm
  · obtain ⟨copy, V', hcopy'⟩ := Clause.exists_copy (hP _ (Array.mem_of_getElem? hrule))
    rw [hcopy] at hcopy'
    simp at hcopy'

theorem passed (htried : Tried P goal i θ V J V' J' .passed)
    (h : TakesOff P policy (.node (.ready goal (i + 1) θ)) V' s) :
    TakesOff P policy (.node (.ready goal i θ)) V s := by
  obtain ⟨d₀, hd₀⟩ := h
  refine ⟨d₀, fun d hd k => ?_⟩
  rw [taskRest, rest_ready_passed htried]
  exact hd₀ d hd k

theorem solved {σ : Substitution} (htried : Tried P goal i θ V J V' J' (.solved σ)) :
    TakesOff P policy (.node (.ready goal i θ)) V
      ⟨.solution σ, .ready goal (i + 1) θ, V', J'⟩ := by
  refine ⟨0, fun d _ k => ?_⟩
  rw [taskRest, rest_ready_solved htried]
  rfl

variable (hpolicy : policy.GivesUp)

include hpolicy

theorem blocked {e : Misuse} (htried : Tried P goal i θ V J V' J' (.blocked e)) :
    TakesOff P policy (.node (.ready goal i θ)) V ⟨.failed e, .ready goal (i + 1) θ, V', J'⟩ := by
  refine exists_bound_of_succ 0 fun d _ k => ?_
  rw [taskRest, rest_ready_blocked hpolicy htried]
  rfl

variable (htried : Tried P goal i θ V J V' J' (.entered child))
  (hchild : TakesOff P policy (.node child) V' s)

include htried hchild

theorem bodySolution {σ : Substitution} (hstep : Takes P (.node child) V' J' s)
    (hs : s.outcome = .solution σ) :
    TakesOff P policy (.node (.ready goal i θ)) V
      (s.within (.inBody goal (i + 1) θ s.node)) := by
  obtain ⟨d₀, hd₀⟩ := hchild
  refine exists_bound_of_succ d₀ fun d hd k => ?_
  have hrun : ∀ k, rest P policy child d k V' = afterStep P policy s d k := hd₀ d hd
  rw [taskRest, rest_ready_explored hpolicy htried hrun hstep (by simp [hs]), hrun]
  exact afterStep_andThen fun V => rfl

theorem bodyFailed {e : Misuse} (hs : s.outcome = .failed e) :
    TakesOff P policy (.node (.ready goal i θ)) V (s.within (.ready goal (i + 1) θ)) := by
  obtain ⟨d₀, hd₀⟩ := hchild
  refine exists_bound_of_succ d₀ fun d hd k => ?_
  rw [taskRest, rest_ready_failed hpolicy htried (hd₀ d hd) hs, afterStep, Step.outcome_within, hs]
  rfl

theorem bodyExhausted (hstep : Takes P (.node child) V' J' s) (hs : s.outcome = .exhausted)
    (hnext : TakesOff P policy (.node (.ready goal (i + 1) θ)) s.vocabulary r) :
    TakesOff P policy (.node (.ready goal i θ)) V r := by
  obtain ⟨d₁, hd₁⟩ := hchild
  obtain ⟨d₂, hd₂⟩ := hnext
  refine exists_bound_of_succ (max d₁ d₂) fun d hd k => ?_
  have hrun : ∀ k, rest P policy child d k V' = afterStep P policy s d k := hd₁ d (by omega)
  rw [taskRest, rest_ready_explored hpolicy htried hrun hstep (by simp [hs]), hrun,
    afterStep_exhausted hstep trivial hs, Trace.done_andThen]
  exact hd₂ (d + 1) (by omega) k

end Atoms

section Bodies

variable (hchild : TakesOff P policy (.node child) V s)

include hchild

theorem resumed : TakesOff P policy (.node (.inBody goal i θ child)) V
    (s.within (.inBody goal i θ s.node)) := by
  obtain ⟨d₀, hd₀⟩ := hchild
  refine exists_bound_of_succ d₀ fun d hd k => ?_
  have hrun : rest P policy child d k V = afterStep P policy s d k := hd₀ d hd k
  rw [taskRest, rest, hrun]
  exact afterStep_andThen fun V => rfl

theorem resumedExhausted (hstep : Takes P (.node child) V J s) (hs : s.outcome = .exhausted)
    (hnext : TakesOff P policy (.node (.ready goal i θ)) s.vocabulary r) :
    TakesOff P policy (.node (.inBody goal i θ child)) V r := by
  obtain ⟨d₁, hd₁⟩ := hchild
  obtain ⟨d₂, hd₂⟩ := hnext
  refine exists_bound_of_succ (max d₁ d₂) fun d hd k => ?_
  have hrun : rest P policy child d k V = .done s.vocabulary :=
    (hd₁ d (by omega) k).trans (afterStep_exhausted hstep trivial hs)
  rw [taskRest, rest, hrun, Trace.done_andThen]
  exact hd₂ (d + 1) (by omega) k

end Bodies

section Pairs

variable (hnode : TakesOff P policy (.node node) V s)

include hnode

theorem paired : TakesOff P policy (.node (.paired first remaining node)) V
    (s.within (.paired first remaining s.node)) := by
  obtain ⟨d₀, hd₀⟩ := hnode
  refine ⟨d₀, fun d hd k => ?_⟩
  have hrun : rest P policy node d k V = afterStep P policy s d k := hd₀ d hd k
  rw [taskRest, rest, hrun]
  exact afterStep_andThen fun V => rfl

theorem pairedExhausted (hstep : Takes P (.node node) V J s) (hs : s.outcome = .exhausted)
    (hnext : TakesOff P policy (.first first remaining (some s.node)) s.vocabulary r) :
    TakesOff P policy (.node (.paired first remaining node)) V r := by
  obtain ⟨d₁, hd₁⟩ := hnode
  obtain ⟨d₂, hd₂⟩ := hnext
  refine ⟨max d₁ d₂, fun d hd k => ?_⟩
  have hrun : rest P policy node d k V = .done s.vocabulary :=
    (hd₁ d (by omega) k).trans (afterStep_exhausted hstep trivial hs)
  rw [taskRest, rest, hrun, Trace.done_andThen]
  exact hd₂ d (by omega) k

end Pairs

section Operands

variable (hfirst : TakesOff P policy (.node first) V s)

include hfirst

theorem firstEnded (hspent : Task.RestSpent P (.first first remaining rest?))
    (hs : ∀ σ, s.outcome ≠ .solution σ) :
    TakesOff P policy (.first first remaining rest?) V
      (s.within (.conjunction s.node remaining rest?)) := by
  obtain ⟨d₀, hd₀⟩ := hfirst
  refine ⟨d₀, fun d hd k => (hd₀ d hd _).trans ?_⟩
  exact afterStep_of_ended hs fun V => rest_conjunction hspent d

variable {σ : Substitution} (hs : s.outcome = .solution σ)

include hs

theorem restBlocked (hspent : Task.RestSpent P (.first first remaining rest?)) {e : Misuse}
    (hstart : Node.start σ remaining = .error e) :
    TakesOff P policy (.first first remaining rest?) V
      { s with outcome := .failed e, node := .conjunction s.node remaining rest? } := by
  obtain ⟨d₀, hd₀⟩ := hfirst
  refine ⟨d₀, fun d hd k => (hd₀ d hd _).trans ?_⟩
  rw [afterStep_solution hs, solve_of_start_error hstart]
  exact congrArg (Trace.andThen _) (funext fun V => (rest_conjunction hspent d).symm)

variable (hstart : Node.start σ remaining = .ok node)
  (hnode : TakesOff P policy (.node node) s.vocabulary r)

include hstart hnode

theorem restStepped : TakesOff P policy (.first first remaining rest?) V
    (r.within (.paired s.node remaining r.node)) := by
  obtain ⟨d₁, hd₁⟩ := hfirst
  obtain ⟨d₂, hd₂⟩ := hnode
  refine ⟨max d₁ d₂, fun d hd k => (hd₁ d (by omega) _).trans ?_⟩
  have hrun : rest P policy node d k s.vocabulary = afterStep P policy r d k :=
    hd₂ d (by omega) k
  rw [rest_start hstart] at hrun
  rw [afterStep_solution hs, hrun]
  exact afterStep_andThen fun V => rfl

theorem backtracked {t : Step} (hstep : Takes P (.node node) s.vocabulary J r)
    (hr : r.outcome = .exhausted)
    (hnext : TakesOff P policy (.first s.node remaining (some r.node)) r.vocabulary t) :
    TakesOff P policy (.first first remaining rest?) V t := by
  obtain ⟨d₁, hd₁⟩ := hfirst
  obtain ⟨d₂, hd₂⟩ := hnode
  obtain ⟨d₃, hd₃⟩ := hnext
  refine ⟨max d₁ (max d₂ d₃), fun d hd k => (hd₁ d (by omega) _).trans ?_⟩
  have hrun : rest P policy node d k s.vocabulary = .done r.vocabulary :=
    (hd₂ d (by omega) k).trans (afterStep_exhausted hstep trivial hr)
  rw [rest_start hstart] at hrun
  rw [afterStep_solution hs, hrun, Trace.done_andThen]
  exact hd₃ d (by omega) k

end Operands

end TakesOff

/-- A step takes the first event off the run that a task stands for. A rule of which there is no
copy is met again by the next call, so there must be copies of all rules unless failures end the
run. -/
theorem takesOff_of_takes (hpolicy : policy.GivesUp) (h : Takes P task V J s)
    (hs : s.outcome ≠ .failed .unnamed) {f : Formula} {θ : Substitution}
    (htask : task.Explores P 0 f θ) (hspent : task.RestSpent P)
    (hP : policy.Halts ∨ P.KnownIn V) : TakesOff P policy task V s := by
  induction h generalizing f θ with
  | exhausted hrule _ => exact ⟨0, fun d _ k => rfl⟩
  | exhaustedUnnamed _ _ => exact absurd rfl hs
  | unknown hrule hcopy => exact .unknown hrule hcopy hP
  | unnamed _ _ _ => exact absurd rfl hs
  | passed htried _ ih =>
    cases htask with | node hnode =>
    cases hnode
    exact .passed htried
      (ih hs (.node (.ready _ _ _)) trivial (hP.imp_right (·.mono htried.varCount_le)))
  | solved htried => exact .solved htried
  | blocked htried => exact .blocked hpolicy htried
  | bodySolution htried hstep hbody ih =>
    obtain ⟨f, θ, hchild⟩ := htried.explores_child
    have hrun := ih hs (.node hchild) trivial (hP.imp_right (·.mono htried.varCount_le))
    exact .bodySolution hpolicy htried hrun hstep hbody
  | bodyFailed htried _ hbody ih =>
    obtain ⟨f, θ, hchild⟩ := htried.explores_child
    have hrun := ih hs (.node hchild) trivial (hP.imp_right (·.mono htried.varCount_le))
    exact .bodyFailed hpolicy htried hrun hbody
  | bodyExhausted htried hstep hbody _ ihbody ih =>
    cases htask with | node hnode =>
    cases hnode
    obtain ⟨f, θ, hchild⟩ := htried.explores_child
    have hP' := hP.imp_right (·.mono htried.varCount_le)
    have hrun := ihbody (by simp [hbody]) (.node hchild) trivial hP'
    exact .bodyExhausted hpolicy htried hrun hstep hbody
      (ih hs (.node (.ready _ _ _)) trivial (hP'.imp_right (·.mono hstep.varCount_le)))
  | resumed _ _ ih =>
    cases htask with | node hnode =>
    cases hnode with | inBody _ _ hchild =>
    exact (ih hs (.node hchild) trivial hP).resumed
  | resumedExhausted hstep hbody _ ihbody ih =>
    cases htask with | node hnode =>
    cases hnode with | inBody _ _ hchild =>
    have hrun := ihbody (by simp [hbody]) (.node hchild) trivial hP
    exact hrun.resumedExhausted hstep hbody
      (ih hs (.node (.ready _ _ _)) trivial (hP.imp_right (·.mono hstep.varCount_le)))
  | single _ ih =>
    cases htask with | node hnode =>
    cases hnode with | single hfirst =>
    exact ih hs (.node hfirst) trivial hP
  | opening _ ih =>
    cases htask with | node hnode =>
    cases hnode with | opening hfirst =>
    exact ih hs (.first hfirst (by simp [Node.RestExplores])) (by simp [Task.RestSpent]) hP
  | paired _ _ ih =>
    cases htask with | node hnode =>
    cases hnode with | paired _ _ hrest =>
    exact (ih hs (.node hrest) trivial hP).paired
  | pairedExhausted hstep hr _ ihrest ih =>
    cases htask with | node hnode =>
    cases hnode with | paired hfirst hτ hrest =>
    have hrun := ihrest (by simp [hr]) (.node hrest) trivial hP
    have hnode' := (hstep.explores_node hrest).1
    exact hrun.pairedExhausted hstep hr (ih hs (.first hfirst (.some hτ hnode'))
      (restSpent_of_exhausted hstep hr) (hP.imp_right (·.mono hstep.varCount_le)))
  | firstEnded _ hended ih =>
    cases htask with | first hfirst _ =>
    exact (ih hs (.node hfirst) trivial hP).firstEnded hspent hended
  | restBlocked _ hsol hrenew ih =>
    cases htask with | first hfirst hrest =>
    rw [hrest.renew_eq_start] at hrenew
    exact (ih (by simp [hsol]) (.node hfirst) trivial hP).restBlocked hsol hspent hrenew
  | restStepped hstep hsol hrenew _ _ ihfirst ihrest =>
    cases htask with | first hfirst hrest =>
    rw [hrest.renew_eq_start] at hrenew
    have hrun := ihfirst (by simp [hsol]) (.node hfirst) trivial hP
    exact hrun.restStepped hsol hrenew (ihrest hs (.node (Node.explores_start hrenew)) trivial
      (hP.imp_right (·.mono hstep.varCount_le)))
  | backtrackUnnamed _ _ _ _ _ _ _ _ => exact absurd rfl hs
  | backtracked hstep hsol hrenew hstep' hr _ _ ihfirst ihrest ih =>
    cases htask with | first hfirst hrest =>
    rw [hrest.renew_eq_start] at hrenew
    have hnode : Node.Explores P 0 _ _ _ := Node.explores_start hrenew
    have hP' := hP.imp_right (·.mono hstep.varCount_le)
    obtain ⟨hfirst', hresolves⟩ := hstep.explores_node hfirst
    have hnode' := (hstep'.explores_node hnode).1
    have hrun := ihfirst (by simp [hsol]) (.node hfirst) trivial hP
    have hrun' := ihrest (by simp [hr]) (.node hnode) trivial hP'
    exact hrun.backtracked hsol hrenew hrun' hstep' hr
      (ih hs (.first hfirst' (.some (hresolves _ hsol) hnode'))
        (restSpent_of_exhausted hstep' hr) (hP'.imp_right (·.mono hstep'.varCount_le)))

end Simulation

end DepthFirst

end HornResolution
