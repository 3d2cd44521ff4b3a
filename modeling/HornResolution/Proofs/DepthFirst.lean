import HornResolution.Proofs.SearchSteps

/-!
# A plain depth-first interpreter

`DepthFirst.solve` is what a search means, written as one recursion that keeps
nothing between solutions: it hands every solution to a continuation and goes on with
the alternatives when that returns. Rules are tried in program order, each as a copy
made at that moment, and the vocabulary is threaded through everything that happens.

What a goal that cannot be resolved does to a run is a policy; under `halting` the run
ends there. A run is recorded as a trace, which lists what it came upon with the
vocabularies of these moments and says how it ended. The interpreter is bounded in how
deep bodies are nested, and a run that would go deeper is left unfinished.
-/

namespace HornResolution

namespace DepthFirst

inductive Ending where
  /-- Every alternative was tried. -/
  | exhausted (V : Vocabulary)
  | failed (e : Misuse) (V : Vocabulary)
  /-- The bound on the depth was reached. -/
  | unfinished

/-- The record of a run. -/
structure Trace (α : Type) where
  entries : List (α × Vocabulary)
  ending : Ending

variable {α : Type}

namespace Trace

def done (V : Vocabulary) : Trace α := ⟨[], .exhausted V⟩

def failed (e : Misuse) (V : Vocabulary) : Trace α := ⟨[], .failed e V⟩

def unfinished : Trace α := ⟨[], .unfinished⟩

def entry (a : α) (V : Vocabulary) : Trace α := ⟨[(a, V)], .exhausted V⟩

/-- A run followed by another, unless it did not come to its end. -/
def andThen (t : Trace α) (next : Vocabulary → Trace α) : Trace α :=
  match t.ending with
  | .exhausted V => ⟨t.entries ++ (next V).entries, (next V).ending⟩
  | _ => t

/-- What there is to see of a run that records its solutions, in order: the solutions, and after
them the failure, or exhaustion from then on. -/
def event? (t : Trace Substitution) (i : ℕ) : Option (Outcome × Vocabulary) :=
  match t.entries[i]? with
  | some (σ, V) => some (.solution σ, V)
  | none =>
    match t.ending with
    | .exhausted V => some (.exhausted, V)
    | .failed e V => if i = t.entries.length then some (.failed e, V) else none
    | .unfinished => none

variable (t : Trace α) (f g : Vocabulary → Trace α)

@[simp] theorem done_andThen (V : Vocabulary) : (done V).andThen f = f V := rfl

@[simp] theorem failed_andThen (e : Misuse) (V : Vocabulary) :
    (failed e V).andThen f = failed e V := rfl

@[simp] theorem unfinished_andThen : unfinished.andThen f = unfinished := rfl

@[simp] theorem entry_andThen (a : α) (V : Vocabulary) :
    (entry a V).andThen f = ⟨(a, V) :: (f V).entries, (f V).ending⟩ := rfl

theorem event?_entry_andThen_succ (f : Vocabulary → Trace Substitution) (σ : Substitution)
    (V : Vocabulary) (i : ℕ) : ((entry σ V).andThen f).event? (i + 1) = (f V).event? i := by
  simp [event?]

theorem andThen_of_exhausted {t : Trace α} {V : Vocabulary} (h : t.ending = .exhausted V) :
    t.andThen f = ⟨t.entries ++ (f V).entries, (f V).ending⟩ := by
  rw [andThen, h]

@[simp] theorem andThen_done : t.andThen done = t := by
  rcases t with ⟨entries, V | ⟨e, V⟩ | _⟩ <;> simp [andThen, done]

theorem andThen_assoc : (t.andThen f).andThen g = t.andThen fun V => (f V).andThen g := by
  rcases t with ⟨entries, V | ⟨e, V⟩ | _⟩
  · rcases hf : f V with ⟨inner, W | ⟨e, W⟩ | _⟩ <;> simp [andThen, hf]
  · rfl
  · rfl

end Trace

/-- What is done with a solution. -/
abbrev Continuation (α : Type) := Substitution → Vocabulary → Trace α

/-- Solves a goal under a substitution. -/
abbrev Solver (α : Type) := Formula → Substitution → Continuation α → Vocabulary → Trace α

/-- What a failure does to a run. -/
structure Policy (α : Type) where
  /-- What becomes of a run at a goal that cannot be resolved. -/
  failure : Misuse → Vocabulary → Trace α
  /-- How the body of a rule is solved by means of a solver for goals. -/
  body : Solver α → Solver α

def halting : Policy Substitution := ⟨.failed, id⟩

section Interpreter

variable (P : Program) (policy : Policy α) (enter : Solver α)

/-- Tries a copy of a rule for an atom. A clause without a head and a head that does not
unify are passed over. -/
def tryRule (goal : Atom) (θ : Substitution) (k : Continuation α) :
    Clause → Vocabulary → Trace α
  | .goal _, V => .done V
  | .fact head, V =>
    match unify (.atom goal) (.atom head) θ with
    | .error _ => .done V
    | .ok σ => k σ V
  | .rule head body, V =>
    match unify (.atom goal) (.atom head) θ with
    | .error _ => .done V
    | .ok σ => enter body σ k V

/-- Tries rules in order, each renamed apart at the moment it is tried. A rule of which there is
no copy ends the run. -/
def tryRules (goal : Atom) (θ : Substitution) (k : Continuation α) :
    List Clause → Vocabulary → Trace α
  | [], V => .done V
  | rule :: rules, V =>
    match rule.standardizeApart V with
    | (.error e, V') => .failed e V'
    | (.ok copy, V') => (tryRule enter goal θ k copy V').andThen (tryRules goal θ k rules)

mutual

/-- Solves a goal by a given way to solve the bodies of rules. -/
def solveWith : Solver α
  | .atom a, θ, k, V => tryRules enter a θ k P.clauses.toList V
  | .conj fs, θ, k, V => solveOperands fs θ k V
  | .disj _, _, _, V => policy.failure (.unresolvable .disjunction) V
  | .neg _, _, _, V => policy.failure (.unresolvable .negation) V

def solveOperands : List Formula → Substitution → Continuation α → Vocabulary → Trace α
  | [], _, _, V => policy.failure .emptyConjunction V
  | f :: fs, θ, k, V =>
    match fs with
    | [] => solveWith f θ k V
    | g :: gs => solveWith f θ (fun σ => solveOperands (g :: gs) σ k) V

end

/-- Solves a goal with bodies nested less than `depth` deep. -/
def solve : (depth : ℕ) → Solver α
  | 0 => fun _ _ _ _ => .unfinished
  | depth + 1 => solveWith P policy (policy.body (solve depth))

def run (depth : ℕ) (goal : Formula) (θ : Substitution) (V : Vocabulary) : Trace Substitution :=
  solve P halting depth goal θ .entry V

end Interpreter

section Equations

variable {P : Program} {policy : Policy α} {enter : Solver α} {goal : Atom} {f : Formula}
  {θ : Substitution} {k : Continuation α} {V V' : Vocabulary}

theorem tryRules_cons {rule copy : Clause} (rules : List Clause)
    (h : rule.standardizeApart V = (.ok copy, V')) :
    tryRules enter goal θ k (rule :: rules) V =
      (tryRule enter goal θ k copy V').andThen (tryRules enter goal θ k rules) := by
  rw [tryRules, h]

theorem solve_atom (d : ℕ) (a : Atom) :
    solve P policy (d + 1) (.atom a) θ k V =
      tryRules (policy.body (solve P policy d)) a θ k P.clauses.toList V := by
  rw [solve, solveWith]

theorem solve_halting_atom {k : Continuation Substitution} (d : ℕ) (a : Atom) :
    solve P halting (d + 1) (.atom a) θ k V =
      tryRules (solve P halting d) a θ k P.clauses.toList V :=
  solve_atom d a

theorem solve_single (d : ℕ) (f : Formula) :
    solve P policy (d + 1) (.conj [f]) θ k V = solve P policy (d + 1) f θ k V := by
  rw [solve, solveWith, solveOperands]

theorem solve_conj (d : ℕ) (f g : Formula) (gs : List Formula) :
    solve P policy (d + 1) (.conj (f :: g :: gs)) θ k V =
      solve P policy (d + 1) f θ (fun σ => solve P policy (d + 1) (.conj (g :: gs)) σ k) V := by
  simp only [solve, solveWith, solveOperands]

theorem solve_of_start_error {e : Misuse} (h : Node.start θ f = .error e) (d : ℕ) :
    solve P policy (d + 1) f θ k V = policy.failure e V := by
  induction f using Formula.induction generalizing k with
  | atom a => simp [Node.start] at h
  | conj fs ih =>
    rw [Node.start] at h
    cases fs with
    | nil =>
      obtain rfl : Misuse.emptyConjunction = e := by simpa [Node.startOperands] using h
      rw [solve, solveWith, solveOperands]
    | cons f fs =>
      rw [Node.startOperands] at h
      split at h
      · rename_i e' hfirst
        obtain rfl := Except.error.inj h
        cases fs with
        | nil =>
          rw [solve_single]
          exact ih f (by simp) hfirst
        | cons g gs =>
          rw [solve_conj]
          exact ih f (by simp) hfirst
      · cases fs <;> simp at h
  | disj fs _ =>
    obtain rfl : Misuse.unresolvable .disjunction = e := by simpa [Node.start] using h
    rw [solve, solveWith]
  | neg f _ =>
    obtain rfl : Misuse.unresolvable .negation = e := by simpa [Node.start] using h
    rw [solve, solveWith]

end Equations

end DepthFirst

end HornResolution
