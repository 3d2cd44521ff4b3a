import HornResolution.Display
import HornResolution.Unification.Diagnostic

/-!
# Events of a search

A search reports what it does as a list of events. An event holds the goal and
clause that it speaks of; its text is made only when someone asks for it.
-/

namespace HornResolution

/-- Why a query gives no more solutions. -/
inductive StopReason where
  | exhausted
  | solutionLimit
  | timeout
deriving DecidableEq

namespace StopReason

def name : StopReason → String
  | .exhausted => "exhausted"
  | .solutionLimit => "solution_limit"
  | .timeout => "timeout"

/-- The spelling in log lines. -/
def title : StopReason → String
  | .exhausted => "Exhausted"
  | .solutionLimit => "SolutionLimit"
  | .timeout => "Timeout"

end StopReason

inductive Event where
  /-- A clause without a head was passed over. -/
  | skipped (rule : Clause)
  | mismatched (goal head : Atom) (cause : Clash)
  | solvedByFact (goal head : Atom)
  | enteredBody (goal : Atom) (rule : Clause)
  /-- No rule is left for the goal. -/
  | exhausted (goal : Atom)
  /-- The remaining operands have no solution under the latest one of the first. -/
  | backtracked (remaining : Formula)
  | foundSolution (number : Nat) (goal : Formula) (solution : Substitution)
  | stopped (goal : Formula) (solutions : Nat) (reason : StopReason)

namespace Event

def level : Event → String
  | .solvedByFact _ _ => "DEBUG"
  | .foundSolution _ _ _ => "DEBUG"
  | .stopped _ _ _ => "DEBUG"
  | _ => "TRACE"

def message (N : Naming) : Event → String
  | .skipped rule => "skipping goal clause " ++ rule.render N
  | .mismatched goal head cause =>
    goal.render N ++ " does not unify with " ++ head.render N ++ ": " ++ cause.diagnostic
  | .solvedByFact goal head => goal.render N ++ " solved by fact " ++ head.render N
  | .enteredBody goal rule => goal.render N ++ " resolving body of " ++ rule.render N
  | .exhausted goal => goal.render N ++ " exhausted"
  | .backtracked remaining =>
    "no solution for " ++ remaining.render N ++ " under this head solution, backtracking"
  | .foundSolution number goal solution =>
    "solution " ++ toString number ++ " for " ++ goal.render N ++ ": " ++ solution.render N
  | .stopped goal solutions reason =>
    "query " ++ goal.render N ++ " stopped after " ++ toString solutions ++ " solutions: " ++
      reason.title

def symbols : Event → List Symbol
  | .skipped rule => rule.symbols
  | .mismatched goal head _ => goal.symbols ++ head.symbols
  | .solvedByFact goal head => goal.symbols ++ head.symbols
  | .enteredBody goal rule => goal.symbols ++ rule.symbols
  | .exhausted goal => goal.symbols
  | .backtracked remaining => remaining.symbols
  | .foundSolution _ goal solution => goal.symbols ++ solution.symbols
  | .stopped goal _ _ => goal.symbols

def occurrences : Event → List Var
  | .skipped rule => rule.occurrences
  | .mismatched goal head _ => goal.occurrences ++ head.occurrences
  | .solvedByFact goal head => goal.occurrences ++ head.occurrences
  | .enteredBody goal rule => goal.occurrences ++ rule.occurrences
  | .exhausted goal => goal.occurrences
  | .backtracked remaining => remaining.occurrences
  | .foundSolution _ goal solution => goal.occurrences ++ solution.occurrences
  | .stopped goal _ _ => goal.occurrences

/-- The log line, for a vocabulary that knows what the event speaks of. -/
def text? (V : Vocabulary) (event : Event) : Option String :=
  V.text? event.symbols event.occurrences fun N => event.level ++ " " ++ event.message N

end Event

end HornResolution
