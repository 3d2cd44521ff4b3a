import HornResolution.Query
import HornResolution.View

/-!
# Answers

An answer shows a goal under a solution: the instantiated goal, its text, and
the resolved values of the goal's variables that the solution binds, ordered by
display name. Variables of equal names keep the order in which they first
appear in the goal.
-/

namespace HornResolution

structure BindingView where
  name : String
  value : String

structure AnswerView where
  answer : FormulaView
  text : String
  bindings : List BindingView

/-- All answers of a query that was run to its end. -/
structure ResultView where
  goal : String
  answers : List AnswerView
  stopped : Option String

/-- Resolved variables in the order of their names. -/
def sortedByName (N : Naming) (resolved : List (Var × Expr)) : List (Var × Expr) :=
  resolved.mergeSort fun b c => compare (N.var b.1) (N.var c.1) != .gt

namespace AnswerView

def ofSolution (N : Naming) (goal : Formula) (σ : Substitution) : AnswerView :=
  let answer := goal.apply σ
  { answer := answer.view N
    text := answer.render N
    bindings := (sortedByName N (σ.resolvedValues goal.vars)).map fun b =>
      ⟨N.var b.1, b.2.render N⟩ }

/-- The answer, for a vocabulary that knows what it names. -/
def ofSolution? (V : Vocabulary) (goal : Formula) (σ : Substitution) : Option AnswerView :=
  let resolved := σ.resolvedValues goal.vars
  let answer := goal.apply σ
  if V.knows answer.symbols answer.occurrences &&
      resolved.all fun b => V.knows b.2.symbols (b.1 :: b.2.occurrences) then
    some (ofSolution V.naming goal σ)
  else none

end AnswerView

namespace Query

/-- What came of asking a query for all its answers. -/
structure Collection (α : Type) where
  result : Except Misuse α
  query : Query
  vocabulary : Vocabulary
  journal : Journal

/-- All further answers, of which at most `rounds` are taken. Each is written with the
names of its moment. The first error ends the collection, and the answers before it
are lost. -/
def answers (depth elapsed : Nat) :
    (rounds : Nat) → Query → Vocabulary → Journal → Option (Collection (List AnswerView))
  | 0, _, _, _ => none
  | rounds + 1, q, V, J =>
    match q.next depth elapsed V J with
    | none => none
    | some s =>
      match s.answer with
      | .ok none => some ⟨.ok [], s.query, s.vocabulary, s.journal⟩
      | .error e => some ⟨.error e, s.query, s.vocabulary, s.journal⟩
      | .ok (some σ) =>
        match AnswerView.ofSolution? s.vocabulary s.query.goal σ with
        | none => some ⟨.error .unnamed, s.query, s.vocabulary, s.journal⟩
        | some answer =>
          (answers depth elapsed rounds s.query s.vocabulary s.journal).map fun c =>
            { c with result := c.result.map (answer :: ·) }

/-- Runs a query to its end. -/
def collect (depth elapsed rounds : Nat) (q : Query) (V : Vocabulary) (J : Journal) :
    Option (Collection ResultView) :=
  (q.answers depth elapsed rounds V J).map fun c =>
    let result :=
      match c.result, c.query.goal.text? c.vocabulary with
      | .error e, _ => .error e
      | .ok _, none => .error .unnamed
      | .ok views, some goal => .ok ⟨goal, views, c.query.stopped.map StopReason.name⟩
    ⟨result, c.query, c.vocabulary, c.journal⟩

end Query

end HornResolution
