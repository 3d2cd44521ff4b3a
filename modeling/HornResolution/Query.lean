import HornResolution.Search.Step

/-!
# Queries

A query drives the search for one goal from outside and counts its solutions.
Its limits are looked at before each step and never inside one. Once it has
stopped it stays stopped; an error does not stop it.
-/

namespace HornResolution

structure Limits where
  /-- The greatest number of solutions; zero sets no limit. -/
  maxSolutions : Nat := 0
  /-- The seconds after which no further solution is looked for. -/
  timeout : Option Nat := none
deriving DecidableEq

structure Query where
  program : Program
  goal : Formula
  root : Node
  limits : Limits := {}
  /-- The number of solutions so far. -/
  solutions : Nat := 0
  stopped : Option StopReason := none

/-- What a query answered, and what it, the vocabulary and the journal became. -/
structure QueryStep where
  answer : Except Misuse (Option Substitution)
  query : Query
  vocabulary : Vocabulary
  journal : Journal

namespace Query

/-- A query for a goal with some variables already bound. -/
def start (P : Program) (goal : Formula) (initial : Substitution) : Except Misuse Query :=
  match Node.start initial goal with
  | .error e => .error e
  | .ok root => .ok { program := P, goal := goal, root := root }

/-- The limit that keeps the query from taking a step. -/
def limit? (q : Query) (elapsed : Nat) : Option StopReason :=
  if 0 < q.limits.maxSolutions && q.limits.maxSolutions ≤ q.solutions then some .solutionLimit
  else if q.limits.timeout.any (· ≤ elapsed) then some .timeout
  else none

/-- Stops the query, once that is reported. -/
def finish (q : Query) (reason : StopReason) (V : Vocabulary) (J : Journal) : QueryStep :=
  match J.report V (.stopped q.goal q.solutions reason) with
  | none => ⟨.error .unnamed, q, V, J⟩
  | some J' => ⟨.ok none, { q with stopped := some reason }, V, J'⟩

/-- Counts a solution and reports it. One that cannot be reported is counted and lost. -/
def record (q : Query) (σ : Substitution) (V : Vocabulary) (J : Journal) : QueryStep :=
  let q' := { q with solutions := q.solutions + 1 }
  match J.report V (.foundSolution q'.solutions q.goal σ) with
  | none => ⟨.error .unnamed, q', V, J⟩
  | some J' => ⟨.ok (some σ), q', V, J'⟩

/-- The next solution, by a search of bounded depth, when the given number of seconds
has passed since the query was made. -/
def next (depth elapsed : Nat) (q : Query) (V : Vocabulary) (J : Journal) : Option QueryStep :=
  if q.stopped.isSome then some ⟨.ok none, q, V, J⟩
  else match q.limit? elapsed with
    | some reason => some (q.finish reason V J)
    | none =>
      match q.root.next q.program depth V J with
      | none => none
      | some s =>
        let q' := { q with root := s.node }
        match s.outcome with
        | .failed e => some ⟨.error e, q', s.vocabulary, s.journal⟩
        | .exhausted => some (q'.finish .exhausted s.vocabulary s.journal)
        | .solution σ => some (q'.record σ s.vocabulary s.journal)

/-- Several results of a query, in order. -/
structure Harvest where
  results : List (Except Misuse Substitution)
  query : Query
  vocabulary : Vocabulary
  journal : Journal

def Harvest.cons (result : Except Misuse Substitution) (h : Harvest) : Harvest :=
  { h with results := result :: h.results }

/-- Up to `count` solutions and errors. They are fewer if the query stops, or after the
vocabulary was found to lack something. -/
def take (depth elapsed : Nat) : (count : Nat) → Query → Vocabulary → Journal → Option Harvest
  | 0, q, V, J => some ⟨[], q, V, J⟩
  | count + 1, q, V, J =>
    match q.next depth elapsed V J with
    | none => none
    | some s =>
      match s.answer with
      | .ok none => some ⟨[], s.query, s.vocabulary, s.journal⟩
      | .ok (some σ) =>
        (take depth elapsed count s.query s.vocabulary s.journal).map (Harvest.cons (.ok σ))
      | .error e =>
        if e.isUnknown then some ⟨[.error e], s.query, s.vocabulary, s.journal⟩
        else (take depth elapsed count s.query s.vocabulary s.journal).map (Harvest.cons (.error e))

end Query

end HornResolution
