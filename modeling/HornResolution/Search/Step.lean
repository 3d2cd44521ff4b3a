import HornResolution.Renaming
import HornResolution.Search.Journal
import HornResolution.Search.Node

/-!
# One step of a search

`Node.next` asks a node for its next solution. The search is depth first: rules
are tried in program order, each as a copy over fresh variables made when it is
tried, and the operands of a conjunction are solved from left to right.

A search need not come to an end, so `next` is given a bound on the depth of its
calls and answers `none` if that is not enough. Any answer it does give holds
for every larger bound.

An error leaves a node that can be asked again. A body that was being explored is
kept. One that fails on its first solution is given up, and so are the solutions
it might have had later. A search that cannot write an event into its journal fails
in the same way, at that event.
-/

namespace HornResolution

inductive Outcome where
  | solution (σ : Substitution)
  | exhausted
  | failed (e : Misuse)
deriving DecidableEq

/-- What a node answered, and what it, the vocabulary and the journal became. -/
structure Step where
  outcome : Outcome
  node : Node
  vocabulary : Vocabulary
  journal : Journal

namespace Step

/-- The step of a node around the one that took this step. -/
def within (node : Node) (s : Step) : Step := { s with node := node }

@[simp] theorem outcome_within (node : Node) (s : Step) : (s.within node).outcome = s.outcome := rfl

@[simp] theorem node_within (node : Node) (s : Step) : (s.within node).node = node := rfl

@[simp] theorem vocabulary_within (node : Node) (s : Step) :
    (s.within node).vocabulary = s.vocabulary := rfl

@[simp] theorem journal_within (node : Node) (s : Step) : (s.within node).journal = s.journal := rfl

end Step

/-- What trying one rule for an atom comes to. -/
inductive Course where
  /-- The rule is of no use here. -/
  | passed
  | solved (σ : Substitution)
  /-- The body of the rule is to be solved. -/
  | entered (body : Node)
  /-- The body of the rule cannot be resolved. -/
  | blocked (e : Misuse)

/-- One rule tried for an atom. The event is reported before the course is taken. -/
structure Attempt where
  event : Event
  course : Course

/-- Tries a rule, already over fresh variables, for an atom under a substitution. -/
def Attempt.make (goal : Atom) (parent : Substitution) (rule : Clause) : Attempt :=
  match rule.head? with
  | none => ⟨.skipped rule, .passed⟩
  | some head =>
    match unify (.atom goal) (.atom head) parent with
    | .error cause => ⟨.mismatched goal head cause, .passed⟩
    | .ok σ =>
      match rule.body? with
      | none => ⟨.solvedByFact goal head, .solved σ⟩
      | some body =>
        ⟨.enteredBody goal rule,
          match Node.start σ body with
          | .error e => .blocked e
          | .ok child => .entered child⟩

namespace Node

/-- A conjunction with the node for its remaining operands, if there is one yet. -/
def conjunction (first : Node) (remaining : Formula) : Option Node → Node
  | none => .opening first remaining
  | some rest => .paired first remaining rest

/-- The node for the remaining operands under a new solution of the first one. -/
def renew (σ : Substitution) (remaining : Formula) : Option Node → Except Misuse Node
  | none => start σ remaining
  | some rest => .ok (rest.reset σ)

/-- How a conjunction gets the node for its remaining operands under a new solution
of the first one, from the node that it has for them, if any. -/
abbrev Renewal := Substitution → Formula → Option Node → Except Misuse Node

section Calls

-- The inner calls that a call may make: those of nodes, and those of conjunctions whose
-- remaining operands have no more solution under the latest solution of the first one.
variable (ask : Node → Vocabulary → Journal → Option Step)
  (askFirst : Node → Formula → Option Node → Vocabulary → Journal → Option Step)

/-- Goes the way of a rule that was tried for an atom. -/
@[inline] def follow (goal : Atom) (tried : Nat) (parent : Substitution) (V : Vocabulary)
    (J : Journal) (attempt : Attempt) : Option Step :=
  let waiting := Node.ready goal (tried + 1) parent
  match J.report V attempt.event with
  | none => some ⟨.failed .unnamed, waiting, V, J⟩
  | some J' =>
    match attempt.course with
    | .passed => ask waiting V J'
    | .solved σ => some ⟨.solution σ, waiting, V, J'⟩
    | .blocked e => some ⟨.failed e, waiting, V, J'⟩
    | .entered child =>
      match ask child V J' with
      | none => none
      | some s =>
        match s.outcome with
        | .solution _ => some (s.within (.inBody goal (tried + 1) parent s.node))
        | .failed _ => some (s.within waiting)
        | .exhausted => ask waiting s.vocabulary s.journal

/-- The call of an atom of which so many rules have been tried. -/
@[inline] def tryNext (P : Program) (goal : Atom) (tried : Nat) (parent : Substitution)
    (V : Vocabulary) (J : Journal) : Option Step :=
  if P.length ≤ tried then
    match J.report V (.exhausted goal) with
    | none => some ⟨.failed .unnamed, .ready goal tried parent, V, J⟩
    | some J' => some ⟨.exhausted, .ready goal tried parent, V, J'⟩
  else
    match P.standardizeApart tried V with
    | (.error e, V') => some ⟨.failed e, .ready goal tried parent, V', J⟩
    | (.ok copy, V') => follow ask goal tried parent V' J (Attempt.make goal parent copy)

/-- The call of an atom in the body of one of its rules. -/
@[inline] def resume (goal : Atom) (tried : Nat) (parent : Substitution) (body : Node)
    (V : Vocabulary) (J : Journal) : Option Step :=
  match ask body V J with
  | none => none
  | some s =>
    match s.outcome with
    | .exhausted => ask (.ready goal tried parent) s.vocabulary s.journal
    | _ => some (s.within (.inBody goal tried parent s.node))

/-- The call of a conjunction that has a node for its remaining operands. -/
@[inline] def solveRest (first : Node) (remaining : Formula) (rest : Node) (V : Vocabulary)
    (J : Journal) : Option Step :=
  match ask rest V J with
  | none => none
  | some s =>
    match s.outcome with
    | .exhausted => askFirst first remaining (some s.node) s.vocabulary s.journal
    | _ => some (s.within (.paired first remaining s.node))

/-- The call of a conjunction that needs a new solution of its first operand. -/
@[inline] def solveFirst (renewal : Renewal) (first : Node) (remaining : Formula)
    (rest : Option Node) (V : Vocabulary) (J : Journal) : Option Step :=
  match ask first V J with
  | none => none
  | some s =>
    match s.outcome with
    | .solution σ =>
      match renewal σ remaining rest with
      | .error e =>
        some { s with outcome := .failed e, node := conjunction s.node remaining rest }
      | .ok node =>
        match ask node s.vocabulary s.journal with
        | none => none
        | some r =>
          match r.outcome with
          | .exhausted =>
            match r.journal.report r.vocabulary (.backtracked remaining) with
            | none =>
              some { r with outcome := .failed .unnamed, node := .paired s.node remaining r.node }
            | some J' => askFirst s.node remaining (some r.node) r.vocabulary J'
          | _ => some (r.within (.paired s.node remaining r.node))
    | _ => some (s.within (conjunction s.node remaining rest))

end Calls

mutual

/-- The next solution of a node whose conjunctions renew the node for their remaining
operands in the given way. -/
def nextWith (renewal : Renewal) (P : Program) :
    (depth : Nat) → Node → Vocabulary → Journal → Option Step
  | 0, _, _, _ => none
  | depth + 1, .ready goal tried parent, V, J =>
    tryNext (nextWith renewal P depth) P goal tried parent V J
  | depth + 1, .inBody goal tried parent body, V, J =>
    resume (nextWith renewal P depth) goal tried parent body V J
  | depth + 1, .single first, V, J =>
    (nextWith renewal P depth first V J).map fun s => s.within (.single s.node)
  | depth + 1, .opening first remaining, V, J =>
    nextFirstWith renewal P depth first remaining none V J
  | depth + 1, .paired first remaining rest, V, J =>
    solveRest (nextWith renewal P depth) (nextFirstWith renewal P depth) first remaining rest V J

def nextFirstWith (renewal : Renewal) (P : Program) :
    (depth : Nat) → Node → Formula → Option Node → Vocabulary → Journal → Option Step
  | 0, _, _, _, _, _ => none
  | depth + 1, first, remaining, rest, V, J =>
    solveFirst (nextWith renewal P depth) (nextFirstWith renewal P depth) renewal first remaining
      rest V J

end

/-- The next solution of a node. -/
def next : Program → (depth : Nat) → Node → Vocabulary → Journal → Option Step := nextWith renew

/-- The next solution of a conjunction whose remaining operands have no more solution
under the latest solution of the first one. -/
def nextFirst :
    Program → (depth : Nat) → Node → Formula → Option Node → Vocabulary → Journal → Option Step :=
  nextFirstWith renew

section Equations

variable (P : Program) (depth : Nat) (V : Vocabulary) (J : Journal)

theorem next_zero (node : Node) : next P 0 node V J = none := by
  rw [next, nextWith]

theorem next_ready (goal : Atom) (tried : Nat) (parent : Substitution) :
    next P (depth + 1) (.ready goal tried parent) V J =
      tryNext (next P depth) P goal tried parent V J := by
  rw [next, nextWith]

theorem next_inBody (goal : Atom) (tried : Nat) (parent : Substitution) (body : Node) :
    next P (depth + 1) (.inBody goal tried parent body) V J =
      resume (next P depth) goal tried parent body V J := by
  rw [next, nextWith]

theorem next_single (first : Node) :
    next P (depth + 1) (.single first) V J =
      (next P depth first V J).map fun s => s.within (.single s.node) := by
  rw [next, nextWith]

theorem next_opening (first : Node) (remaining : Formula) :
    next P (depth + 1) (.opening first remaining) V J =
      nextFirst P depth first remaining none V J := by
  rw [next, nextFirst, nextWith]

theorem next_paired (first : Node) (remaining : Formula) (rest : Node) :
    next P (depth + 1) (.paired first remaining rest) V J =
      solveRest (next P depth) (nextFirst P depth) first remaining rest V J := by
  rw [next, nextFirst, nextWith]

theorem nextFirst_zero (first : Node) (remaining : Formula) (rest : Option Node) :
    nextFirst P 0 first remaining rest V J = none := by
  rw [nextFirst, nextFirstWith]

theorem nextFirst_succ (first : Node) (remaining : Formula) (rest : Option Node) :
    nextFirst P (depth + 1) first remaining rest V J =
      solveFirst (next P depth) (nextFirst P depth) renew first remaining rest V J := by
  rw [next, nextFirst, nextFirstWith]

end Equations

end Node

end HornResolution
