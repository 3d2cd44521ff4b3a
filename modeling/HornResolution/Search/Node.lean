import HornResolution.Unification

/-!
# Search nodes

A node is the state of a search for one goal under one substitution, its parent.
It can be asked for one solution after another and resumes where it stopped. A
node for an atom counts the rules it has tried, and holds the node of a rule
body while that body may have more solutions. A node for a conjunction solves
the first operand and, under each of its solutions, the remaining ones.
-/

namespace HornResolution

inductive Node where
  /-- An atom about to try the rule at index `tried`. -/
  | ready (goal : Atom) (tried : Nat) (parent : Substitution)
  /-- An atom whose latest rule has a body that is being explored. -/
  | inBody (goal : Atom) (tried : Nat) (parent : Substitution) (body : Node)
  /-- A conjunction of one operand. -/
  | single (first : Node)
  /-- A conjunction whose remaining operands were not looked at yet. -/
  | opening (first : Node) (remaining : Formula)
  /-- A conjunction with a node for its remaining operands. -/
  | paired (first : Node) (remaining : Formula) (rest : Node)
deriving DecidableEq

namespace Node

mutual

/-- The node of a goal about which nothing was tried yet. Disjunctions and negations
cannot be resolved, and neither can a conjunction of nothing. -/
def start (parent : Substitution) : Formula → Except Misuse Node
  | .atom a => .ok (.ready a 0 parent)
  | .conj fs => startOperands parent fs
  | .disj _ => .error (.unresolvable .disjunction)
  | .neg _ => .error (.unresolvable .negation)

def startOperands (parent : Substitution) : List Formula → Except Misuse Node
  | [] => .error .emptyConjunction
  | f :: fs =>
    match start parent f with
    | .error e => .error e
    | .ok first =>
      match fs with
      | [] => .ok (.single first)
      | g :: gs => .ok (.opening first (.conj (g :: gs)))

end

/-- Starts the search again under another parent. -/
def reset (parent : Substitution) : Node → Node
  | .ready goal _ _ => .ready goal 0 parent
  | .inBody goal _ _ _ => .ready goal 0 parent
  | .single first => .single (first.reset parent)
  | .opening first remaining => .opening (first.reset parent) remaining
  | .paired first remaining _ => .opening (first.reset parent) remaining

end Node

end HornResolution
