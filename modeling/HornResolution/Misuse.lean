import HornResolution.Identifier

/-!
# Misuse of the library

Failure to unify and the end of a search are ordinary results. The errors here
are requests that cannot be honoured: an empty name, a goal that resolution
does not handle, a second binding of a variable.
-/

namespace HornResolution

/-- The four shapes of a formula. -/
inductive Shape where
  | predicate
  | conjunction
  | disjunction
  | negation
deriving DecidableEq

def Shape.name : Shape → String
  | .predicate => "predicate"
  | .conjunction => "conjunction"
  | .disjunction => "disjunction"
  | .negation => "negation"

inductive Misuse where
  | emptyName
  | emptyClause
  | emptyConjunction
  | unresolvable (shape : Shape)
  | rebinding (v : Var)
  | unbound (v : Var)
  /-- The value leads back to the variable through the bindings at hand. -/
  | cycle (v : Var)
  | wrongArity (function : Symbol) (expected actual : Nat)
  | constantGraph (function : Symbol)
  | noSuchRule (index length : Nat)
  /-- A variable that the vocabulary at hand never allocated. -/
  | unknownVariable (v : Var)
  /-- Something is to be written with names, and one is not in the vocabulary. -/
  | unnamed
deriving DecidableEq

def Misuse.message : Misuse → String
  | .emptyName => "Symbol names must not be empty"
  | .emptyClause => "Horn clause needs a consequent, an antecedent, or both"
  | .emptyConjunction => "Conjunction needs at least one operand"
  | .unresolvable shape =>
    "Goal " ++ shape.name ++ " is of an unsupported type for resolution"
  | .rebinding v => "Variable " ++ v.label ++ " is already bound"
  | .unbound v => "Variable " ++ v.label ++ " is not bound"
  | .cycle v => "Binding variable " ++ v.label ++ " would create a cyclic term"
  | .wrongArity f expected actual =>
    "Arity mismatch for " ++ f.label ++ ": expected " ++ toString expected ++
      ", got " ++ toString actual
  | .constantGraph f =>
    "Cannot map arguments to values for constant function " ++ f.label
  | .noSuchRule index length =>
    "Rule index " ++ toString index ++ " out of range for a rule set of " ++
      toString length ++ " rules"
  | .unknownVariable v => "Variable " ++ v.label ++ " was never allocated"
  | .unnamed => "A symbol or variable has no name"

/-- Whether the vocabulary lacks something that was asked of it. -/
def Misuse.isUnknown : Misuse → Bool
  | .unknownVariable _ => true
  | .unnamed => true
  | _ => false

end HornResolution
