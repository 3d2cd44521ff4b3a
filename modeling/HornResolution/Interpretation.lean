import HornResolution.Misuse
import HornResolution.Term

/-!
# Interpretations of function symbols

An interpretation of an n-ary function symbol is the finite graph of a function
from argument tuples to values. A constant is its own interpretation and has no
graph.
-/

namespace HornResolution

structure Interpretation where
  function : Symbol
  arity : Nat
  /-- Argument tuples and their values, each tuple once. -/
  graph : List (List Term × Term) := []
deriving DecidableEq

namespace Interpretation

/-- The empty interpretation of the outermost function symbol of a term. -/
def ofTerm? : Term → Option Interpretation
  | .var _ => none
  | .app f args => some { function := f, arity := args.length }

def isConstant (I : Interpretation) : Bool := I.arity == 0

/-- The number of tuples with a value. -/
def length (I : Interpretation) : Nat := I.graph.length

def isEmpty (I : Interpretation) : Bool := I.graph.isEmpty

def lookup? (I : Interpretation) (args : List Term) : Option Term := I.graph.lookup args

def checkArity (I : Interpretation) (actual : Nat) : Except Misuse Unit :=
  if actual = I.arity then .ok () else .error (.wrongArity I.function I.arity actual)

/-- Gives a tuple its value in place of any earlier one. -/
def define (I : Interpretation) (args : List Term) (value : Term) :
    Except Misuse Interpretation :=
  if I.isConstant then .error (.constantGraph I.function)
  else match I.checkArity args.length with
    | .error e => .error e
    | .ok () => .ok { I with graph := I.graph.filter (·.1 ≠ args) ++ [(args, value)] }

/-- The value at a tuple, if it has one. A constant is its own value. -/
def evaluate (I : Interpretation) (args : List Term) : Except Misuse (Option Term) :=
  match I.checkArity args.length with
  | .error e => .error e
  | .ok () => .ok (if I.isConstant then some (.const I.function) else I.lookup? args)

/-- Whether both interpret one symbol by one graph, in whatever order it was given. -/
def agrees (I J : Interpretation) : Bool :=
  I.function == J.function && I.arity == J.arity && I.length == J.length &&
    I.graph.all fun p => J.lookup? p.1 == some p.2

end Interpretation

end HornResolution
