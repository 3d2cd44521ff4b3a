import HornResolution.Formula

/-!
# Horn clauses and programs

A clause has a head, a body, or both. A program is the ordered list of clauses
that a search tries, first to last.
-/

namespace HornResolution

inductive Clause where
  | fact (head : Atom)
  | rule (head : Atom) (body : Formula)
  /-- A body without a head: it is stored, and resolution passes over it. -/
  | goal (body : Formula)
deriving DecidableEq

namespace Clause

def ofParts (head : Option Atom) (body : Option Formula) : Except Misuse Clause :=
  match head, body with
  | some a, none => .ok (.fact a)
  | some a, some f => .ok (.rule a f)
  | none, some f => .ok (.goal f)
  | none, none => .error .emptyClause

def head? : Clause → Option Atom
  | .fact a => some a
  | .rule a _ => some a
  | .goal _ => none

def body? : Clause → Option Formula
  | .fact _ => none
  | .rule _ f => some f
  | .goal f => some f

def isFact : Clause → Bool
  | .fact _ => true
  | _ => false

/-- Whether the clause has both a head and a body. -/
def isDefinite : Clause → Bool
  | .rule _ _ => true
  | _ => false

def isGoal : Clause → Bool
  | .goal _ => true
  | _ => false

/-- The variables of the head and then of the body. -/
def occurrences : Clause → List Var
  | .fact a => a.occurrences
  | .rule a f => a.occurrences ++ f.occurrences
  | .goal f => f.occurrences

def vars (c : Clause) : List Var := distinct c.occurrences

def symbols : Clause → List Symbol
  | .fact a => a.symbols
  | .rule a f => a.symbols ++ f.symbols
  | .goal f => f.symbols

def mapTerms (g : Term → Term) : Clause → Clause
  | .fact a => .fact (a.mapTerms g)
  | .rule a f => .rule (a.mapTerms g) (f.mapTerms g)
  | .goal f => .goal (f.mapTerms g)

end Clause

structure Program where
  clauses : Array Clause
deriving DecidableEq

namespace Program

def ofList (clauses : List Clause) : Program := ⟨clauses.toArray⟩

def length (P : Program) : Nat := P.clauses.size

def isEmpty (P : Program) : Bool := P.clauses.isEmpty

def get? (P : Program) (index : Nat) : Option Clause := P.clauses[index]?

end Program

end HornResolution
