import HornResolution.Display

/-!
# Views with names

A view shows a term, atom, formula or clause with names in place of numbers, for
readers that have no vocabulary. A constant is a form of its own here, and a
clause carries its text.
-/

namespace HornResolution

inductive TermView where
  | var (name : String)
  | const (name : String)
  | app (name : String) (args : List TermView)

structure AtomView where
  name : String
  args : List TermView

inductive FormulaView where
  | atom (a : AtomView)
  | conj (operands : List FormulaView)
  | disj (operands : List FormulaView)
  | neg (operand : FormulaView)

structure ClauseView where
  head : Option AtomView
  body : Option FormulaView
  text : String

def Term.view (N : Naming) : Term → TermView :=
  fold (fun v => .var (N.var v)) fun f args =>
    if args.isEmpty then .const (N.symbol f) else .app (N.symbol f) args

def Atom.view (N : Naming) (a : Atom) : AtomView :=
  ⟨N.symbol a.symbol, a.args.map (Term.view N)⟩

namespace Formula

mutual

def view (N : Naming) : Formula → FormulaView
  | .atom a => .atom (a.view N)
  | .conj fs => .conj (viewAll N fs)
  | .disj fs => .disj (viewAll N fs)
  | .neg f => .neg (view N f)

def viewAll (N : Naming) : List Formula → List FormulaView
  | [] => []
  | f :: fs => view N f :: viewAll N fs

end

end Formula

def Clause.view (N : Naming) (c : Clause) : ClauseView :=
  ⟨c.head?.map (Atom.view N), c.body?.map (Formula.view N), c.render N⟩

end HornResolution
