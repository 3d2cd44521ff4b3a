import HornResolution.Display
import HornResolution.Unification

/-!
# Diagnostic text of failed unifications

The text shows the parts of a failure in full and with bare numbers, so it needs
no vocabulary.
-/

namespace HornResolution

/-- `Name(a, b)`. -/
private def tuple (name : String) (parts : List String) : String :=
  name ++ "(" ++ ", ".intercalate parts ++ ")"

/-- `Name { x: a, y: b }`. -/
private def record (name : String) (fields : List (String × String)) : String :=
  name ++ " \x7b " ++ ", ".intercalate (fields.map fun p => p.1 ++ ": " ++ p.2) ++ " \x7d"

private def sequence (items : List String) : String := "[" ++ ", ".intercalate items ++ "]"

def Symbol.diagnostic (s : Symbol) : String := tuple "Symbol" [toString s.id]

def Var.diagnostic (v : Var) : String :=
  record "Variable" [("id", tuple "VariableId" [toString v.id])]

/-- `Function(f, [a, b])`. -/
private def diagnosticStyle : TermStyle where
  var v := tuple "Variable" [v.diagnostic]
  constant f := tuple "Function" [f.diagnostic, sequence []]
  opening f := "Function(" ++ f.diagnostic ++ ", ["
  separator := ", "
  closing := "])"

def Term.diagnostic (t : Term) : String := diagnosticStyle.write t

def Atom.diagnostic (a : Atom) : String :=
  record "Predicate"
    [("symbol", a.symbol.diagnostic), ("terms", sequence (a.args.map Term.diagnostic))]

def Expr.diagnostic : Expr → String
  | .term t => tuple "Term" [t.diagnostic]
  | .atom a => tuple "Predicate" [a.diagnostic]

def Clash.diagnostic : Clash → String
  | .occurs v value => tuple "OccursCheck" [v.diagnostic, value.diagnostic]
  | .symbols f g => tuple "SymbolClash" [f.diagnostic, g.diagnostic]
  | .arities m n => tuple "ArityMismatch" [toString m, toString n]
  | .kinds => "KindClash"
  | .endless => "Endless"

end HornResolution
