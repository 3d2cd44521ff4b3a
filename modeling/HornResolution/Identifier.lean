/-!
# Symbols and variables

Function, predicate and variable names are interned elsewhere; expressions only
carry the resulting numbers. A variable is a number of its own and not a name,
so two variables of one name stay different.
-/

namespace HornResolution

/-- The number of an interned name. -/
structure Symbol where
  id : Nat
deriving DecidableEq

/-- The number of an allocated variable. -/
structure Var where
  id : Nat
deriving DecidableEq

/-- `S3` for symbol number 3. -/
def Symbol.label (s : Symbol) : String := "S" ++ toString s.id

/-- `V3` for variable number 3. -/
def Var.label (v : Var) : String := "V" ++ toString v.id

end HornResolution
