import HornResolution.Clause
import HornResolution.Json

/-!
# Stored form of expressions, clauses and programs

Symbols and variables are stored as numbers. A value with several forms is an
object with one field, named for the form: `{"Variable": ..}` or
`{"Function": [symbol, [args]]}` for a term. A clause has both its fields
written, with null for an absent part; a reader takes a missing field as absent
too, and refuses a clause in which both are.
-/

namespace HornResolution

def Symbol.toJson (s : Symbol) : Json := .ofNat s.id

def Symbol.ofJson? (j : Json) : Option Symbol := j.toWord?.map Symbol.mk

namespace Var

/-- The number of a variable alone. -/
def idToJson (v : Var) : Json := .ofNat v.id

def idOfJson? (j : Json) : Option Var := j.toWord?.map Var.mk

def toJson (v : Var) : Json := .object [("id", v.idToJson)]

def ofJson? (j : Json) : Option Var :=
  if j.isRecord 1 then (j.field? 0 "id").bind idOfJson? else none

end Var

namespace Term

def toJson : Term → Json :=
  fold (fun v => .object [("Variable", v.toJson)])
    fun f args => .object [("Function", .array [f.toJson, .array args])]

mutual

def ofJson? : Json → Option Term
  | .object [(form, .array [f, .array args])] =>
    if form = "Function" then
      match Symbol.ofJson? f, ofJsonAll? args with
      | some f, some args => some (.app f args)
      | _, _ => none
    else none
  | .object [(form, j)] => if form = "Variable" then (Var.ofJson? j).map .var else none
  | _ => none

def ofJsonAll? : List Json → Option (List Term)
  | [] => some []
  | j :: js =>
    match ofJson? j, ofJsonAll? js with
    | some t, some ts => some (t :: ts)
    | _, _ => none

end

end Term

namespace Atom

def toJson (a : Atom) : Json :=
  .object [("symbol", a.symbol.toJson), ("terms", .array (a.args.map Term.toJson))]

def ofJson? (j : Json) : Option Atom :=
  if j.isRecord 2 then
    match (j.field? 0 "symbol").bind Symbol.ofJson?, (j.items? 1 "terms").bind Term.ofJsonAll? with
    | some s, some args => some ⟨s, args⟩
    | _, _ => none
  else none

end Atom

namespace Expr

def toJson : Expr → Json
  | .term t => .object [("Term", t.toJson)]
  | .atom a => .object [("Predicate", a.toJson)]

def ofJson? : Json → Option Expr
  | .object [(form, j)] =>
    if form = "Term" then (Term.ofJson? j).map .term
    else if form = "Predicate" then (Atom.ofJson? j).map .atom
    else none
  | _ => none

end Expr

namespace Formula

mutual

def toJson : Formula → Json
  | .atom a => .object [("Predicate", a.toJson)]
  | .conj fs => .object [("And", .array (toJsonAll fs))]
  | .disj fs => .object [("Or", .array (toJsonAll fs))]
  | .neg f => .object [("Not", toJson f)]

def toJsonAll : List Formula → List Json
  | [] => []
  | f :: fs => toJson f :: toJsonAll fs

end

mutual

def ofJson? : Json → Option Formula
  | .object [(form, .array items)] =>
    if form = "And" then (ofJsonAll? items).map .conj
    else if form = "Or" then (ofJsonAll? items).map .disj
    else if form = "Predicate" then (Atom.ofJson? (.array items)).map .atom
    else none
  | .object [(form, j)] =>
    if form = "Not" then (ofJson? j).map .neg
    else if form = "Predicate" then (Atom.ofJson? j).map .atom
    else none
  | _ => none

def ofJsonAll? : List Json → Option (List Formula)
  | [] => some []
  | j :: js =>
    match ofJson? j, ofJsonAll? js with
    | some f, some fs => some (f :: fs)
    | _, _ => none

end

end Formula

namespace Clause

/-- The head and the body of a stored clause, either of which may be absent. -/
def partsOfJson? (j : Json) : Option (Option Atom × Option Formula) :=
  if j.isRecord 2 then
    match j.optional? Atom.ofJson? 0 "consequent", j.optional? Formula.ofJson? 1 "antecedent" with
    | some head, some body => some (head, body)
    | _, _ => none
  else none

def toJson (c : Clause) : Json :=
  .object
    [("consequent", (c.head?.map Atom.toJson).getD .null),
      ("antecedent", (c.body?.map Formula.toJson).getD .null)]

def ofJson? (j : Json) : Option Clause :=
  match partsOfJson? j with
  | none => none
  | some (head, body) => (ofParts head body).toOption

def ofJsonAll? : List Json → Option (List Clause)
  | [] => some []
  | j :: js =>
    match ofJson? j, ofJsonAll? js with
    | some c, some cs => some (c :: cs)
    | _, _ => none

end Clause

namespace Program

def toJson (P : Program) : Json := .object [("rules", .array (P.clauses.toList.map Clause.toJson))]

def ofJson? (j : Json) : Option Program :=
  if j.isRecord 1 then ((j.items? 0 "rules").bind Clause.ofJsonAll?).map Program.ofList else none

end Program

end HornResolution
