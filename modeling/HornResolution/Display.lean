import HornResolution.Clause
import HornResolution.Substitution
import HornResolution.Vocabulary

/-!
# Text of expressions

Arguments stand in parentheses, separated by a bare comma, and a symbol without
arguments stands alone. Conjunction is written `p, q`, disjunction `p; q` and
negation `\+ p`; an operand that is itself a connective over two or more
operands is put in parentheses, and one over a single operand is written as
that operand. Clauses are `head`, `head :- body` and `:- body`.

Every text exists in two forms: with the names of a vocabulary, and with the
bare numbers of symbols and variables. The form with names needs a vocabulary
that knows every number in the expression.
-/

namespace HornResolution

/-- How symbols and variables are spelled. -/
structure Naming where
  symbol : Symbol → String
  var : Var → String

/-- Numbers in place of names: `S3`, `V0`. -/
def Naming.numbered : Naming := ⟨Symbol.label, Var.label⟩

/-- The names of a vocabulary; a number it does not know stays a number. -/
def Vocabulary.naming (V : Vocabulary) : Naming where
  symbol s := (V.name? s).getD s.label
  var v := (V.varName? v).getD v.label

def applied (name : String) (args : List String) : String :=
  if args.isEmpty then name else name ++ "(" ++ ",".intercalate args ++ ")"

/-- How terms are written: variables, constants, and what stands before, between and
after the arguments of a symbol. -/
structure TermStyle where
  var : Var → String
  constant : Symbol → String
  opening : Symbol → String
  separator : String
  closing : String

namespace TermStyle

mutual

/-- The text with a term written after it. -/
def writeAfter (S : TermStyle) (text : String) : Term → String
  | .var v => text ++ S.var v
  | .app f [] => text ++ S.constant f
  | .app f (t :: ts) => S.writeRest (S.writeAfter (text ++ S.opening f) t) ts ++ S.closing

/-- The text with further arguments written after it. -/
def writeRest (S : TermStyle) (text : String) : List Term → String
  | [] => text
  | t :: ts => S.writeRest (S.writeAfter (text ++ S.separator) t) ts

end

def write (S : TermStyle) (t : Term) : String := S.writeAfter "" t

variable {S : TermStyle}

theorem writeRest_eq_intercalate {ts : List Term}
    (h : ∀ t ∈ ts, ∀ text, S.writeAfter text t = text ++ S.write t) (text : String) :
    S.writeRest text ts = S.separator.intercalate (text :: ts.map S.write) := by
  induction ts generalizing text with
  | nil => simp [writeRest]
  | cons t ts ih =>
    rw [writeRest, h t (.head ts), ih (fun s hs => h s (.tail t hs)), List.map_cons]
    simp

theorem writeAfter_eq_append (t : Term) (text : String) :
    S.writeAfter text t = text ++ S.write t := by
  induction t using Term.induction generalizing text with
  | var v => simp [write, writeAfter]
  | app f args ih =>
    cases args with
    | nil => simp [write, writeAfter]
    | cons t ts =>
      have rest (text : String) := writeRest_eq_intercalate (fun s hs => ih s (.tail t hs)) text
      simp only [write, writeAfter, rest]
      rw [ih t (.head ts), ih t (.head ts) ("" ++ _)]
      simp [String.append_assoc]

@[simp] theorem write_var (v : Var) : S.write (.var v) = S.var v := by
  simp [write, writeAfter]

@[simp] theorem write_const (f : Symbol) : S.write (.app f []) = S.constant f := by
  simp [write, writeAfter]

@[simp] theorem write_app (f : Symbol) (t : Term) (ts : List Term) :
    S.write (.app f (t :: ts)) =
      S.opening f ++ S.separator.intercalate ((t :: ts).map S.write) ++ S.closing := by
  rw [write, writeAfter, writeRest_eq_intercalate fun s _ => writeAfter_eq_append s,
    writeAfter_eq_append, String.empty_append, String.intercalate_cons_append, List.map_cons]

end TermStyle

/-- A symbol and its arguments in parentheses. -/
def Naming.style (N : Naming) : TermStyle where
  var := N.var
  constant := N.symbol
  opening f := N.symbol f ++ "("
  separator := ","
  closing := ")"

def Term.render (N : Naming) (t : Term) : String := N.style.write t

@[simp] theorem Term.render_var (N : Naming) (v : Var) : (var v).render N = N.var v := by
  rw [render, TermStyle.write_var, Naming.style]

@[simp] theorem Term.render_app (N : Naming) (f : Symbol) (args : List Term) :
    (app f args).render N = applied (N.symbol f) (args.map (render N)) := by
  cases args with
  | nil => rw [render, TermStyle.write_const, applied, Naming.style]; rfl
  | cons t ts => rw [render, TermStyle.write_app, applied, Naming.style]; rfl

def Atom.render (N : Naming) (a : Atom) : String :=
  applied (N.symbol a.symbol) (a.args.map (Term.render N))

def Expr.render (N : Naming) : Expr → String
  | .term t => t.render N
  | .atom a => a.render N

namespace Formula

/-- Whether the formula is put in parentheses where it is an operand. -/
def isGroup : Formula → Bool
  | .conj (_ :: _ :: _) => true
  | .disj (_ :: _ :: _) => true
  | _ => false

def grouped (f : Formula) (text : String) : String :=
  if f.isGroup then "(" ++ text ++ ")" else text

mutual

def render (N : Naming) : Formula → String
  | .atom a => a.render N
  | .conj fs => ", ".intercalate (renderOperands N fs)
  | .disj fs => "; ".intercalate (renderOperands N fs)
  | .neg f => "\\+ " ++ f.grouped (render N f)

def renderOperands (N : Naming) : List Formula → List String
  | [] => []
  | f :: fs => f.grouped (render N f) :: renderOperands N fs

end

end Formula

def Clause.render (N : Naming) : Clause → String
  | .fact a => a.render N
  | .rule a f => a.render N ++ " :- " ++ f.render N
  | .goal f => ":- " ++ f.render N

/-- Bindings are written in the order in which they were made, values as bound. -/
def Substitution.render (N : Naming) (θ : Substitution) : String :=
  "\x7b" ++ ", ".intercalate (θ.bindings.map fun b => N.var b.1 ++ " = " ++ b.2.render N) ++ "\x7d"

namespace Vocabulary

/-- Whether every listed symbol and variable has a name. -/
def knows (V : Vocabulary) (symbols : List Symbol) (vars : List Var) : Bool :=
  symbols.all V.knowsSymbol && vars.all V.knowsVar

/-- A text that is at hand only if the vocabulary knows what it names. -/
def text? (V : Vocabulary) (symbols : List Symbol) (vars : List Var)
    (text : Naming → String) : Option String :=
  if V.knows symbols vars then some (text V.naming) else none

end Vocabulary

def Term.text? (V : Vocabulary) (t : Term) : Option String :=
  V.text? t.symbols t.occurrences fun N => t.render N

def Atom.text? (V : Vocabulary) (a : Atom) : Option String :=
  V.text? a.symbols a.occurrences fun N => a.render N

def Expr.text? (V : Vocabulary) (e : Expr) : Option String :=
  V.text? e.symbols e.occurrences fun N => e.render N

def Formula.text? (V : Vocabulary) (f : Formula) : Option String :=
  V.text? f.symbols f.occurrences fun N => f.render N

def Clause.text? (V : Vocabulary) (c : Clause) : Option String :=
  V.text? c.symbols c.occurrences fun N => c.render N

def Substitution.text? (V : Vocabulary) (θ : Substitution) : Option String :=
  V.text? θ.symbols θ.occurrences fun N => θ.render N

end HornResolution
