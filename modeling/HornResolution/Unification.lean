import HornResolution.Substitution

/-!
# Unification

Two expressions are unified under a substitution, which is extended and never
changed otherwise. A bare variable that is bound counts as its value. An
unbound variable is bound to the other side as that side was written, provided
the variable does not occur in it. Symbols are compared before arities, and
arguments from left to right, up to the first failure.

The recursion is bounded by `comparisonBound`: between two new bindings it goes
down at most twice the depth of a fully resolved expression, and there are no
more new bindings than variables. A comparison that ends within fewer calls has
the same result under every larger bound.
-/

namespace HornResolution

inductive Clash where
  | occurs (v : Var) (value : Expr)
  | symbols (left right : Symbol)
  | arities (left right : Nat)
  /-- A function term met an atom. -/
  | kinds
  /-- The bindings lead round in a circle, so that the comparison has no end. -/
  | endless
deriving DecidableEq

namespace Unification

/-- Binds an unbound variable, unless the value is that variable. -/
def bind (v : Var) (value : Expr) (θ : Substitution) : Except Clash Substitution :=
  if value.asVar? = some v then .ok θ
  else if θ.occursIn v value then .error (.occurs v value)
  else .ok (θ.add v value)

/-- Unifies pairs of terms in order, each under the result of those before it. -/
def pairwise (unifyPair : Term → Term → Substitution → Except Clash Substitution) :
    List Term → List Term → Substitution → Except Clash Substitution
  | x :: xs, y :: ys, θ =>
    match unifyPair x y θ with
    | .ok θ' => pairwise unifyPair xs ys θ'
    | .error e => .error e
  | _, _, θ => .ok θ

/-- Unifies a symbol and its arguments with another. -/
def applications (unifyPair : Term → Term → Substitution → Except Clash Substitution)
    (f : Symbol) (xs : List Term) (g : Symbol) (ys : List Term) (θ : Substitution) :
    Except Clash Substitution :=
  if f ≠ g then .error (.symbols f g)
  else if xs.length ≠ ys.length then .error (.arities xs.length ys.length)
  else pairwise unifyPair xs ys θ

/-- The value of an expression that is a bare bound variable. -/
def bound? (θ : Substitution) (e : Expr) : Option Expr := e.asVar?.bind θ.get?

/-- Unification that goes down at most `depth` calls. -/
def within : (depth : Nat) → Expr → Expr → Substitution → Except Clash Substitution
  | 0, _, _, _ => .error .endless
  | depth + 1, a, b, θ =>
    match bound? θ a with
    | some value => within depth value b θ
    | none =>
      match bound? θ b with
      | some value => within depth a value θ
      | none =>
        let pair := fun x y => within depth (.term x) (.term y)
        match a, b with
        | .term (.var v), _ => bind v b θ
        | _, .term (.var v) => bind v a θ
        | .term (.app f xs), .term (.app g ys) => applications pair f xs g ys θ
        | .atom p, .atom q => applications pair p.symbol p.args q.symbol q.args θ
        | _, _ => .error .kinds

/-- Calls enough for ordinary expressions. -/
def shallowDepth : Nat := 1000

/-- Calls enough for two expressions and a substitution of the given total size. -/
def comparisonBound (size : Nat) : Nat := (size + 1) * (2 * ((size + 1) * (size + 1)) + 1)

end Unification

/-- The most general extension of a substitution that makes two expressions equal. Most
comparisons are shallow, and only for the others is the size of all bindings worth
knowing. -/
def unify (a b : Expr) (θ : Substitution) : Except Clash Substitution :=
  match Unification.within Unification.shallowDepth a b θ with
  | .error .endless =>
    Unification.within (Unification.comparisonBound (a.size + b.size + θ.weight)) a b θ
  | result => result

/-- Unifies the first expression with each of the others in turn. -/
def unifyEach (first : Expr) : List Expr → Substitution → Except Clash Substitution
  | [], θ => .ok θ
  | e :: es, θ =>
    match unify first e θ with
    | .ok θ' => unifyEach first es θ'
    | .error err => .error err

/-- Unifies all the expressions, starting without bindings. -/
def unifyAll (first second : Expr) (rest : List Expr) : Except Clash Substitution :=
  unifyEach first (second :: rest) .empty

end HornResolution
