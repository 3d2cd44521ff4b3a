import HornResolution.Identifier

/-!
# Terms, atoms and expressions

A term is a variable or a symbol applied to terms; a constant is a symbol
applied to none. An atom is a predicate symbol applied to terms. Unification
and substitutions deal with both, which together are the expressions.

Functions on terms go through `Term.fold`, or through `Term.listed` if they list what
occurs in a term.
-/

namespace HornResolution

/-- Every element once, where it first appears. -/
def distinct {α : Type} [DecidableEq α] : List α → List α
  | [] => []
  | a :: as => a :: (distinct as).filter (· ≠ a)

def total : List Nat → Nat
  | [] => 0
  | n :: ns => n + total ns

section Distinct

variable {α : Type} [DecidableEq α]

@[simp] theorem mem_distinct {a : α} {as : List α} : a ∈ distinct as ↔ a ∈ as := by
  induction as with
  | nil => simp [distinct]
  | cons b as ih =>
    by_cases h : a = b
    · simp [distinct, h]
    · simp [distinct, h, ih]

theorem nodup_distinct (as : List α) : (distinct as).Nodup := by
  induction as with
  | nil => simp [distinct]
  | cons b as ih =>
    rw [distinct, List.nodup_cons]
    exact ⟨by simp, ih.filter _⟩

end Distinct

inductive Term where
  | var (v : Var)
  | app (f : Symbol) (args : List Term)

namespace Term

mutual

/-- What holds of variables, and of an application if it holds of its arguments,
holds of every term. -/
theorem induction {motive : Term → Prop} (var : ∀ v, motive (.var v))
    (app : ∀ f args, (∀ t ∈ args, motive t) → motive (.app f args)) : ∀ t, motive t
  | .var v => var v
  | .app f args => app f args (inductionAll var app args)

theorem inductionAll {motive : Term → Prop} (var : ∀ v, motive (.var v))
    (app : ∀ f args, (∀ t ∈ args, motive t) → motive (.app f args)) :
    ∀ ts : List Term, ∀ t ∈ ts, motive t
  | [], _, h => nomatch h
  | t :: _, _, .head _ => induction var app t
  | _ :: ts, s, .tail _ h => inductionAll var app ts s h

end

mutual

def decEq : (s t : Term) → Decidable (s = t)
  | .var v, .var w => if h : v = w then .isTrue (by rw [h]) else .isFalse (by simp [h])
  | .var _, .app _ _ => .isFalse (by simp)
  | .app _ _, .var _ => .isFalse (by simp)
  | .app f xs, .app g ys =>
    if hf : f = g then
      match decEqAll xs ys with
      | .isTrue h => .isTrue (by rw [hf, h])
      | .isFalse h => .isFalse (by simp [h])
    else .isFalse (by simp [hf])

def decEqAll : (xs ys : List Term) → Decidable (xs = ys)
  | [], [] => .isTrue rfl
  | [], _ :: _ => .isFalse (by simp)
  | _ :: _, [] => .isFalse (by simp)
  | x :: xs, y :: ys =>
    match decEq x y with
    | .isTrue hx =>
      match decEqAll xs ys with
      | .isTrue hxs => .isTrue (by rw [hx, hxs])
      | .isFalse hxs => .isFalse (by simp [hxs])
    | .isFalse hx => .isFalse (by simp [hx])

end

instance : DecidableEq Term := decEq

section Fold

variable {α : Type} (onVar : Var → α) (onApp : Symbol → List α → α)

mutual

/-- The value of a term, computed from the values of its arguments. -/
def fold : Term → α
  | .var v => onVar v
  | .app f args => onApp f (foldAll args)

def foldAll : List Term → List α
  | [] => []
  | t :: ts => fold t :: foldAll ts

end

theorem foldAll_eq_map (ts : List Term) : foldAll onVar onApp ts = ts.map (fold onVar onApp) := by
  induction ts with
  | nil => rfl
  | cons t ts ih => rw [foldAll, ih, List.map_cons]

theorem fold_app (f : Symbol) (args : List Term) :
    fold onVar onApp (.app f args) = onApp f (args.map (fold onVar onApp)) := by
  rw [fold, foldAll_eq_map]

end Fold

section Listed

variable {α : Type} (onVar : Var → List α) (onSymbol : Symbol → List α)

mutual

/-- The entries of a term, those of each variable and symbol in the order of the text,
in front of the entries that come after it. -/
def listed : Term → List α → List α
  | .var v, rest => onVar v ++ rest
  | .app f args, rest => onSymbol f ++ listedAll args rest

def listedAll : List Term → List α → List α
  | [], rest => rest
  | t :: ts, rest => listed t (listedAll ts rest)

end

theorem listedAll_eq_flatMap {ts : List Term}
    (h : ∀ t ∈ ts, ∀ rest, listed onVar onSymbol t rest = listed onVar onSymbol t [] ++ rest)
    (rest : List α) :
    listedAll onVar onSymbol ts rest = ts.flatMap (listed onVar onSymbol · []) ++ rest := by
  induction ts with
  | nil => rfl
  | cons t ts ih =>
    rw [listedAll, h t (by simp), ih fun s hs => h s (by simp [hs]), List.flatMap_cons,
      List.append_assoc]

theorem listed_eq_append (t : Term) (rest : List α) :
    listed onVar onSymbol t rest = listed onVar onSymbol t [] ++ rest := by
  induction t using induction generalizing rest with
  | var v => simp [listed]
  | app f args ih => simp [listed, listedAll_eq_flatMap onVar onSymbol ih]

theorem listed_app (f : Symbol) (args : List Term) :
    listed onVar onSymbol (.app f args) [] =
      onSymbol f ++ args.flatMap (listed onVar onSymbol · []) := by
  rw [listed, listedAll_eq_flatMap onVar onSymbol fun t _ => listed_eq_append onVar onSymbol t,
    List.append_nil]

end Listed

def const (f : Symbol) : Term := .app f []

/-- The variables from left to right, as often as they occur. -/
def occurrences (t : Term) : List Var := t.listed (fun v => [v]) (fun _ => []) []

/-- The variables in order of first appearance. -/
def vars (t : Term) : List Var := distinct t.occurrences

def symbols (t : Term) : List Symbol := t.listed (fun _ => []) (fun f => [f]) []

/-- The number of variable and symbol occurrences. -/
def size : Term → Nat := fold (fun _ => 1) (fun _ ns => total ns + 1)

/-- Replaces every variable, all at once. -/
def bind (σ : Var → Term) : Term → Term := fold σ .app

@[simp] theorem occurrences_var (v : Var) : (var v).occurrences = [v] := rfl

@[simp] theorem occurrences_app (f : Symbol) (args : List Term) :
    (app f args).occurrences = args.flatMap occurrences := by
  rw [occurrences, listed_app]
  rfl

@[simp] theorem symbols_var (v : Var) : (var v).symbols = [] := rfl

@[simp] theorem symbols_app (f : Symbol) (args : List Term) :
    (app f args).symbols = f :: args.flatMap symbols := by
  rw [symbols, listed_app]
  rfl

@[simp] theorem size_var (v : Var) : (var v).size = 1 := rfl

@[simp] theorem size_app (f : Symbol) (args : List Term) :
    (app f args).size = total (args.map size) + 1 := by
  rw [size, fold_app]

@[simp] theorem bind_var (σ : Var → Term) (v : Var) : (var v).bind σ = σ v := rfl

@[simp] theorem bind_app (σ : Var → Term) (f : Symbol) (args : List Term) :
    (app f args).bind σ = app f (args.map (bind σ)) := by
  rw [bind, fold_app]

def asVar? : Term → Option Var
  | .var v => some v
  | .app _ _ => none

def isVar (t : Term) : Bool := t.asVar?.isSome

def isConst : Term → Bool
  | .var _ => false
  | .app _ args => args.isEmpty

def arity : Term → Nat
  | .var _ => 0
  | .app _ args => args.length

end Term

/-- A predicate symbol and its arguments. -/
structure Atom where
  symbol : Symbol
  args : List Term
deriving DecidableEq

namespace Atom

def isPropositional (a : Atom) : Bool := a.args.isEmpty

def arity (a : Atom) : Nat := a.args.length

def occurrences (a : Atom) : List Var := a.args.flatMap Term.occurrences

def vars (a : Atom) : List Var := distinct a.occurrences

def symbols (a : Atom) : List Symbol := a.symbol :: a.args.flatMap Term.symbols

def size (a : Atom) : Nat := total (a.args.map Term.size) + 1

def mapTerms (g : Term → Term) (a : Atom) : Atom := { a with args := a.args.map g }

end Atom

/-- What can be unified, and what a variable can be bound to. -/
inductive Expr where
  | term (t : Term)
  | atom (a : Atom)
deriving DecidableEq

namespace Expr

def asTerm? : Expr → Option Term
  | .term t => some t
  | .atom _ => none

def asAtom? : Expr → Option Atom
  | .term _ => none
  | .atom a => some a

/-- The variable that is the whole expression, if it is one. -/
def asVar? : Expr → Option Var
  | .term t => t.asVar?
  | .atom _ => none

def occurrences : Expr → List Var
  | .term t => t.occurrences
  | .atom a => a.occurrences

def vars (e : Expr) : List Var := distinct e.occurrences

def symbols : Expr → List Symbol
  | .term t => t.symbols
  | .atom a => a.symbols

def size : Expr → Nat
  | .term t => t.size
  | .atom a => a.size

def mapTerms (g : Term → Term) : Expr → Expr
  | .term t => .term (g t)
  | .atom a => .atom (a.mapTerms g)

end Expr

end HornResolution
