import HornResolution.Clause

/-!
# Substitutions

A substitution lists bindings of variables in the order in which they were
made, each of another variable. Values are kept as they were bound: a value may
mention variables that are bound themselves, and whoever reads it follows such
chains.

A chain of an acyclic substitution passes through each bound variable at most
once, so the number of bindings bounds every chain. The functions below follow
chains for that many links and thereby to the end.
-/

namespace HornResolution

@[ext] structure Substitution where
  bindings : List (Var × Expr)
  /-- No variable is bound twice. -/
  nodup : (bindings.map Prod.fst).Nodup := by decide
deriving DecidableEq

namespace Substitution

def empty : Substitution := { bindings := [] }

def length (θ : Substitution) : Nat := θ.bindings.length

def isEmpty (θ : Substitution) : Bool := θ.bindings.isEmpty

/-- The value a variable was bound to. -/
def get? (θ : Substitution) (v : Var) : Option Expr := θ.bindings.lookup v

def isBound (θ : Substitution) (v : Var) : Bool := (θ.get? v).isSome

def value (θ : Substitution) (v : Var) : Except Misuse Expr :=
  match θ.get? v with
  | some e => .ok e
  | none => .error (.unbound v)

@[simp] theorem get?_empty (v : Var) : empty.get? v = none := rfl

theorem nodup_concat {θ : Substitution} {v : Var} (h : ¬θ.isBound v) (e : Expr) :
    ((θ.bindings ++ [(v, e)]).map Prod.fst).Nodup := by
  rw [List.map_append, List.nodup_append]
  refine ⟨θ.nodup, by simp, ?_⟩
  rintro w hw u hu rfl
  obtain ⟨b, hb, rfl⟩ := List.mem_map.mp hw
  obtain rfl : b.1 = v := by simpa using hu
  have hfree : θ.get? b.1 = none := by simpa only [isBound, Option.not_isSome_iff_eq_none] using h
  have hother := List.lookup_eq_none_iff.mp hfree b hb
  simp at hother

/-- One more binding, made last. A variable keeps the value that it has. -/
def add (θ : Substitution) (v : Var) (e : Expr) : Substitution :=
  if h : θ.isBound v then θ else ⟨θ.bindings ++ [(v, e)], nodup_concat h e⟩

theorem bindings_add {θ : Substitution} {v : Var} (h : θ.get? v = none) (e : Expr) :
    (θ.add v e).bindings = θ.bindings ++ [(v, e)] := by
  simp [add, isBound, h]

theorem length_add {θ : Substitution} {v : Var} (h : θ.get? v = none) (e : Expr) :
    (θ.add v e).length = θ.length + 1 := by
  simp [length, bindings_add h]

theorem get?_add (θ : Substitution) (v w : Var) (e : Expr) :
    (θ.add v e).get? w = (θ.get? w).or (if w = v then some e else none) := by
  unfold add
  split
  · rename_i h
    obtain ⟨e', he'⟩ := Option.isSome_iff_exists.mp h
    by_cases hw : w = v
    · simp [hw, he']
    · simp [hw]
  · unfold get?
    rw [List.lookup_append]
    by_cases hw : w = v
    · simp [hw]
    · have : (w == v) = false := by simpa using hw
      simp [List.lookup_cons, this, hw]

def symbols (θ : Substitution) : List Symbol := θ.bindings.flatMap fun b => b.2.symbols

/-- The bound variables and the variables of their values. -/
def occurrences (θ : Substitution) : List Var := θ.bindings.flatMap fun b => b.1 :: b.2.occurrences

/-- Whether both make the same bindings, in whatever order. -/
def agrees (θ τ : Substitution) : Bool :=
  θ.length == τ.length && θ.bindings.all fun b => τ.get? b.1 == some b.2

/-- Whether `target` is the variable itself or met within the given number of
links from it. -/
def reaches (θ : Substitution) (target : Var) : (links : Nat) → Var → Bool
  | 0, v => v == target
  | links + 1, v =>
    v == target ||
      match θ.get? v with
      | some e => e.occurrences.any (θ.reaches target links)
      | none => false

/-- The occurs check: does the variable occur in the expression once every binding
is followed, those to atoms included? -/
def occursIn (θ : Substitution) (v : Var) (e : Expr) : Bool :=
  e.occurrences.any (θ.reaches v θ.length)

/-- One more binding, of an unbound variable to a value that does not lead back to it. -/
def extend (θ : Substitution) (v : Var) (e : Expr) : Except Misuse Substitution :=
  if θ.isBound v then .error (.rebinding v)
  else if θ.occursIn v e then .error (.cycle v)
  else .ok (θ.add v e)

def walkWithin (θ : Substitution) : (links : Nat) → Expr → Expr
  | 0, e => e
  | links + 1, e =>
    match e.asVar? with
    | none => e
    | some v =>
      match θ.get? v with
      | none => e
      | some value => θ.walkWithin links value

/-- Follows an expression that is a bare variable to its value, as long as that is
one and is bound. -/
def walk (θ : Substitution) (e : Expr) : Expr := θ.walkWithin θ.length e

/-- What a variable inside a term stands for. No atom can stand there, so a
variable bound to one is kept. -/
def resolve (θ : Substitution) : (links : Nat) → Var → Term
  | 0, v => .var v
  | links + 1, v =>
    match θ.get? v with
    | some (.term t) => t.bind (θ.resolve links)
    | _ => .var v

end Substitution

/-- The term with every bound variable replaced by its fully resolved value. -/
def Term.apply (θ : Substitution) (t : Term) : Term := t.bind (θ.resolve θ.length)

def Atom.apply (θ : Substitution) (a : Atom) : Atom := a.mapTerms (Term.apply θ)

def Formula.apply (θ : Substitution) (f : Formula) : Formula := f.mapTerms (Term.apply θ)

def Clause.apply (θ : Substitution) (c : Clause) : Clause := c.mapTerms (Term.apply θ)

/-- The expression with every bound variable replaced by its fully resolved value.
A bare variable that leads to an atom becomes that atom. -/
def Expr.apply (θ : Substitution) (e : Expr) : Expr := (θ.walk e).mapTerms (Term.apply θ)

namespace Substitution

/-- Whether no value has a variable left once it is resolved. -/
def isGround (θ : Substitution) : Bool :=
  θ.bindings.all fun b => (b.2.apply θ).occurrences.isEmpty

/-- The resolved value of each listed variable that is bound. -/
def resolvedValues (θ : Substitution) (vs : List Var) : List (Var × Expr) :=
  (vs.filter θ.isBound).map fun v => (v, (Expr.term (.var v)).apply θ)

/-- The size of all bindings together. -/
def weight (θ : Substitution) : Nat := total (θ.bindings.map fun b => b.2.size + 1)

end Substitution

end HornResolution
