import HornResolution.Misuse
import HornResolution.Term

/-!
# Formulas

Formulas are built from atoms by conjunction, disjunction and negation, the
first two over any number of operands. Resolution handles atoms and non-empty
conjunctions; the other connectives can be written down, printed and stored.
-/

namespace HornResolution

inductive Formula where
  | atom (a : Atom)
  | conj (operands : List Formula)
  | disj (operands : List Formula)
  | neg (operand : Formula)

namespace Formula

mutual

/-- What holds of atoms and passes from operands to connectives holds of every formula. -/
theorem induction {motive : Formula → Prop} (atom : ∀ a, motive (.atom a))
    (conj : ∀ fs, (∀ f ∈ fs, motive f) → motive (.conj fs))
    (disj : ∀ fs, (∀ f ∈ fs, motive f) → motive (.disj fs))
    (neg : ∀ f, motive f → motive (.neg f)) : ∀ f, motive f
  | .atom a => atom a
  | .conj fs => conj fs (inductionAll atom conj disj neg fs)
  | .disj fs => disj fs (inductionAll atom conj disj neg fs)
  | .neg f => neg f (induction atom conj disj neg f)

theorem inductionAll {motive : Formula → Prop} (atom : ∀ a, motive (.atom a))
    (conj : ∀ fs, (∀ f ∈ fs, motive f) → motive (.conj fs))
    (disj : ∀ fs, (∀ f ∈ fs, motive f) → motive (.disj fs))
    (neg : ∀ f, motive f → motive (.neg f)) : ∀ fs : List Formula, ∀ f ∈ fs, motive f
  | [], _, h => nomatch h
  | f :: _, _, .head _ => induction atom conj disj neg f
  | _ :: fs, g, .tail _ h => inductionAll atom conj disj neg fs g h

end

mutual

def decEq : (f g : Formula) → Decidable (f = g)
  | .atom a, .atom b => if h : a = b then .isTrue (by rw [h]) else .isFalse (by simp [h])
  | .conj fs, .conj gs =>
    match decEqAll fs gs with
    | .isTrue h => .isTrue (by rw [h])
    | .isFalse h => .isFalse (by simp [h])
  | .disj fs, .disj gs =>
    match decEqAll fs gs with
    | .isTrue h => .isTrue (by rw [h])
    | .isFalse h => .isFalse (by simp [h])
  | .neg f, .neg g =>
    match decEq f g with
    | .isTrue h => .isTrue (by rw [h])
    | .isFalse h => .isFalse (by simp [h])
  | .atom _, .conj _ => .isFalse (by simp)
  | .atom _, .disj _ => .isFalse (by simp)
  | .atom _, .neg _ => .isFalse (by simp)
  | .conj _, .atom _ => .isFalse (by simp)
  | .conj _, .disj _ => .isFalse (by simp)
  | .conj _, .neg _ => .isFalse (by simp)
  | .disj _, .atom _ => .isFalse (by simp)
  | .disj _, .conj _ => .isFalse (by simp)
  | .disj _, .neg _ => .isFalse (by simp)
  | .neg _, .atom _ => .isFalse (by simp)
  | .neg _, .conj _ => .isFalse (by simp)
  | .neg _, .disj _ => .isFalse (by simp)

def decEqAll : (fs gs : List Formula) → Decidable (fs = gs)
  | [], [] => .isTrue rfl
  | [], _ :: _ => .isFalse (by simp)
  | _ :: _, [] => .isFalse (by simp)
  | f :: fs, g :: gs =>
    match decEq f g with
    | .isTrue hf =>
      match decEqAll fs gs with
      | .isTrue hfs => .isTrue (by rw [hf, hfs])
      | .isFalse hfs => .isFalse (by simp [hfs])
    | .isFalse hf => .isFalse (by simp [hf])

end

instance : DecidableEq Formula := decEq

/-- The conjunction of at least one operand. -/
def conj? (operands : List Formula) : Except Misuse Formula :=
  if operands.isEmpty then .error .emptyConjunction else .ok (.conj operands)

def shape : Formula → Shape
  | .atom _ => .predicate
  | .conj _ => .conjunction
  | .disj _ => .disjunction
  | .neg _ => .negation

def isAtomic : Formula → Bool
  | .atom _ => true
  | _ => false

/-- An atom or a negated atom. -/
def isLiteral : Formula → Bool
  | .atom _ => true
  | .neg f => f.isAtomic
  | _ => false

/-- The first operand of a conjunction or disjunction. -/
def firstOperand? : Formula → Option Formula
  | .conj fs => fs.head?
  | .disj fs => fs.head?
  | _ => none

/-- The same connective over the operands after the first, if there are any. -/
def otherOperands? : Formula → Option Formula
  | .conj (_ :: f :: fs) => some (.conj (f :: fs))
  | .disj (_ :: f :: fs) => some (.disj (f :: fs))
  | _ => none

mutual

/-- The atoms from left to right. -/
def atoms : Formula → List Atom
  | .atom a => [a]
  | .conj fs => atomsAll fs
  | .disj fs => atomsAll fs
  | .neg f => atoms f

def atomsAll : List Formula → List Atom
  | [] => []
  | f :: fs => atoms f ++ atomsAll fs

end

theorem atomsAll_eq_flatMap (fs : List Formula) : atomsAll fs = fs.flatMap atoms := by
  induction fs with
  | nil => rfl
  | cons f fs ih => rw [atomsAll, ih, List.flatMap_cons]

mutual

/-- Replaces every argument of every atom. -/
def mapTerms (g : Term → Term) : Formula → Formula
  | .atom a => .atom (a.mapTerms g)
  | .conj fs => .conj (mapTermsAll g fs)
  | .disj fs => .disj (mapTermsAll g fs)
  | .neg f => .neg (mapTerms g f)

def mapTermsAll (g : Term → Term) : List Formula → List Formula
  | [] => []
  | f :: fs => mapTerms g f :: mapTermsAll g fs

end

theorem mapTermsAll_eq_map (g : Term → Term) (fs : List Formula) :
    mapTermsAll g fs = fs.map (mapTerms g) := by
  induction fs with
  | nil => rfl
  | cons f fs ih => rw [mapTermsAll, ih, List.map_cons]

def occurrences (f : Formula) : List Var := f.atoms.flatMap Atom.occurrences

def vars (f : Formula) : List Var := distinct f.occurrences

def symbols (f : Formula) : List Symbol := f.atoms.flatMap Atom.symbols

end Formula

end HornResolution
