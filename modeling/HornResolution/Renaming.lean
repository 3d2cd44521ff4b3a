import HornResolution.Clause
import HornResolution.Vocabulary

/-!
# Standardizing apart

A copy of an expression has its variables replaced by fresh ones, so that two
uses of one clause share no variable. The fresh variables are allocated in the
order in which the old ones first appear, and each keeps the display name of
the variable that it stands for.
-/

namespace HornResolution

/-- Old variables and the fresh ones that stand for them, latest last. -/
structure Renaming where
  pairs : List (Var × Var)
deriving DecidableEq

namespace Renaming

def empty : Renaming := ⟨[]⟩

def image? (ρ : Renaming) (v : Var) : Option Var := ρ.pairs.lookup v

/-- A variable without a fresh one stands for itself. -/
def image (ρ : Renaming) (v : Var) : Var := (ρ.image? v).getD v

def add (ρ : Renaming) (v w : Var) : Renaming := ⟨ρ.pairs ++ [(v, w)]⟩

end Renaming

/-- What came of covering a list of variables. -/
structure Covering where
  assigned : Renaming
  vocabulary : Vocabulary
  /-- The variable at which the covering ended because nothing is known of it. -/
  unknown : Option Var

/-- Gives each listed variable that has no fresh one yet its fresh variable. -/
def Renaming.cover : List Var → Renaming → Vocabulary → Covering
  | [], ρ, V => ⟨ρ, V, none⟩
  | v :: vs, ρ, V =>
    if (ρ.image? v).isSome then cover vs ρ V
    else match V.varSymbol? v with
      | none => ⟨ρ, V, some v⟩
      | some s =>
        let (w, V') := V.allocate s
        cover vs (ρ.add v w) V'

def Term.rename (ρ : Renaming) (t : Term) : Term := t.bind fun v => .var (ρ.image v)

def Atom.rename (ρ : Renaming) (a : Atom) : Atom := a.mapTerms (Term.rename ρ)

def Formula.rename (ρ : Renaming) (f : Formula) : Formula := f.mapTerms (Term.rename ρ)

def Clause.rename (ρ : Renaming) (c : Clause) : Clause := c.mapTerms (Term.rename ρ)

/-- The copy that a covering allows, unless it met an unknown variable. -/
def Covering.copy {α : Type} (r : Covering) (rename : Renaming → α) : Except Misuse α :=
  match r.unknown with
  | none => .ok (rename r.assigned)
  | some v => .error (.unknownVariable v)

/-- The copy of a clause over fresh variables. The variables allocated before one
that the vocabulary does not know stay allocated. -/
def Clause.standardizeApart (c : Clause) (V : Vocabulary) : Except Misuse Clause × Vocabulary :=
  let r := Renaming.empty.cover c.vars V
  (r.copy fun ρ => c.rename ρ, r.vocabulary)

/-- The copy of the clause at an index over fresh variables. -/
def Program.standardizeApart (P : Program) (index : Nat) (V : Vocabulary) :
    Except Misuse Clause × Vocabulary :=
  match P.get? index with
  | none => (.error (.noSuchRule index P.length), V)
  | some c => c.standardizeApart V

end HornResolution
