import HornResolution.Renaming
import HornResolution.Substitution
import Mathlib.Tactic

/-!
# Instances

An instance of an expression, formula or clause replaces every variable by a
term, all at once. Only the variables that occur matter, and an instance of a copy
over other variables is an instance of the original.
-/

namespace HornResolution

section Definitions

variable (ρ : Var → Term)

def Atom.bind (a : Atom) : Atom := a.mapTerms (Term.bind ρ)

def Expr.bind (e : Expr) : Expr := e.mapTerms (Term.bind ρ)

def Formula.bind (f : Formula) : Formula := f.mapTerms (Term.bind ρ)

def Clause.bind (c : Clause) : Clause := c.mapTerms (Term.bind ρ)

@[simp] theorem Formula.bind_atom (a : Atom) : (atom a).bind ρ = .atom (a.bind ρ) := by
  rw [Formula.bind, mapTerms, Atom.bind]

@[simp] theorem Formula.bind_conj (fs : List Formula) :
    (conj fs).bind ρ = .conj (fs.map (Formula.bind ρ)) := by
  rw [Formula.bind, mapTerms, mapTermsAll_eq_map]
  rfl

@[simp] theorem Formula.bind_disj (fs : List Formula) :
    (disj fs).bind ρ = .disj (fs.map (Formula.bind ρ)) := by
  rw [Formula.bind, mapTerms, mapTermsAll_eq_map]
  rfl

@[simp] theorem Formula.bind_neg (f : Formula) : (neg f).bind ρ = .neg (f.bind ρ) := by
  rw [Formula.bind, mapTerms, Formula.bind]

@[simp] theorem Clause.bind_fact (a : Atom) : (fact a).bind ρ = .fact (a.bind ρ) := rfl

@[simp] theorem Clause.bind_rule (a : Atom) (f : Formula) :
    (rule a f).bind ρ = .rule (a.bind ρ) (f.bind ρ) := rfl

@[simp] theorem Clause.bind_goal (f : Formula) : (goal f).bind ρ = .goal (f.bind ρ) := rfl

end Definitions

section Inversion

variable {ρ : Var → Term} {a : Atom} {f g : Formula} {gs : List Formula} {c : Clause}

theorem Formula.bind_eq_atom (h : f.bind ρ = .atom a) : ∃ b, f = .atom b ∧ b.bind ρ = a := by
  cases f with
  | atom b => exact ⟨b, rfl, by simpa using h⟩
  | conj fs => simp at h
  | disj fs => simp at h
  | neg f => simp at h

theorem Formula.bind_eq_conj (h : f.bind ρ = .conj gs) :
    ∃ fs, f = .conj fs ∧ fs.map (Formula.bind ρ) = gs := by
  cases f with
  | conj fs => exact ⟨fs, rfl, by simpa using h⟩
  | atom b => simp at h
  | disj fs => simp at h
  | neg f => simp at h

theorem Clause.bind_eq_fact (h : c.bind ρ = .fact a) : ∃ b, c = .fact b ∧ b.bind ρ = a := by
  cases c with
  | fact b => exact ⟨b, rfl, by simpa using h⟩
  | rule b f => simp at h
  | goal f => simp at h

theorem Clause.bind_eq_rule (h : c.bind ρ = .rule a g) :
    ∃ b f, c = .rule b f ∧ b.bind ρ = a ∧ f.bind ρ = g := by
  cases c with
  | rule b f => exact ⟨b, f, rfl, by simpa using h⟩
  | fact b => simp at h
  | goal f => simp at h

end Inversion

section Congruence

variable {ρ τ : Var → Term}

theorem Term.bind_congr {t : Term} (h : ∀ v ∈ t.occurrences, ρ v = τ v) :
    t.bind ρ = t.bind τ := by
  induction t using Term.induction with
  | var v => exact h v (by simp)
  | app f args ih =>
    rw [Term.bind_app, Term.bind_app]
    congr 1
    apply List.map_congr_left
    intro t ht
    exact ih t ht fun v hv => h v (by simpa using ⟨t, ht, hv⟩)

theorem Atom.bind_congr {a : Atom} (h : ∀ v ∈ a.occurrences, ρ v = τ v) :
    a.bind ρ = a.bind τ := by
  simp only [Atom.bind, Atom.mapTerms, Atom.mk.injEq, true_and]
  apply List.map_congr_left
  intro t ht
  exact Term.bind_congr fun v hv => h v (List.mem_flatMap.mpr ⟨t, ht, hv⟩)

theorem Expr.bind_congr {e : Expr} (h : ∀ v ∈ e.occurrences, ρ v = τ v) :
    e.bind ρ = e.bind τ := by
  cases e with
  | term t => exact congrArg Expr.term (Term.bind_congr h)
  | atom a => exact congrArg Expr.atom (Atom.bind_congr h)

theorem Formula.occurrences_atom (a : Atom) : (atom a).occurrences = a.occurrences := by
  simp [occurrences, atoms]

theorem Formula.mem_occurrences_conj {fs : List Formula} {v : Var} :
    v ∈ (conj fs).occurrences ↔ ∃ f ∈ fs, v ∈ f.occurrences := by
  simp only [occurrences, atoms, atomsAll_eq_flatMap, List.mem_flatMap]
  tauto

theorem Formula.bind_congr {f : Formula} (h : ∀ v ∈ f.occurrences, ρ v = τ v) :
    f.bind ρ = f.bind τ := by
  have hall : ∀ fs : List Formula, (∀ f ∈ fs, (∀ v ∈ f.occurrences, ρ v = τ v) →
      f.bind ρ = f.bind τ) → (∀ v ∈ (conj fs).occurrences, ρ v = τ v) →
      fs.map (Formula.bind ρ) = fs.map (Formula.bind τ) := by
    intro fs ih h
    apply List.map_congr_left
    intro f hf
    exact ih f hf fun v hv => h v (mem_occurrences_conj.mpr ⟨f, hf, hv⟩)
  induction f using Formula.induction with
  | atom a =>
    rw [occurrences_atom] at h
    rw [bind_atom, bind_atom, Atom.bind_congr h]
  | conj fs ih => rw [bind_conj, bind_conj, hall fs ih h]
  | disj fs ih => rw [bind_disj, bind_disj, hall fs ih h]
  | neg f ih => rw [bind_neg, bind_neg, ih h]

theorem Clause.bind_congr {c : Clause} (h : ∀ v ∈ c.occurrences, ρ v = τ v) :
    c.bind ρ = c.bind τ := by
  cases c with
  | fact a => rw [bind_fact, bind_fact, Atom.bind_congr h]
  | rule a f =>
    rw [bind_rule, bind_rule, Atom.bind_congr fun v hv => h v (List.mem_append_left _ hv),
      Formula.bind_congr fun v hv => h v (List.mem_append_right _ hv)]
  | goal f => rw [bind_goal, bind_goal, Formula.bind_congr h]

end Congruence

section Composition

variable (ρ τ : Var → Term)

theorem Term.bind_bind (t : Term) : (t.bind ρ).bind τ = t.bind fun v => (ρ v).bind τ := by
  induction t using Term.induction with
  | var v => rfl
  | app f args ih =>
    simp only [Term.bind_app, List.map_map, Term.app.injEq, true_and]
    exact List.map_congr_left ih

theorem Atom.bind_bind (a : Atom) : (a.bind ρ).bind τ = a.bind fun v => (ρ v).bind τ := by
  simp only [Atom.bind, Atom.mapTerms, List.map_map, Atom.mk.injEq, true_and]
  exact List.map_congr_left fun t _ => Term.bind_bind ρ τ t

theorem Expr.bind_bind (e : Expr) : (e.bind ρ).bind τ = e.bind fun v => (ρ v).bind τ := by
  cases e with
  | term t => exact congrArg Expr.term (Term.bind_bind ρ τ t)
  | atom a => exact congrArg Expr.atom (Atom.bind_bind ρ τ a)

theorem Formula.bind_bind (f : Formula) : (f.bind ρ).bind τ = f.bind fun v => (ρ v).bind τ := by
  induction f using Formula.induction with
  | atom a => rw [bind_atom, bind_atom, bind_atom, Atom.bind_bind]
  | conj fs ih =>
    rw [bind_conj, bind_conj, bind_conj, List.map_map]
    exact congrArg conj (List.map_congr_left ih)
  | disj fs ih =>
    rw [bind_disj, bind_disj, bind_disj, List.map_map]
    exact congrArg disj (List.map_congr_left ih)
  | neg f ih => rw [bind_neg, bind_neg, bind_neg, ih]

theorem Clause.bind_bind (c : Clause) : (c.bind ρ).bind τ = c.bind fun v => (ρ v).bind τ := by
  cases c with
  | fact a => exact congrArg fact (Atom.bind_bind ρ τ a)
  | rule a f => exact congrArg₂ rule (Atom.bind_bind ρ τ a) (Formula.bind_bind ρ τ f)
  | goal f => exact congrArg goal (Formula.bind_bind ρ τ f)

end Composition

section Relabelled

/-- The valuation that replaces variables by variables. -/
def relabelling (π : Var → Var) (v : Var) : Term := .var (π v)

variable (π : Var → Var) (ρ : Var → Term)

theorem Atom.bind_relabelling (a : Atom) :
    (a.bind (relabelling π)).bind ρ = a.bind fun v => ρ (π v) := Atom.bind_bind _ ρ a

theorem Formula.bind_relabelling (f : Formula) :
    (f.bind (relabelling π)).bind ρ = f.bind fun v => ρ (π v) := Formula.bind_bind _ ρ f

theorem Clause.bind_relabelling (c : Clause) :
    (c.bind (relabelling π)).bind ρ = c.bind fun v => ρ (π v) := Clause.bind_bind _ ρ c

theorem Term.occurrences_relabelling (t : Term) :
    (t.bind (relabelling π)).occurrences = t.occurrences.map π := by
  induction t using Term.induction with
  | var v => rfl
  | app f args ih =>
    rw [Term.bind_app, occurrences_app, occurrences_app, List.flatMap_map, List.map_flatMap]
    exact List.flatMap_congr ih

theorem Atom.occurrences_relabelling (a : Atom) :
    (a.bind (relabelling π)).occurrences = a.occurrences.map π := by
  simp only [occurrences, Atom.bind, mapTerms, List.flatMap_map, List.map_flatMap]
  exact List.flatMap_congr fun t _ => Term.occurrences_relabelling π t

theorem Formula.atoms_bind (f : Formula) : (f.bind ρ).atoms = f.atoms.map (Atom.bind ρ) := by
  induction f using Formula.induction with
  | atom a => rw [bind_atom, atoms, atoms, List.map_singleton]
  | conj fs ih =>
    rw [bind_conj, atoms, atoms, atomsAll_eq_flatMap, atomsAll_eq_flatMap, List.flatMap_map,
      List.map_flatMap]
    exact List.flatMap_congr ih
  | disj fs ih =>
    rw [bind_disj, atoms, atoms, atomsAll_eq_flatMap, atomsAll_eq_flatMap, List.flatMap_map,
      List.map_flatMap]
    exact List.flatMap_congr ih
  | neg f ih => rw [bind_neg, atoms, atoms, ih]

theorem Formula.occurrences_relabelling (f : Formula) :
    (f.bind (relabelling π)).occurrences = f.occurrences.map π := by
  rw [occurrences, occurrences, atoms_bind, List.flatMap_map, List.map_flatMap]
  exact List.flatMap_congr fun a _ => Atom.occurrences_relabelling π a

theorem Clause.occurrences_relabelling (c : Clause) :
    (c.bind (relabelling π)).occurrences = c.occurrences.map π := by
  cases c with
  | fact a => exact Atom.occurrences_relabelling π a
  | rule a f =>
    rw [bind_rule, occurrences, occurrences, Atom.occurrences_relabelling,
      Formula.occurrences_relabelling, List.map_append]
  | goal f => exact Formula.occurrences_relabelling π f

end Relabelled

section Renamed

variable (r : Renaming) (ρ : Var → Term)

theorem Atom.bind_rename (a : Atom) : (a.rename r).bind ρ = a.bind fun v => ρ (r.image v) :=
  Atom.bind_relabelling r.image ρ a

theorem Formula.bind_rename (f : Formula) :
    (f.rename r).bind ρ = f.bind fun v => ρ (r.image v) :=
  Formula.bind_relabelling r.image ρ f

theorem Clause.bind_rename (c : Clause) : (c.rename r).bind ρ = c.bind fun v => ρ (r.image v) :=
  Clause.bind_relabelling r.image ρ c

theorem Clause.occurrences_rename (c : Clause) :
    (c.rename r).occurrences = c.occurrences.map r.image :=
  Clause.occurrences_relabelling r.image c

end Renamed

end HornResolution
