import HornResolution.Proofs.Absorption
import HornResolution.Proofs.UnboundedRecursion

/-!
# What the occurs check decides

The occurs check looks for a variable in an expression and, behind every bound variable that it
meets, in the value of that variable. What it finds is exactly what the variables of the expression
lead to, by any number of links, none included. The check meets bound variables too and may find
one of them.

Applying a substitution follows the same links and keeps only the variables at their ends. For a
variable that is unbound, and bindings to terms only, the check therefore tells whether the variable
is left when the expression is resolved. A binding to an atom would part the two: the check follows
it wherever it meets it, and inside a term nothing can be put in its place.
-/

namespace HornResolution

open Substitution

variable {θ : Substitution} {v : Var} {e : Expr}

theorem Unbounded.occurs_iff (hθ : θ.Acyclic) {r : Bool} :
    Unbounded.Occurs θ v e r ↔ r = θ.occursIn v e := by
  constructor
  · intro h
    rw [Bool.eq_iff_iff, h.eq_true_iff, hθ.occursIn_iff]
  · rintro rfl
    exact Unbounded.occurs_ends hθ v e

theorem Substitution.Regular.mem_apply (hθ : θ.Regular) (hv : θ.get? v = none) :
    v ∈ (e.apply θ).vars ↔ ∃ u ∈ e.occurrences, Relation.ReflTransGen θ.Leads u v := by
  rw [Expr.vars, mem_distinct, hθ.apply_eq_bind, Expr.mem_occurrences_bind]
  simp only [hθ.mem_resolved hv]

/-- The occurs check is reachability, and it agrees with applying. Under an acyclic substitution,
with atoms among its values, the search through an expression and the values of its bound variables
comes to the one result of the check. It finds a variable if and only if some variable of the
expression leads to it. If all values are terms and the variable is unbound, then this is so if and
only if the variable is among those of the resolved expression. -/
theorem occurs_check_exact (hθ : θ.Acyclic) (e : Expr) (v : Var) :
    (∀ r, Unbounded.Occurs θ v e r ↔ r = θ.occursIn v e) ∧
      (θ.occursIn v e = true ↔ ∃ u ∈ e.occurrences, Relation.ReflTransGen θ.Leads u v) ∧
      (θ.TermValued → θ.get? v = none → (θ.occursIn v e = true ↔ v ∈ (e.apply θ).vars)) := by
  refine ⟨fun r => Unbounded.occurs_iff hθ, hθ.occursIn_iff, fun hterms hv => ?_⟩
  have hregular : θ.Regular := ⟨hθ, hterms⟩
  rw [hθ.occursIn_iff, hregular.mem_apply hv]

/-- A value that is an atom is followed by the check, and it is not put into a term. -/
example :
    let θ := Substitution.empty.add ⟨0⟩ (.atom ⟨⟨7⟩, [.var ⟨1⟩]⟩)
    θ.occursIn ⟨1⟩ (.term (.app ⟨5⟩ [.var ⟨0⟩])) = true ∧
      ((Expr.term (.app ⟨5⟩ [.var ⟨0⟩])).apply θ).vars = [⟨0⟩] := by
  decide

/-- An unbound variable at the end of a chain through two terms, and a bound one on the way. -/
theorem occurs_check_exact_linkedBindings :
    linkedBindings.Acyclic ∧ linkedBindings.TermValued ∧ linkedBindings.get? ⟨1⟩ = none ∧
      ⟨1⟩ ∈ ((Expr.atom ⟨⟨7⟩, [.const ⟨6⟩, .var ⟨2⟩]⟩).apply linkedBindings).vars ∧
      ∃ u ∈ (Expr.atom ⟨⟨7⟩, [.const ⟨6⟩, .var ⟨2⟩]⟩).occurrences,
        Relation.ReflTransGen linkedBindings.Leads u ⟨0⟩ := by
  obtain ⟨hacyclic, hterms⟩ := regular_linkedBindings
  have hcheck (v : Var) :=
    occurs_check_exact hacyclic (.atom ⟨⟨7⟩, [.const ⟨6⟩, .var ⟨2⟩]⟩) v
  have hfree : linkedBindings.get? ⟨1⟩ = none := by decide
  refine ⟨hacyclic, hterms, hfree, ?_, ?_⟩
  · exact ((hcheck ⟨1⟩).2.2 hterms hfree).mp (by decide)
  · exact (hcheck ⟨0⟩).2.1.mp (by decide)

end HornResolution
