import HornResolution.Proofs.ComparisonBound
import HornResolution.Proofs.ParentBindings

/-!
# Bindings share parts of what was given

Unification builds no expressions. A comparison starts from two expressions and the values of
the bindings there are, and it goes down into their arguments and on to values, some of which
it has bound itself on the way. So whatever it compares, and whatever it binds a variable to,
stands literally in one of the expressions that it started from.
-/

namespace HornResolution

/-- What stands literally in an expression: the whole of it, or what stands in one of its
arguments. -/
inductive Expr.PartOf (part : Expr) : Expr → Prop
  | whole : PartOf part part
  | inside {e : Expr} {x : Term} (hx : x ∈ e.args) (h : PartOf part (.term x)) : PartOf part e

theorem Expr.PartOf.argument {part e : Expr} (h : part.PartOf e) {x : Term} (hx : x ∈ part.args) :
    (Expr.term x).PartOf e := by
  induction h with
  | whole => exact .inside hx .whole
  | inside hy _ ih => exact .inside hy ih

namespace Unification

variable {θ σ : Substitution} {a b e : Expr} {x : Term}

/-- What a comparison starts from: its two sides and the values of the bindings. -/
def givens (a b : Expr) (θ : Substitution) : List Expr := a :: b :: θ.bindings.map Prod.snd

theorem mem_givens_left (a b : Expr) (θ : Substitution) : a ∈ givens a b θ := by simp [givens]

theorem mem_givens_right (a b : Expr) (θ : Substitution) : b ∈ givens a b θ := by simp [givens]

theorem mem_givens_of_mem {binding : Var × Expr} (h : binding ∈ θ.bindings) (a b : Expr) :
    binding.2 ∈ givens a b θ := by
  simp only [givens, List.mem_cons, List.mem_map]
  exact Or.inr (Or.inr ⟨binding, h, rfl⟩)

/-- An expression that stands in one of several. -/
def SharedBy (es : List Expr) (e : Expr) : Prop := ∃ source ∈ es, e.PartOf source

theorem sharedBy_of_mem {es : List Expr} (h : e ∈ es) : SharedBy es e := ⟨e, h, .whole⟩

theorem SharedBy.argument {es : List Expr} (h : SharedBy es e) (hx : x ∈ e.args) :
    SharedBy es (.term x) := by
  obtain ⟨source, hsource, hpart⟩ := h
  exact ⟨source, hsource, hpart.argument hx⟩

/-- A comparison within given expressions binds variables to parts of them, and therefore stays
within them when it follows its own bindings. -/
theorem invariant_sharedBy (es : List Expr) :
    Invariant (fun σ => ∀ binding ∈ σ.bindings, SharedBy es binding.2)
      fun a b => SharedBy es a ∧ SharedBy es b where
  boundLeft hσ hab hv := ⟨hσ _ (Substitution.mem_bindings_of_get? hv), hab.2⟩
  boundRight hσ hab hv := ⟨hab.1, hσ _ (Substitution.mem_bindings_of_get? hv)⟩
  terms hab x hx y hy := ⟨hab.1.argument hx, hab.2.argument hy⟩
  atoms hab x hx y hy := ⟨hab.1.argument hx, hab.2.argument hy⟩
  addLeft hσ hab hfree _ := by
    intro binding hbinding
    rw [Substitution.bindings_add hfree] at hbinding
    rcases List.mem_append.mp hbinding with hold | hnew
    · exact hσ binding hold
    · exact List.mem_singleton.mp hnew ▸ hab.2
  addRight hσ hab hfree _ := by
    intro binding hbinding
    rw [Substitution.bindings_add hfree] at hbinding
    rcases List.mem_append.mp hbinding with hold | hnew
    · exact hσ binding hold
    · exact List.mem_singleton.mp hnew ▸ hab.1

theorem unify_sharedBy (h : unify a b θ = .ok σ) :
    ∀ binding ∈ σ.bindings, SharedBy (givens a b θ) binding.2 := by
  apply (invariant_sharedBy (givens a b θ)).unify _ _ h
  · exact ⟨sharedBy_of_mem (mem_givens_left a b θ), sharedBy_of_mem (mem_givens_right a b θ)⟩
  · exact fun binding hbinding => sharedBy_of_mem (mem_givens_of_mem hbinding a b)

theorem unify_extendsTo (h : unify a b θ = .ok σ) :
    θ.ExtendsTo (fun v => ∃ source ∈ givens a b θ, v ∈ source.occurrences) σ := by
  apply (invariant_extendsTo _).unify _ (.refl _ θ) h
  · intro binding hbinding w hw
    exact ⟨binding.2, mem_givens_of_mem hbinding a b, hw⟩
  · exact ⟨fun v hv => ⟨a, mem_givens_left a b θ, hv⟩, fun v hv => ⟨b, mem_givens_right a b θ, hv⟩⟩

end Unification

/-- Unification only adds bindings, and builds nothing. Its result begins with the bindings it
was given, unchanged and in order. Each further binding is of a variable that was unbound and
occurs in one of the two sides or in a value that was given, and its value stands literally in
one of these. -/
theorem unify_shares {θ σ : Substitution} {a b : Expr} (h : unify a b θ = .ok σ) :
    ∃ added, σ.bindings = θ.bindings ++ added ∧
      ∀ binding ∈ added, θ.isBound binding.1 = false ∧
        (∃ source ∈ a :: b :: θ.bindings.map Prod.snd, binding.1 ∈ source.occurrences) ∧
        ∃ source ∈ a :: b :: θ.bindings.map Prod.snd, binding.2.PartOf source := by
  obtain ⟨added, hadded, hnew⟩ := Unification.unify_extendsTo h
  refine ⟨added, hadded, fun binding hbinding => ?_⟩
  obtain ⟨hfree, hkey, -⟩ := hnew binding hbinding
  have hσ : binding ∈ σ.bindings := hadded ▸ List.mem_append_right _ hbinding
  exact ⟨by simp [Substitution.isBound, hfree], hkey, Unification.unify_sharedBy h binding hσ⟩

def crossedLeft : Expr := .term (.app ⟨6⟩ [.var ⟨3⟩, .var ⟨0⟩])

def crossedRight : Expr := .term (.app ⟨6⟩ [.var ⟨0⟩, .app ⟨5⟩ [.app ⟨8⟩ [.var ⟨4⟩]]])

/-- The first new value is one that was given, and the second stands inside the right side. -/
def crossedUnifier : Substitution :=
  (sampleBindings.add ⟨3⟩ (.term (.app ⟨5⟩ [.var ⟨1⟩]))).add ⟨1⟩ (.term (.app ⟨8⟩ [.var ⟨4⟩]))

theorem unify_shares_crossedUnifier :
    unify crossedLeft crossedRight sampleBindings = .ok crossedUnifier ∧
      ∃ added, crossedUnifier.bindings = sampleBindings.bindings ++ added ∧
        ∀ binding ∈ added, sampleBindings.isBound binding.1 = false ∧
          (∃ source ∈ crossedLeft :: crossedRight :: sampleBindings.bindings.map Prod.snd,
            binding.1 ∈ source.occurrences) ∧
          ∃ source ∈ crossedLeft :: crossedRight :: sampleBindings.bindings.map Prod.snd,
            binding.2.PartOf source := by
  have hunify : unify crossedLeft crossedRight sampleBindings = .ok crossedUnifier := by decide
  exact ⟨hunify, unify_shares hunify⟩

end HornResolution
