import HornResolution.Proofs.SolvedEquations

/-!
# Systems of equations

Several expressions are unified at once by equations between them, which are taken one after
the other. `unifyAll` equates the first expression with each of the others. One may as well
equate each expression with the one before it, and begin with any of them: the equations are
others, but they have the same solutions. Unification of a system succeeds exactly if the
system has a solution, and its bindings have exactly the solutions of the system. So neither
the choice of the equations nor their order matters.
-/

namespace HornResolution

open Unification

section Systems

variable {α : Type} {ρ : Var → Tree α} {eqs : List (Expr × Expr)} {θ σ : Substitution}

/-- Unifies the two sides of each equation, under the bindings that came of those before it. -/
def unifyEquations : List (Expr × Expr) → Substitution → Except Clash Substitution
  | [], θ => .ok θ
  | (a, b) :: eqs, θ =>
    match unify a b θ with
    | .ok θ' => unifyEquations eqs θ'
    | .error clash => .error clash

/-- Both sides of each equation have the same tree. -/
def Solves (ρ : Var → Tree α) (eqs : List (Expr × Expr)) : Prop :=
  ∀ eq ∈ eqs, eq.1.eval ρ = eq.2.eval ρ

theorem solves_cons {a b : Expr} :
    Solves ρ ((a, b) :: eqs) ↔ a.eval ρ = b.eval ρ ∧ Solves ρ eqs :=
  List.forall_mem_cons

/-- Each equation adds its condition to the bindings, up to the first that cannot be added. -/
theorem unifyEquations_answers (ρ : Var → Tree α) (eqs : List (Expr × Expr)) (θ : Substitution) :
    Answers ρ θ (Solves ρ eqs) (unifyEquations eqs θ) := by
  induction eqs generalizing θ with
  | nil => exact ⟨fun h => ⟨h, by simp [Solves]⟩, fun h => h.1⟩
  | cons eq eqs ih =>
    obtain ⟨a, b⟩ := eq
    have hfirst := unify_answers ρ a b θ
    rw [unifyEquations]
    split
    · rename_i τ hτ
      rw [hτ] at hfirst
      exact (hfirst.and (ih τ)).congr fun _ => solves_cons.symm
    · rename_i clash hclash
      rw [hclash] at hfirst
      exact hfirst.and_of_error.congr fun _ => solves_cons.symm

theorem unifyEquations_acyclic (hθ : θ.Acyclic) (h : unifyEquations eqs θ = .ok σ) :
    σ.Acyclic := by
  induction eqs generalizing θ with
  | nil => exact Except.ok.inj h ▸ hθ
  | cons eq eqs ih =>
    rw [unifyEquations] at h
    split at h
    · rename_i τ hτ
      exact ih (invariant_acyclic.unify trivial hθ hτ) h
    · simp at h

theorem unifyEquations_ne_endless (hθ : θ.Acyclic) (eqs : List (Expr × Expr)) :
    unifyEquations eqs θ ≠ .error .endless := by
  induction eqs generalizing θ with
  | nil => simp [unifyEquations]
  | cons eq eqs ih =>
    obtain ⟨a, b⟩ := eq
    rw [unifyEquations]
    split
    · rename_i τ hτ
      exact ih (invariant_acyclic.unify trivial hθ hτ)
    · rename_i clash hclash
      exact fun hend => unify_ne_endless hθ a b (hclash.trans hend)

theorem satisfies_unifyEquations (h : unifyEquations eqs .empty = .ok σ) :
    Satisfies ρ σ ↔ Solves ρ eqs := by
  have hanswer := unifyEquations_answers ρ eqs .empty
  rw [h] at hanswer
  exact Iff.trans hanswer (and_iff_right (satisfies_empty ρ))

theorem not_solves_of_error {clash : Clash} (h : unifyEquations eqs .empty = .error clash) :
    ¬ Solves ρ eqs := by
  have hanswer := unifyEquations_answers ρ eqs .empty
  rw [h] at hanswer
  have hne : clash ≠ .endless := by
    rintro rfl
    exact unifyEquations_ne_endless Substitution.acyclic_empty eqs h
  exact fun hsolves => hanswer.not_of_error hne ⟨satisfies_empty ρ, hsolves⟩

theorem exists_unifyEquations_iff :
    (∃ σ, unifyEquations eqs .empty = .ok σ) ↔ ∃ ρ : Var → Tree Var, Solves ρ eqs := by
  constructor
  · rintro ⟨σ, hσ⟩
    have hacyclic := unifyEquations_acyclic Substitution.acyclic_empty hσ
    exact ⟨σ.generic, (satisfies_unifyEquations hσ).mp hacyclic.satisfies_generic⟩
  · rintro ⟨ρ, hρ⟩
    cases h : unifyEquations eqs .empty with
    | ok σ => exact ⟨σ, rfl⟩
    | error clash => exact absurd hρ (not_solves_of_error h)

end Systems

section Simultaneous

variable {α : Type} {ρ : Var → Tree α} {first : Expr} {es es' : List Expr}

/-- All the expressions have the same tree. -/
def Unifies (ρ : Var → Tree α) (es : List Expr) : Prop :=
  ∀ x ∈ es, ∀ y ∈ es, x.eval ρ = y.eval ρ

theorem unifies_cons : Unifies ρ (first :: es) ↔ ∀ e ∈ es, first.eval ρ = e.eval ρ := by
  constructor
  · intro h e he
    exact h first (by simp) e (by simp [he])
  · intro h
    have hall : ∀ x ∈ first :: es, first.eval ρ = x.eval ρ := by simpa using h
    intro x hx y hy
    exact (hall x hx).symm.trans (hall y hy)

theorem unifies_perm (h : es.Perm es') : Unifies ρ es ↔ Unifies ρ es' := by
  simp only [Unifies, h.mem_iff]

/-- Unifies each expression with the one before it. -/
def unifySuccessive (es : List Expr) (θ : Substitution) : Except Clash Substitution :=
  unifyEquations (es.zip es.tail) θ

theorem unifyEach_eq_unifyEquations (first : Expr) (es : List Expr) (θ : Substitution) :
    unifyEach first es θ = unifyEquations (es.map (first, ·)) θ := by
  induction es generalizing θ with
  | nil => rfl
  | cons e es ih =>
    rw [unifyEach, List.map_cons, unifyEquations]
    cases unify first e θ with
    | ok τ => exact ih τ
    | error clash => rfl

theorem solves_map_first : Solves ρ (es.map (first, ·)) ↔ Unifies ρ (first :: es) := by
  rw [unifies_cons]
  exact List.forall_mem_map

theorem solves_zip_tail : Solves ρ (es.zip es.tail) ↔ Unifies ρ es := by
  induction es with
  | nil => simp [Solves, Unifies]
  | cons x es ih =>
    cases es with
    | nil => simp [Solves, Unifies]
    | cons y es =>
      have hstep : Solves ρ ((x :: y :: es).zip (x :: y :: es).tail) ↔
          x.eval ρ = y.eval ρ ∧ Unifies ρ (y :: es) := solves_cons.trans (and_congr_right' ih)
      rw [hstep, unifies_cons, unifies_cons, List.forall_mem_cons]
      apply and_congr_right
      intro hxy
      rw [hxy]

/-- `unifyAll` finds the simultaneous most general unifier. Its bindings hold of exactly those
valuations that give all the expressions the same tree, and it fails only if there are none. It
succeeds exactly if unifying each expression with the one before it does, in whatever order the
expressions are listed, and then both results hold of the same valuations. -/
theorem unifyAll_simultaneous {α : Type} (first second : Expr) (rest : List Expr) :
    (∀ σ, unifyAll first second rest = .ok σ → ∀ ρ : Var → Tree α,
      Satisfies ρ σ ↔ Unifies ρ (first :: second :: rest)) ∧
    (∀ clash, unifyAll first second rest = .error clash → ∀ ρ : Var → Tree α,
      ¬ Unifies ρ (first :: second :: rest)) ∧
    ∀ es, es.Perm (first :: second :: rest) →
      ((∃ σ, unifyAll first second rest = .ok σ) ↔ ∃ τ, unifySuccessive es .empty = .ok τ) ∧
      ∀ σ τ, unifyAll first second rest = .ok σ → unifySuccessive es .empty = .ok τ →
        ∀ ρ : Var → Tree α, Satisfies ρ σ ↔ Satisfies ρ τ := by
  have hall : unifyAll first second rest =
      unifyEquations ((second :: rest).map (first, ·)) .empty :=
    unifyEach_eq_unifyEquations first (second :: rest) .empty
  rw [hall]
  refine ⟨fun σ hσ ρ => ?_, fun clash hclash ρ => ?_, fun es hes => ⟨?_, fun σ τ hσ hτ ρ => ?_⟩⟩
  · rw [satisfies_unifyEquations hσ, solves_map_first]
  · rw [← solves_map_first]
    exact not_solves_of_error hclash
  · rw [unifySuccessive, exists_unifyEquations_iff, exists_unifyEquations_iff]
    simp only [solves_map_first, solves_zip_tail, unifies_perm hes]
  · rw [satisfies_unifyEquations hσ, solves_map_first, ← unifies_perm hes, ← solves_zip_tail,
      ← satisfies_unifyEquations hτ]

/-- Two variables and two atoms, of which the second gives the variable in the first a value. -/
def mixedSorts : List Expr :=
  [.term (.var ⟨0⟩), .term (.var ⟨1⟩), .atom ⟨⟨7⟩, [.var ⟨2⟩]⟩, .atom ⟨⟨7⟩, [.const ⟨5⟩]⟩]

def mixedUnifier : Substitution where
  bindings := [(⟨0⟩, .term (.var ⟨1⟩)), (⟨1⟩, .atom ⟨⟨7⟩, [.var ⟨2⟩]⟩), (⟨2⟩, .term (.const ⟨5⟩))]

/-- The other order gives other bindings of the same variables. An atom and a constant of one
symbol are not unified, although a variable is unified with either of them. -/
theorem unifyAll_simultaneous_mixedSorts :
    (∀ ρ : Var → Tree Empty, Satisfies ρ mixedUnifier ↔ Unifies ρ mixedSorts) ∧
      (∀ ρ : Var → Tree Empty,
        ¬ Unifies ρ [.term (.var ⟨0⟩), .atom ⟨⟨7⟩, []⟩, .term (.const ⟨7⟩)]) ∧
      ∀ ρ : Var → Tree Empty, Satisfies ρ mixedUnifier ↔
        Satisfies ρ { bindings := [(⟨2⟩, .term (.const ⟨5⟩)), (⟨1⟩, .atom ⟨⟨7⟩, [.var ⟨2⟩]⟩),
          (⟨0⟩, .atom ⟨⟨7⟩, [.var ⟨2⟩]⟩)] } := by
  have hall := unifyAll_simultaneous (α := Empty) (.term (.var ⟨0⟩)) (.term (.var ⟨1⟩))
    [.atom ⟨⟨7⟩, [.var ⟨2⟩]⟩, .atom ⟨⟨7⟩, [.const ⟨5⟩]⟩]
  refine ⟨hall.1 mixedUnifier (by decide), ?_, ?_⟩
  · exact (unifyAll_simultaneous (.term (.var ⟨0⟩)) (.atom ⟨⟨7⟩, []⟩) [.term (.const ⟨7⟩)]).2.1
      .kinds (by decide)
  · exact (hall.2.2 mixedSorts.reverse (List.reverse_perm mixedSorts)).2 mixedUnifier _ (by decide)
      (by decide)

end Simultaneous

end HornResolution
