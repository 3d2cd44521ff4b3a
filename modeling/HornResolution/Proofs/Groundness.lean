import HornResolution.Proofs.Absorption
import HornResolution.Proofs.ExtensionOrder

/-!
# Ground substitutions

A substitution is closed if no bound variable leads to an unbound one, by however many links. The
test for groundness does not follow links, it resolves the values and looks for variables in the
results. The two differ on a variable that leads to an atom and stands inside a value: there it is
kept, although nothing about it is open. Where such variables stand alone only, as bare values, a
substitution is ground exactly if it is closed; where one stands inside a value, the substitution is
never taken to be ground.
-/

namespace HornResolution

open Unification

namespace Substitution

variable {θ : Substitution} {v w u : Var} {e : Expr} {a : Atom}

/-- No bound variable leads to an unbound one. -/
def Closed (θ : Substitution) : Prop :=
  ∀ v u, Relation.TransGen θ.Leads v u → θ.isBound u = true

/-- A variable that leads to an atom stands alone, and not inside a value. -/
def AtomsBare (θ : Substitution) : Prop :=
  ∀ v e, θ.get? v = some e → e.asVar? = none →
    ∀ w ∈ e.occurrences, ∀ a, θ.walk (.term (.var w)) ≠ .atom a

theorem isGround_iff :
    θ.isGround = true ↔ ∀ v e, θ.get? v = some e → (e.apply θ).occurrences = [] := by
  simp only [isGround, List.all_eq_true, List.isEmpty_iff]
  constructor
  · intro h v e he
    exact h (v, e) (mem_bindings_of_get? he)
  · intro h b hb
    exact h b.1 b.2 (get?_eq_some_iff.mpr hb)

section Leading

theorem Acyclic.closed_iff (hθ : θ.Acyclic) :
    θ.Closed ↔ ∀ v e u, θ.get? v = some e → θ.get? u = none → θ.occursIn u e = false := by
  constructor
  · intro h v e u he hu
    rw [Bool.eq_false_iff]
    intro hocc
    obtain ⟨w, hw, hpath⟩ := hθ.occursIn_iff.mp hocc
    have hbound := h v u (.head' ⟨e, he, hw⟩ hpath)
    simp [isBound, hu] at hbound
  · intro h v u hpath
    rw [← Bool.not_eq_false, isBound_eq_false_iff]
    intro hu
    obtain ⟨w, ⟨e, he, hw⟩, hrest⟩ := Relation.TransGen.head'_iff.mp hpath
    have hocc := h v e u he hu
    rw [hθ.occursIn_iff.mpr ⟨w, hw, hrest⟩] at hocc
    simp at hocc

/-- Inside a term, a variable that leads to an atom is resolved to the last variable before it. -/
theorem Acyclic.resolved_of_walk (hθ : θ.Acyclic) (h : θ.walk (.term (.var w)) = .atom a) :
    ∃ u, θ.resolved w = .var u := by
  induction w using hθ.wellFounded.induction with
  | h w ih =>
    rcases hw : θ.get? w with - | (t | p)
    · have hfree : bound? θ (.term (.var w)) = none := hw
      rw [walk_of_free hfree] at h
      simp at h
    · rw [hθ.walk_of_bound hw] at h
      cases t with
      | var x =>
        obtain ⟨u, hu⟩ := ih x ⟨_, hw, by simp [Expr.occurrences]⟩ h
        exact ⟨u, by rw [hθ.resolved_of_term hw, Term.bind_var, hu]⟩
      | app f xs =>
        rw [walk_of_free rfl] at h
        simp at h
    · exact ⟨w, resolved_of_atom hw⟩

theorem mem_apply_of_free (hu : u ∈ e.occurrences) (hfree : θ.get? u = none) :
    u ∈ (e.apply θ).occurrences := by
  have he : bound? θ e = none := by
    cases hvar : e.asVar? with
    | none => exact bound?_of_asVar? θ hvar
    | some w =>
      obtain rfl := eq_var_of_asVar? hvar
      obtain rfl : u = w := by simpa [Expr.occurrences] using hu
      exact hfree
  rw [apply_of_free he, Expr.mem_occurrences_bind]
  exact ⟨u, hu, by simp [resolved_of_free hfree]⟩

end Leading

section Ground

theorem closed_of_isGround (h : θ.isGround = true) : θ.Closed := by
  rw [isGround_iff] at h
  intro v u hpath
  rw [← Bool.not_eq_false, isBound_eq_false_iff]
  intro hfree
  obtain ⟨w, -, ⟨e, he, hu⟩⟩ := Relation.TransGen.tail'_iff.mp hpath
  have hleft := mem_apply_of_free hu hfree
  rw [h w e he] at hleft
  simp at hleft

theorem Acyclic.atomsBare_of_isGround (hθ : θ.Acyclic) (h : θ.isGround = true) :
    θ.AtomsBare := by
  rw [isGround_iff] at h
  intro v e he hvar w hw a hwalk
  obtain ⟨u, hu⟩ := hθ.resolved_of_walk hwalk
  have hleft : u ∈ (e.apply θ).occurrences := by
    rw [apply_of_free (bound?_of_asVar? θ hvar), Expr.mem_occurrences_bind]
    exact ⟨w, hw, by simp [hu]⟩
  rw [h v e he] at hleft
  simp at hleft

theorem Acyclic.resolved_ground (hθ : θ.Acyclic) (hclosed : θ.Closed) (hbare : θ.AtomsBare)
    (hbound : θ.isBound w = true) (hwalk : ∀ a, θ.walk (.term (.var w)) ≠ .atom a) :
    (θ.resolved w).occurrences = [] := by
  induction w using hθ.wellFounded.induction with
  | h w ih =>
    rcases hw : θ.get? w with - | (t | p)
    · simp [isBound, hw] at hbound
    · rw [hθ.resolved_of_term hw, List.eq_nil_iff_forall_not_mem]
      intro u hu
      obtain ⟨x, hx, hux⟩ := Term.mem_occurrences_bind.mp hu
      have hlink : θ.Leads w x := ⟨_, hw, hx⟩
      have hxwalk : ∀ a, θ.walk (.term (.var x)) ≠ .atom a := by
        cases t with
        | var y =>
          obtain rfl : x = y := by simpa using hx
          rwa [hθ.walk_of_bound hw] at hwalk
        | app f xs => exact hbare w _ hw rfl x hx
      rw [ih x hlink (hclosed w x (.single hlink)) hxwalk] at hux
      simp at hux
    · rw [hθ.walk_of_bound hw, walk_of_free rfl] at hwalk
      exact absurd rfl (hwalk p)

theorem Acyclic.isGround_of_closed (hθ : θ.Acyclic) (hclosed : θ.Closed)
    (hbare : θ.AtomsBare) : θ.isGround = true := by
  rw [isGround_iff]
  intro v e he
  induction e using hθ.chainInduction generalizing v with
  | free e hfree =>
    rw [apply_of_free hfree, List.eq_nil_iff_forall_not_mem]
    intro u hu
    obtain ⟨w, hw, huw⟩ := Expr.mem_occurrences_bind.mp hu
    have hbound : θ.isBound w = true := hclosed v w (.single ⟨e, he, hw⟩)
    have hvar : e.asVar? = none := by
      rw [Option.eq_none_iff_forall_ne_some]
      intro x hx
      obtain rfl := eq_var_of_asVar? hx
      obtain rfl : w = x := by simpa [Expr.occurrences] using hw
      rw [bound?_var] at hfree
      simp [isBound, hfree] at hbound
    rw [hθ.resolved_ground hclosed hbare hbound (hbare v e he hvar w hw)] at huw
    simp at huw
  | bound w e hw ih => rw [hθ.apply_of_bound hw, ih w hw]

end Ground

end Substitution

open Substitution

/-- What the test for groundness decides. A substitution that was obtained through the library is
taken to be ground exactly if it is closed, that is, the occurs check finds no unbound variable in
any of its values, and if moreover no variable that leads to an atom stands inside a value. -/
theorem isGround_iff_closed {θ : Substitution} (h : Obtainable (.substitution θ)) :
    (θ.isGround = true ↔ θ.Closed ∧ θ.AtomsBare) ∧
      (θ.Closed ↔ ∀ v e u, θ.get? v = some e → θ.get? u = none → θ.occursIn u e = false) := by
  have hθ : θ.Acyclic := h.acyclic
  refine ⟨⟨fun hground => ?_, fun hclosed => ?_⟩, hθ.closed_iff⟩
  · exact ⟨closed_of_isGround hground, hθ.atomsBare_of_isGround hground⟩
  · exact hθ.isGround_of_closed hclosed.1 hclosed.2

/-- A chain that ends at an atom, and a value with a chain inside it that ends at a constant. -/
def groundBindings : Substitution :=
  (((Substitution.empty.add ⟨1⟩ (.atom ⟨⟨7⟩, [.const ⟨6⟩]⟩)).add ⟨2⟩ (.term (.var ⟨1⟩))).add ⟨0⟩
    (.term (.app ⟨5⟩ [.var ⟨3⟩]))).add ⟨3⟩ (.term (.const ⟨6⟩))

theorem isGround_iff_closed_groundBindings :
    groundBindings.isGround = true ∧ groundBindings.Closed ∧ groundBindings.AtomsBare := by
  have hobtained : Obtainable (.substitution groundBindings) :=
    .extend (.extend (.extend (.extend .empty (v := ⟨1⟩) (e := .atom ⟨⟨7⟩, [.const ⟨6⟩]⟩) rfl)
      (v := ⟨2⟩) (e := .term (.var ⟨1⟩)) rfl) (v := ⟨0⟩) (e := .term (.app ⟨5⟩ [.var ⟨3⟩])) rfl)
      (v := ⟨3⟩) (e := .term (.const ⟨6⟩)) rfl
  have hground : groundBindings.isGround = true := by decide
  exact ⟨hground, (isGround_iff_closed hobtained).1.mp hground⟩

/-- A variable bound to an atom without arguments, inside the value of another. -/
def nestedAtom : Substitution :=
  (Substitution.empty.add ⟨1⟩ (.atom ⟨⟨7⟩, []⟩)).add ⟨0⟩ (.term (.app ⟨5⟩ [.var ⟨1⟩]))

/-- No unbound variable is in any value, and still the substitution is not taken to be ground. -/
theorem isGround_rejects_nestedAtom :
    Obtainable (.substitution nestedAtom) ∧
      (∀ v e u, nestedAtom.get? v = some e → nestedAtom.get? u = none →
        nestedAtom.occursIn u e = false) ∧
      nestedAtom.isGround = false := by
  refine ⟨?_, fun v e u he hu => ?_, by decide⟩
  · exact .extend (.extend .empty (v := ⟨1⟩) (e := .atom ⟨⟨7⟩, []⟩) rfl) (v := ⟨0⟩)
      (e := .term (.app ⟨5⟩ [.var ⟨1⟩])) rfl
  · have hne : ⟨1⟩ ≠ u := by
      rintro rfl
      exact absurd hu (by decide)
    have hvalue : e = .atom ⟨⟨7⟩, []⟩ ∨ e = .term (.app ⟨5⟩ [.var ⟨1⟩]) := by
      have hmem : e ∈ [.atom ⟨⟨7⟩, []⟩, .term (.app ⟨5⟩ [.var ⟨1⟩])] :=
        List.mem_map_of_mem (f := Prod.snd) (mem_bindings_of_get? he)
      simpa using hmem
    rcases hvalue with rfl | rfl
    · rfl
    · have hlength : nestedAtom.length = 1 + 1 := rfl
      have hinner : nestedAtom.get? ⟨1⟩ = some (.atom ⟨⟨7⟩, []⟩) := rfl
      simp [occursIn, Expr.occurrences, hlength, reaches, hinner, hne, Atom.occurrences]

end HornResolution
