import HornResolution.Proofs.HeadForms

/-!
# Classes of variables

The variables that are bound to one another form a class, whose root is the variable at the
end of the chain. The root is unbound, or it is bound to the value of the whole class. Two
substitutions are alike if they have the same classes and each class has the same value
under both; then they differ in the roots only, and every expression has the same head form
under both, up to the root.
-/

namespace HornResolution

open Unification

namespace Substitution

section Roots

/-- The variable that a variable is bound to. -/
def alias? (θ : Substitution) (v : Var) : Option Var := (θ.get? v).bind Expr.asVar?

def rootWithin (θ : Substitution) : (links : ℕ) → Var → Var
  | 0, v => v
  | links + 1, v =>
    match θ.alias? v with
    | some w => θ.rootWithin links w
    | none => v

/-- The last variable on the chain of a variable: it is unbound, or bound to more than a
variable. -/
def root (θ : Substitution) (v : Var) : Var := θ.rootWithin θ.length v

variable {θ : Substitution} {v w : Var} {e : Expr}

theorem alias?_eq_some : θ.alias? v = some w ↔ θ.get? v = some (.term (.var w)) := by
  unfold alias?
  constructor
  · intro h
    obtain ⟨e, he, hw⟩ := Option.bind_eq_some_iff.mp h
    rcases e with (u | ⟨f, xs⟩) | p
    · obtain rfl : u = w := by simpa [Expr.asVar?, Term.asVar?] using hw
      exact he
    · simp [Expr.asVar?, Term.asVar?] at hw
    · simp [Expr.asVar?] at hw
  · intro h
    rw [h]
    rfl

theorem alias?_of_free (h : θ.get? v = none) : θ.alias? v = none := by
  rw [alias?, h, Option.bind_none]

theorem alias?_of_value (h : θ.get? v = some e) : θ.alias? v = e.asVar? := by
  rw [alias?, h, Option.bind_some]

theorem leads_of_alias? (h : θ.alias? v = some w) : θ.Leads v w :=
  ⟨_, alias?_eq_some.mp h, by simp [Expr.occurrences]⟩

theorem Acyclic.aliasInduction (hθ : θ.Acyclic) {motive : Var → Prop}
    (last : ∀ v, θ.alias? v = none → motive v)
    (link : ∀ v w, θ.alias? v = some w → motive w → motive v) (v : Var) : motive v := by
  induction v using hθ.wellFounded.induction with
  | h v ih =>
    cases hv : θ.alias? v with
    | none => exact last v hv
    | some w => exact link v w hv (ih w (leads_of_alias? hv))

theorem rootWithin_of_last (h : θ.alias? v = none) (links : ℕ) : θ.rootWithin links v = v := by
  cases links with
  | zero => rfl
  | succ links => rw [rootWithin, h]

theorem Acyclic.rootWithin_eq (hθ : θ.Acyclic) (v : Var) {m n : ℕ} (hm : θ.rank v ≤ m)
    (hn : θ.rank v ≤ n) : θ.rootWithin m v = θ.rootWithin n v := by
  induction v using hθ.aliasInduction generalizing m n with
  | last v hv => rw [rootWithin_of_last hv, rootWithin_of_last hv]
  | link v w hv ih =>
    have hlt := hθ.rank_lt (leads_of_alias? hv)
    obtain ⟨m, rfl⟩ : ∃ k, m = k + 1 := ⟨m - 1, by omega⟩
    obtain ⟨n, rfl⟩ : ∃ k, n = k + 1 := ⟨n - 1, by omega⟩
    rw [rootWithin, rootWithin, hv]
    exact ih (by omega) (by omega)

theorem root_of_last (h : θ.alias? v = none) : θ.root v = v := rootWithin_of_last h _

theorem Acyclic.root_of_alias (hθ : θ.Acyclic) (h : θ.alias? v = some w) :
    θ.root v = θ.root w := by
  have hle := θ.rank_le_length v
  calc
    θ.root v = θ.rootWithin (θ.length + 1) v := hθ.rootWithin_eq v hle (by omega)
    _ = θ.root w := by rw [rootWithin, h]; rfl

theorem Acyclic.alias?_root (hθ : θ.Acyclic) (v : Var) : θ.alias? (θ.root v) = none := by
  induction v using hθ.aliasInduction with
  | last v hv => rwa [root_of_last hv]
  | link v w hv ih => rwa [hθ.root_of_alias hv]

theorem Acyclic.root_root (hθ : θ.Acyclic) (v : Var) : θ.root (θ.root v) = θ.root v :=
  root_of_last (hθ.alias?_root v)

/-- The head form of a variable is the value of its root, or the root itself. -/
theorem Acyclic.walk_var (hθ : θ.Acyclic) (v : Var) :
    θ.walk (.term (.var v)) = (θ.get? (θ.root v)).getD (.term (.var (θ.root v))) := by
  induction v using hθ.aliasInduction with
  | last v hv =>
    rw [root_of_last hv]
    cases he : θ.get? v with
    | none => exact walk_of_free he
    | some e =>
      rw [alias?_of_value he] at hv
      rw [hθ.walk_of_bound he, walk_of_free (bound?_of_asVar? θ hv), Option.getD_some]
  | link v w hv ih => rw [hθ.walk_of_bound (alias?_eq_some.mp hv), ih, hθ.root_of_alias hv]

theorem Acyclic.resolved_root (hθ : θ.Acyclic) (v : Var) :
    θ.resolved (θ.root v) = θ.resolved v := by
  induction v using hθ.aliasInduction with
  | last v hv => rw [root_of_last hv]
  | link v w hv ih =>
    rw [hθ.root_of_alias hv, ih, hθ.resolved_of_term (alias?_eq_some.mp hv), Term.bind_var]

theorem Acyclic.leads_root (hθ : θ.Acyclic) (v : Var) :
    Relation.ReflTransGen θ.Leads v (θ.root v) := by
  induction v using hθ.aliasInduction with
  | last v hv => rw [root_of_last hv]
  | link v w hv ih =>
    rw [hθ.root_of_alias hv]
    exact .head (leads_of_alias? hv) ih

theorem Acyclic.root_leads (hθ : θ.Acyclic) {x : Var} (hx : θ.get? x = none)
    (h : Relation.ReflTransGen θ.Leads v x) : Relation.ReflTransGen θ.Leads (θ.root v) x := by
  induction v using hθ.aliasInduction with
  | last v hv => rwa [root_of_last hv]
  | link v w hv ih =>
    rw [hθ.root_of_alias hv]
    apply ih
    rw [alias?_eq_some] at hv
    rcases h.cases_head with rfl | ⟨u, ⟨e, he, hu⟩, hux⟩
    · rw [hx] at hv
      simp at hv
    · obtain rfl := Option.some.inj (hv.symm.trans he)
      obtain rfl : u = w := by simpa [Expr.occurrences] using hu
      exact hux

end Roots

section Binding

variable {θ : Substitution} {x y v : Var} {e : Expr}

theorem alias?_add_of_ne (h : v ≠ x) : (θ.add x e).alias? v = θ.alias? v := by
  rw [alias?, get?_add_of_ne h, alias?]

theorem Acyclic.root_add_of_ne (hθ : θ.Acyclic) (hx : θ.get? x = none)
    (hadd : (θ.add x e).Acyclic) (h : θ.root v ≠ x) : (θ.add x e).root v = θ.root v := by
  induction v using hθ.aliasInduction with
  | last v hv =>
    rw [root_of_last hv] at h ⊢
    rw [root_of_last]
    rwa [alias?_add_of_ne h]
  | link v w hv ih =>
    have hne : v ≠ x := by
      rintro rfl
      simp [alias?_of_free hx] at hv
    rw [hθ.root_of_alias hv] at h ⊢
    rw [← ih h]
    exact hadd.root_of_alias (by rwa [alias?_add_of_ne hne])

theorem Acyclic.root_add_of_eq (hθ : θ.Acyclic) (hx : θ.get? x = none)
    (hadd : (θ.add x e).Acyclic) (h : θ.root v = x) :
    (θ.add x e).root v = (θ.add x e).root x := by
  induction v using hθ.aliasInduction with
  | last v hv =>
    rw [root_of_last hv] at h
    rw [h]
  | link v w hv ih =>
    have hne : v ≠ x := by
      rintro rfl
      simp [alias?_of_free hx] at hv
    rw [hθ.root_of_alias hv] at h
    rw [← ih h]
    exact hadd.root_of_alias (by rwa [alias?_add_of_ne hne])

theorem Acyclic.root_add_value (hθ : θ.Acyclic) (hx : θ.get? x = none)
    (hadd : (θ.add x e).Acyclic) (he : e.asVar? = none) (v : Var) :
    (θ.add x e).root v = θ.root v := by
  by_cases h : θ.root v = x
  · have hlast : (θ.add x e).alias? x = none := by rw [alias?_of_value (get?_add_self hx), he]
    rw [hθ.root_add_of_eq hx hadd h, root_of_last hlast, h]
  · exact hθ.root_add_of_ne hx hadd h

theorem Acyclic.root_add_alias (hθ : θ.Acyclic) (hx : θ.get? x = none) (hy : θ.get? y = none)
    (hxy : x ≠ y) (hadd : (θ.add x (.term (.var y))).Acyclic) (v : Var) :
    (θ.add x (.term (.var y))).root v = if θ.root v = x then y else θ.root v := by
  by_cases h : θ.root v = x
  · have hyroot : θ.root y = y := root_of_last (alias?_of_free hy)
    have halias : (θ.add x (.term (.var y))).alias? x = some y :=
      alias?_eq_some.mpr (get?_add_self hx)
    rw [if_pos h, hθ.root_add_of_eq hx hadd h, hadd.root_of_alias halias,
      hθ.root_add_of_ne hx hadd (by rw [hyroot]; exact hxy.symm), hyroot]
  · rw [if_neg h]
    exact hθ.root_add_of_ne hx hadd h

theorem Acyclic.get?_root_add_alias (hθ : θ.Acyclic) (hx : θ.get? x = none)
    (hy : θ.get? y = none) (hxy : x ≠ y) (hadd : (θ.add x (.term (.var y))).Acyclic) (v : Var) :
    (θ.add x (.term (.var y))).get? ((θ.add x (.term (.var y))).root v) = θ.get? (θ.root v) := by
  rw [hθ.root_add_alias hx hy hxy hadd]
  split_ifs with hv
  · rw [get?_add_of_ne hxy.symm, hy, hv, hx]
  · rw [get?_add_of_ne hv]

end Binding

/-- Two substitutions with the same classes of variables and the same value for each class. -/
structure Alike (σ τ : Substitution) : Prop where
  acyclic : σ.Acyclic
  acyclic' : τ.Acyclic
  length : σ.length = τ.length
  root : ∀ v w, σ.root v = σ.root w ↔ τ.root v = τ.root w
  value : ∀ v, σ.get? (σ.root v) = τ.get? (τ.root v)

/-- The head forms of one expression under two substitutions: the roots of one class, or the
same expression. -/
inductive Heads (σ τ : Substitution) : Expr → Expr → Prop
  | free {v : Var} (hσ : σ.get? (σ.root v) = none) (hτ : τ.get? (τ.root v) = none) :
      Heads σ τ (.term (.var (σ.root v))) (.term (.var (τ.root v)))
  | same {e : Expr} (he : e.asVar? = none) : Heads σ τ e e

namespace Alike

variable {σ τ : Substitution} {u v w : Var} {e : Expr}

theorem refl (hσ : σ.Acyclic) : Alike σ σ := ⟨hσ, hσ, rfl, fun _ _ => Iff.rfl, fun _ => rfl⟩

theorem symm (h : Alike σ τ) : Alike τ σ :=
  ⟨h.acyclic', h.acyclic, h.length.symm, fun v w => (h.root v w).symm, fun v => (h.value v).symm⟩

theorem root_root' (h : Alike σ τ) (v : Var) : σ.root (τ.root v) = σ.root v :=
  (h.root _ _).mpr (h.acyclic'.root_root v)

theorem heads (h : Alike σ τ) (e : Expr) : Heads σ τ (σ.walk e) (τ.walk e) := by
  cases he : e.asVar? with
  | none =>
    rw [walk_of_free (bound?_of_asVar? σ he), walk_of_free (bound?_of_asVar? τ he)]
    exact .same he
  | some v =>
    obtain rfl : e = .term (.var v) := by
      rcases e with (w | ⟨f, xs⟩) | p <;> simp_all [Expr.asVar?, Term.asVar?]
    have hvalue := h.value v
    rw [h.acyclic.walk_var, h.acyclic'.walk_var, ← hvalue]
    cases hget : σ.get? (σ.root v) with
    | none => exact .free hget (hvalue ▸ hget)
    | some e =>
      have hroot := h.acyclic.alias?_root v
      rw [alias?_of_value hget] at hroot
      exact .same hroot

theorem walk_value (h : Alike σ τ) (hv : σ.get? v = some e) :
    τ.walk (.term (.var v)) = τ.walk e := by
  cases he : σ.alias? v with
  | none =>
    have hvalue := h.value v
    rw [root_of_last he, hv] at hvalue
    rw [alias?_of_value hv] at he
    rw [h.acyclic'.walk_var, ← hvalue, Option.getD_some, walk_of_free (bound?_of_asVar? τ he)]
  | some w =>
    obtain rfl := Option.some.inj (hv.symm.trans (alias?_eq_some.mp he))
    have hroot : τ.root v = τ.root w := (h.root v w).mp (h.acyclic.root_of_alias he)
    rw [h.acyclic'.walk_var, h.acyclic'.walk_var, hroot]

/-- A path to the root of a class under the one substitution gives one to its root under the
other. -/
theorem leads (h : Alike σ τ) (hu : τ.get? (τ.root u) = none)
    (hpath : Relation.ReflTransGen σ.Leads v (σ.root u)) :
    Relation.ReflTransGen τ.Leads v (τ.root u) := by
  induction hpath using Relation.ReflTransGen.head_induction_on with
  | refl =>
    rw [← h.symm.root_root' u]
    exact h.acyclic'.leads_root _
  | @head v w hvw _ ih =>
    obtain ⟨e, he, hw⟩ := hvw
    apply (h.acyclic'.leads_root v).trans
    cases halias : σ.alias? v with
    | none =>
      have hvalue := h.value v
      rw [root_of_last halias, he] at hvalue
      exact .head ⟨e, hvalue.symm, hw⟩ ih
    | some w' =>
      obtain rfl := Option.some.inj (he.symm.trans (alias?_eq_some.mp halias))
      obtain rfl : w = w' := by simpa [Expr.occurrences] using hw
      rw [(h.root v w).mp (h.acyclic.root_of_alias halias)]
      exact h.acyclic'.root_leads hu ih

theorem occursIn_eq (h : Alike σ τ) (hσ : σ.get? (σ.root u) = none)
    (hτ : τ.get? (τ.root u) = none) (e : Expr) :
    σ.occursIn (σ.root u) e = τ.occursIn (τ.root u) e := by
  rw [Bool.eq_iff_iff, h.acyclic.occursIn_iff, h.acyclic'.occursIn_iff]
  constructor
  · rintro ⟨v, hv, hpath⟩
    exact ⟨v, hv, h.leads hτ hpath⟩
  · rintro ⟨v, hv, hpath⟩
    exact ⟨v, hv, h.symm.leads hσ hpath⟩

theorem add_value (h : Alike σ τ) (hσ : σ.get? (σ.root u) = none)
    (hτ : τ.get? (τ.root u) = none) (he : e.asVar? = none)
    (hocc : σ.occursIn (σ.root u) e = false) :
    Alike (σ.add (σ.root u) e) (τ.add (τ.root u) e) := by
  have hσ' := h.acyclic.add hocc
  have hτ' := h.acyclic'.add (h.occursIn_eq hσ hτ e ▸ hocc)
  have hroot := h.acyclic.root_add_value hσ hσ' he
  have hroot' := h.acyclic'.root_add_value hτ hτ' he
  constructor
  · exact hσ'
  · exact hτ'
  · rw [length_add hσ, length_add hτ, h.length]
  · intro v w
    rw [hroot, hroot, hroot', hroot', h.root]
  · intro v
    rw [hroot, hroot', get?_add, get?_add, h.value, if_congr (h.root v u) rfl rfl]

theorem add_alias (h : Alike σ τ) (hσu : σ.get? (σ.root u) = none)
    (hτu : τ.get? (τ.root u) = none) (hσw : σ.get? (σ.root w) = none)
    (hτw : τ.get? (τ.root w) = none) (hne : σ.root u ≠ σ.root w)
    (hσ' : (σ.add (σ.root u) (.term (.var (σ.root w)))).Acyclic)
    (hτ' : (τ.add (τ.root w) (.term (.var (τ.root u)))).Acyclic) :
    Alike (σ.add (σ.root u) (.term (.var (σ.root w))))
      (τ.add (τ.root w) (.term (.var (τ.root u)))) := by
  have hne' : τ.root w ≠ τ.root u := fun heq => hne ((h.root u w).mpr heq.symm)
  have hroot := h.acyclic.root_add_alias hσu hσw hne hσ'
  have hroot' := h.acyclic'.root_add_alias hτw hτu hne' hτ'
  constructor
  · exact hσ'
  · exact hτ'
  · rw [length_add hσu, length_add hτw, h.length]
  · intro v z
    have hvz := h.root v z
    have hvu := h.root v u
    have hvw := h.root v w
    have hzu := h.root z u
    have hzw := h.root z w
    rw [hroot, hroot, hroot', hroot']
    grind
  · intro v
    rw [h.acyclic.get?_root_add_alias hσu hσw hne hσ',
      h.acyclic'.get?_root_add_alias hτw hτu hne' hτ', h.value]

end Alike

end Substitution

end HornResolution
