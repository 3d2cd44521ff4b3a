import HornResolution.Proofs.EagerSubstitution

/-!
# Mutual instances

Two families of terms, each of which is an instance of the other, differ only in the names of
their variables. Solutions that permit the same values for the variables of a formula are such
families: each one says of these variables all that the other says. The renaming between them is
found where it matters and extended to a bijection of all variables.
-/

namespace HornResolution

section Terms

variable {ρ τ : Var → Term} {s t : Term} {v : Var}

theorem Term.eq_of_bind_eq (h : t.bind ρ = t.bind τ) (hv : v ∈ t.occurrences) : ρ v = τ v := by
  induction t using Term.induction with
  | var w =>
    obtain rfl : v = w := by simpa using hv
    exact h
  | app f args ih =>
    obtain ⟨t, ht, hv⟩ := List.mem_flatMap.mp (by rwa [Term.occurrences_app] at hv)
    rw [Term.bind_app, Term.bind_app, Term.app.injEq] at h
    exact ih t ht (List.map_inj_left.mp h.2 t ht) hv

theorem Term.eq_var_of_bind_eq (h : t.bind ρ = .var v) : ∃ w, t = .var w ∧ ρ w = .var v := by
  cases t with
  | var w => exact ⟨w, rfl, h⟩
  | app f args => simp at h

/-- If one term is the instance of another and the other way round, the variables are replaced
by variables that are replaced back. -/
theorem exists_var_of_mutual (h : t = s.bind ρ) (h' : s = t.bind τ) (hv : v ∈ s.occurrences) :
    ∃ w, ρ v = .var w ∧ τ w = .var v := by
  have hself : (s.bind ρ).bind τ = s.bind (relabelling id) := by
    rw [← h, ← h', Term.bind_relabelling_id]
  rw [Term.bind_bind] at hself
  exact Term.eq_var_of_bind_eq (Term.eq_of_bind_eq hself hv)

end Terms

section Renamings

theorem exists_perm_of_injOn {f : Var → Var} {vs : Finset Var} (hf : Set.InjOn f vs) :
    ∃ π : Equiv.Perm Var, ∀ v ∈ vs, π v = f v := by
  let all : Finset Var := vs ∪ vs.image f
  have hvs : ∀ v ∈ vs, v ∈ all := fun v hv => Finset.mem_union_left _ hv
  let inner : Finset all := Finset.univ.filter fun v => v.1 ∈ vs
  have himage : inner.image (fun v => f v.1) ⊆ all := by
    intro w hw
    obtain ⟨v, hv, rfl⟩ := Finset.mem_image.mp hw
    exact Finset.mem_union_right _ (Finset.mem_image_of_mem f (Finset.mem_filter.mp hv).2)
  have hinj : Set.InjOn (fun v : all => f v.1) inner := by
    intro v hv w hw h
    exact Subtype.ext (hf (Finset.mem_filter.mp hv).2 (Finset.mem_filter.mp hw).2 h)
  obtain ⟨g, hg⟩ := Finset.exists_equiv_extend_of_card_eq (by simp) himage hinj
  refine ⟨Equiv.Perm.ofSubtype g, fun v hv => ?_⟩
  have hinner : (⟨v, hvs v hv⟩ : all) ∈ inner :=
    Finset.mem_filter.mpr ⟨Finset.mem_univ _, hv⟩
  rw [Equiv.Perm.ofSubtype_apply_of_mem g (hvs v hv)]
  exact hg _ hinner

theorem exists_renaming_of_mutual {vs : List Var} {s t ρ τ : Var → Term}
    (h : ∀ v ∈ vs, t v = (s v).bind ρ) (h' : ∀ v ∈ vs, s v = (t v).bind τ) :
    ∃ π : Equiv.Perm Var, ∀ v ∈ vs, t v = (s v).bind (relabelling π) := by
  let used : Finset Var := (vs.flatMap fun v => (s v).occurrences).toFinset
  have hback : ∀ v, ∃ w, v ∈ used → ρ v = .var w ∧ τ w = .var v := by
    intro v
    by_cases hv : v ∈ used
    · obtain ⟨u, hu, hv⟩ := List.mem_flatMap.mp (List.mem_toFinset.mp hv)
      obtain ⟨w, hw⟩ := exists_var_of_mutual (h u hu) (h' u hu) hv
      exact ⟨w, fun _ => hw⟩
    · exact ⟨v, fun hused => absurd hused hv⟩
  choose f hf using hback
  have hinj : Set.InjOn f used := by
    intro v hv w hw heq
    have hvar := (hf v hv).2
    rw [heq, (hf w hw).2] at hvar
    exact (Term.var.inj hvar).symm
  obtain ⟨π, hπ⟩ := exists_perm_of_injOn hinj
  refine ⟨π, fun v hv => ?_⟩
  rw [h v hv]
  apply Term.bind_congr
  intro u hu
  have hused : u ∈ used := List.mem_toFinset.mpr (List.mem_flatMap.mpr ⟨v, hv, hu⟩)
  rw [(hf u hused).1, relabelling, hπ u hused]

end Renamings

section Solutions

variable {vs : List Var} {σ τ : Substitution} {ρ : Var → Term}

theorem Instantiates.eq_bind_resolve (h : Instantiates ρ σ) (links : ℕ) (v : Var) :
    ρ v = (σ.resolve links v).bind ρ := by
  induction links generalizing v with
  | zero => rfl
  | succ links ih =>
    rw [Substitution.resolve]
    split
    · rename_i t ht
      have hvalue : ρ v = t.bind ρ := Expr.term.inj (h v _ ht)
      rw [Term.bind_bind, hvalue]
      exact Term.bind_congr fun w _ => ih w
    · rfl

/-- The values that a solution leaves possible for some of the variables. -/
def Permits (vs : List Var) (σ : Substitution) (ρ : Var → Term) : Prop :=
  ∃ ρ', (∀ v ∈ vs, ρ' v = ρ v) ∧ Instantiates ρ' σ

theorem Permits.exists_instance (h : Permits vs σ ρ) :
    ∃ μ, ∀ v ∈ vs, ρ v = (σ.resolved v).bind μ := by
  obtain ⟨μ, hagree, hμ⟩ := h
  refine ⟨μ, fun v hv => ?_⟩
  rw [← hagree v hv]
  exact hμ.eq_bind_resolve σ.length v

theorem Substitution.Regular.permits_resolved (hσ : σ.Regular) (vs : List Var) :
    Permits vs σ σ.resolved :=
  ⟨_, fun _ _ => rfl, hσ.acyclic.instantiates_resolve hσ.termValued⟩

/-- Solutions that permit the same values for the variables of a formula make the same of it, up
to a renaming. -/
theorem exists_renaming_of_permits (hσ : σ.Regular) (hτ : τ.Regular) {f : Formula}
    (h : ∀ ρ, Permits f.occurrences σ ρ ↔ Permits f.occurrences τ ρ) :
    ∃ π : Var → Var, π.Bijective ∧ f.apply τ = (f.apply σ).bind (relabelling π) := by
  obtain ⟨μ, hμ⟩ := ((h _).mpr (hτ.permits_resolved _)).exists_instance
  obtain ⟨ν, hν⟩ := ((h _).mp (hσ.permits_resolved _)).exists_instance
  obtain ⟨π, hπ⟩ := exists_renaming_of_mutual hμ hν
  refine ⟨π, π.bijective, ?_⟩
  rw [Formula.apply_eq_bind_resolved, Formula.apply_eq_bind_resolved, Formula.bind_bind]
  exact Formula.bind_congr hπ

end Solutions

end HornResolution
