import HornResolution.Proofs.Unification
import Mathlib.Data.Finset.Lattice.Fold

/-!
# Comparisons end

Unification of two expressions under an acyclic substitution is never cut off.
Fix the variables at hand and the size of the largest expression. The height of
an expression counts, for each rank below that of its variables, one expression of
the largest size, and then its own size. It falls when a bound variable is replaced
by its value and when a comparison goes on to arguments, as long as no binding is
made; and each new binding uses up a variable.
-/

namespace HornResolution

section Sizes

theorem le_total_of_mem {n : ℕ} {ns : List ℕ} (h : n ∈ ns) : n ≤ total ns := by
  induction ns with
  | nil => simp at h
  | cons m ns ih =>
    rw [total]
    rcases List.mem_cons.mp h with rfl | h
    · omega
    · have := ih h
      omega

/-- The arguments of the outermost symbol. -/
def Expr.args : Expr → List Term
  | .term (.var _) => []
  | .term (.app _ args) => args
  | .atom a => a.args

theorem Expr.size_lt_of_mem_args {e : Expr} {x : Term} (h : x ∈ e.args) : x.size < e.size := by
  rcases e with (v | ⟨f, args⟩) | a
  · simp [args] at h
  · rw [size, Term.size_app]
    exact Nat.lt_succ_of_le (le_total_of_mem (List.mem_map_of_mem h))
  · exact Nat.lt_succ_of_le (le_total_of_mem (List.mem_map_of_mem h))

theorem Expr.occurrences_of_mem_args {e : Expr} {x : Term} {v : Var} (h : x ∈ e.args)
    (hv : v ∈ x.occurrences) : v ∈ e.occurrences := by
  rcases e with (w | ⟨f, args⟩) | a
  · simp [args] at h
  · rw [occurrences, Term.occurrences_app]
    exact List.mem_flatMap.mpr ⟨x, h, hv⟩
  · exact List.mem_flatMap.mpr ⟨x, h, hv⟩

theorem length_flatMap_le_total {α : Type} {ts : List α} {f : α → List Var} {g : α → ℕ}
    (h : ∀ t ∈ ts, (f t).length ≤ g t) : (ts.flatMap f).length ≤ total (ts.map g) := by
  induction ts with
  | nil => simp [total]
  | cons t ts ih =>
    rw [List.flatMap_cons, List.length_append, List.map_cons, total]
    exact Nat.add_le_add (h t (by simp)) (ih fun s hs => h s (by simp [hs]))

theorem Term.length_occurrences_le (t : Term) : t.occurrences.length ≤ t.size := by
  induction t using Term.induction with
  | var v => simp
  | app f args ih =>
    rw [Term.occurrences_app, Term.size_app]
    exact (length_flatMap_le_total ih).trans (Nat.le_succ _)

theorem Expr.length_occurrences_le (e : Expr) : e.occurrences.length ≤ e.size := by
  cases e with
  | term t => exact t.length_occurrences_le
  | atom a =>
    exact (length_flatMap_le_total fun t _ => t.length_occurrences_le).trans (Nat.le_succ _)

theorem Substitution.length_occurrences_le (θ : Substitution) :
    θ.occurrences.length ≤ θ.weight := by
  apply length_flatMap_le_total
  intro b _
  exact Nat.succ_le_succ b.2.length_occurrences_le

theorem Substitution.size_le_weight {θ : Substitution} {v : Var} {e : Expr}
    (h : θ.get? v = some e) : e.size ≤ θ.weight := by
  have hmem : e.size + 1 ∈ θ.bindings.map fun b => b.2.size + 1 :=
    List.mem_map.mpr ⟨_, mem_bindings_of_get? h, rfl⟩
  exact (Nat.le_succ _).trans (le_total_of_mem hmem)

end Sizes

namespace Unification

/-- The variables and the size of an expression are among those at hand. -/
structure Small (U : Finset Var) (M : ℕ) (e : Expr) : Prop where
  size_le : e.size ≤ M
  vars : ∀ v ∈ e.occurrences, v ∈ U

theorem Small.argument {U : Finset Var} {M : ℕ} {e : Expr} {x : Term} (h : Small U M e)
    (hx : x ∈ e.args) : Small U M (.term x) :=
  ⟨(Expr.size_lt_of_mem_args hx).le.trans h.size_le,
    fun v hv => h.vars v (Expr.occurrences_of_mem_args hx hv)⟩

/-- An acyclic substitution whose bindings are among those at hand. -/
structure Bounded (U : Finset Var) (M : ℕ) (θ : Substitution) : Prop where
  acyclic : θ.Acyclic
  key : ∀ {v e}, θ.get? v = some e → v ∈ U
  value : ∀ {v e}, θ.get? v = some e → Small U M e

def unboundCount (U : Finset Var) (θ : Substitution) : ℕ := (U.filter (θ.get? · = none)).card

/-- The greatest rank among the variables of an expression. -/
noncomputable def level (θ : Substitution) (e : Expr) : ℕ := e.occurrences.toFinset.sup θ.rank

noncomputable def height (M : ℕ) (θ : Substitution) (e : Expr) : ℕ := level θ e * (M + 1) + e.size

section Heights

variable {U : Finset Var} {M : ℕ} {θ : Substitution} {v : Var} {e : Expr}

theorem height_value (hθ : Bounded U M θ) (hv : θ.get? v = some e) :
    height M θ e < height M θ (.term (.var v)) := by
  have hpos := Substitution.rank_pos hv
  have hlevel : level θ e ≤ θ.rank v - 1 := by
    apply Finset.sup_le
    intro u hu
    have := hθ.acyclic.rank_lt ⟨e, hv, List.mem_toFinset.mp hu⟩
    omega
  have hvar : level θ (.term (.var v)) = θ.rank v := by simp [level, Expr.occurrences]
  have hsize := (hθ.value hv).size_le
  calc
    height M θ e ≤ (θ.rank v - 1) * (M + 1) + M :=
      Nat.add_le_add (Nat.mul_le_mul_right _ hlevel) hsize
    _ < (θ.rank v - 1) * (M + 1) + (M + 1) := by omega
    _ = θ.rank v * (M + 1) := by rw [← Nat.succ_mul, Nat.succ_eq_add_one, Nat.sub_add_cancel hpos]
    _ ≤ height M θ (.term (.var v)) := by rw [height, hvar]; exact Nat.le_add_right _ _

theorem height_argument {x : Term} (hx : x ∈ e.args) :
    height M θ (.term x) < height M θ e := by
  have hlevel : level θ (.term x) ≤ level θ e := by
    apply Finset.sup_mono
    intro v hv
    exact List.mem_toFinset.mpr (Expr.occurrences_of_mem_args hx (List.mem_toFinset.mp hv))
  exact Nat.add_lt_add_of_le_of_lt (Nat.mul_le_mul_right _ hlevel) (Expr.size_lt_of_mem_args hx)

theorem Bounded.card_keys_le (hθ : Bounded U M θ) : θ.keys.card ≤ U.card := by
  apply Finset.card_le_card
  intro v hv
  obtain ⟨e, he⟩ := Substitution.get?_of_mem_keys hv
  exact hθ.key he

theorem height_le (hθ : Bounded U M θ) (he : Small U M e) :
    height M θ e ≤ U.card * (M + 1) + M := by
  apply Nat.add_le_add _ he.size_le
  apply Nat.mul_le_mul_right
  apply Finset.sup_le
  intro v _
  exact (θ.rank_le_card_keys v).trans hθ.card_keys_le

end Heights

section Binding

variable {U : Finset Var} {M : ℕ} {θ : Substitution} {v : Var} {e : Expr}

theorem Bounded.add (hθ : Bounded U M θ) (hv : v ∈ U) (he : Small U M e)
    (hocc : θ.occursIn v e = false) : Bounded U M (θ.add v e) := by
  refine ⟨hθ.acyclic.add hocc, fun hw => ?_, fun hw => ?_⟩
  · rcases Substitution.of_get?_add hw with hw | ⟨rfl, -⟩
    · exact hθ.key hw
    · exact hv
  · rcases Substitution.of_get?_add hw with hw | ⟨-, rfl⟩
    · exact hθ.value hw
    · exact he

theorem unboundCount_add_lt (hv : v ∈ U) (hfree : θ.get? v = none) (e : Expr) :
    unboundCount U (θ.add v e) < unboundCount U θ := by
  apply Finset.card_lt_card
  rw [Finset.ssubset_iff_of_subset]
  · refine ⟨v, Finset.mem_filter.mpr ⟨hv, hfree⟩, ?_⟩
    intro h
    have := (Finset.mem_filter.mp h).2
    simp [Substitution.get?_add] at this
  · intro w hw
    obtain ⟨hwU, hwfree⟩ := Finset.mem_filter.mp hw
    rw [Substitution.get?_add, Option.or_eq_none_iff] at hwfree
    exact Finset.mem_filter.mpr ⟨hwU, hwfree.1⟩

/-- A comparison keeps to the variables and sizes at hand, and if it changes the
substitution at all, it binds some of the variables. -/
theorem invariant_bounded (U : Finset Var) (M : ℕ) (θ : Substitution) :
    Invariant (fun σ => Bounded U M σ ∧ (σ = θ ∨ unboundCount U σ < unboundCount U θ))
      fun a b => Small U M a ∧ Small U M b where
  boundLeft hσ hab hv := ⟨hσ.1.value hv, hab.2⟩
  boundRight hσ hab hv := ⟨hab.1, hσ.1.value hv⟩
  terms hab x hx y hy := ⟨hab.1.argument hx, hab.2.argument hy⟩
  atoms hab x hx y hy := ⟨hab.1.argument hx, hab.2.argument hy⟩
  addLeft := by
    rintro σ v e ⟨hσ, hle⟩ hab hfree hocc
    have hv : v ∈ U := hab.1.vars v (by simp [Expr.occurrences])
    have hlt := unboundCount_add_lt hv hfree e
    refine ⟨hσ.add hv hab.2 hocc, Or.inr ?_⟩
    rcases hle with rfl | hle
    · exact hlt
    · exact hlt.trans hle
  addRight := by
    rintro σ v e ⟨hσ, hle⟩ hab hfree hocc
    have hv : v ∈ U := hab.2.vars v (by simp [Expr.occurrences])
    have hlt := unboundCount_add_lt hv hfree e
    refine ⟨hσ.add hv hab.1 hocc, Or.inr ?_⟩
    rcases hle with rfl | hle
    · exact hlt
    · exact hlt.trans hle

end Binding

section Ends

variable {U : Finset Var} {M : ℕ} {θ : Substitution} {a b : Expr}

theorem bind_ne_endless (v : Var) (e : Expr) (θ : Substitution) :
    bind v e θ ≠ .error .endless := by
  unfold bind
  split_ifs <;> simp

theorem pairwise_ne_endless {I : Substitution → Prop}
    {unifyPair : Term → Term → Substitution → Except Clash Substitution} {xs ys : List Term}
    (hkeep : ∀ x ∈ xs, ∀ y ∈ ys, ∀ θ σ, I θ → unifyPair x y θ = .ok σ → I σ)
    (hpair : ∀ x ∈ xs, ∀ y ∈ ys, ∀ θ, I θ → unifyPair x y θ ≠ .error .endless) (hθ : I θ) :
    pairwise unifyPair xs ys θ ≠ .error .endless := by
  induction xs generalizing ys θ with
  | nil => simp [pairwise]
  | cons x xs ih =>
    cases ys with
    | nil => simp [pairwise]
    | cons y ys =>
      rw [pairwise]
      split
      · rename_i σ hσ
        exact ih (fun x hx y hy => hkeep x (by simp [hx]) y (by simp [hy]))
          (fun x hx y hy => hpair x (by simp [hx]) y (by simp [hy]))
          (hkeep x (by simp) y (by simp) θ σ hθ hσ)
      · rename_i e he
        exact fun h => hpair x (by simp) y (by simp) θ hθ (he.trans h)

theorem applications_ne_endless
    {unifyPair : Term → Term → Substitution → Except Clash Substitution}
    {f g : Symbol} {xs ys : List Term} (h : pairwise unifyPair xs ys θ ≠ .error .endless) :
    applications unifyPair f xs g ys θ ≠ .error .endless := by
  unfold applications
  split_ifs
  · simp
  · simp
  · exact h

/-- The calls that a comparison may still need below it: as many as the two sides are high,
and for each further binding as many as two sides can be high. -/
noncomputable def budget (U : Finset Var) (M : ℕ) (θ : Substitution) (a b : Expr) : ℕ :=
  unboundCount U θ * (2 * (U.card * (M + 1) + M) + 1) + height M θ a + height M θ b

theorem budget_arguments {σ : Substitution} {x y : Term} (hσ : Bounded U M σ)
    (hle : σ = θ ∨ unboundCount U σ < unboundCount U θ) (ha : Small U M a) (hb : Small U M b)
    (hx : x ∈ a.args) (hy : y ∈ b.args) :
    budget U M σ (.term x) (.term y) < budget U M θ a b := by
  unfold budget
  rcases hle with rfl | hlt
  · have := height_argument (M := M) (θ := σ) hx
    have := height_argument (M := M) (θ := σ) hy
    omega
  · have hhx := height_le hσ (ha.argument hx)
    have hhy := height_le hσ (hb.argument hy)
    have hmul := Nat.mul_le_mul_right (2 * (U.card * (M + 1) + M) + 1) (Nat.succ_le_of_lt hlt)
    rw [Nat.succ_mul] at hmul
    omega

/-- A comparison with at least as many calls as its budget is not cut off. -/
theorem within_ne_endless {depth : ℕ} (hθ : Bounded U M θ) (ha : Small U M a) (hb : Small U M b)
    (hdepth : budget U M θ a b < depth) : within depth a b θ ≠ .error .endless := by
  induction depth generalizing a b θ with
  | zero => omega
  | succ depth ih =>
    have hargs : pairwise (fun x y => within depth (.term x) (.term y)) a.args b.args θ ≠
        .error .endless := by
      apply pairwise_ne_endless (I := fun σ =>
        Bounded U M σ ∧ (σ = θ ∨ unboundCount U σ < unboundCount U θ)) _ _ ⟨hθ, Or.inl rfl⟩
      · intro x hx y hy σ τ hσ h
        exact (invariant_bounded U M θ).within ⟨ha.argument hx, hb.argument hy⟩ hσ h
      · intro x hx y hy σ hσ
        have hlt := budget_arguments hσ.1 hσ.2 ha hb hx hy
        exact ih hσ.1 (ha.argument hx) (hb.argument hy) (by omega)
    cases situation θ a b with
    | boundLeft hv =>
      rw [within_boundLeft hv]
      have := height_value hθ hv
      exact ih hθ (hθ.value hv) hb (by unfold budget at *; omega)
    | boundRight hfree hv =>
      rw [within_boundRight hfree hv]
      have := height_value hθ hv
      exact ih hθ ha (hθ.value hv) (by unfold budget at *; omega)
    | freeLeft hv hfree =>
      rw [within_freeLeft hv hfree]
      exact bind_ne_endless _ _ _
    | freeRight hvar hv =>
      rw [within_freeRight hvar hv]
      exact bind_ne_endless _ _ _
    | terms f xs g ys =>
      rw [within_terms]
      exact applications_ne_endless hargs
    | atoms p q =>
      rw [within_atoms]
      exact applications_ne_endless hargs
    | termAtom f xs q => simp [within_termAtom]
    | atomTerm p g ys => simp [within_atomTerm]

end Ends

def allVars (a b : Expr) (θ : Substitution) : Finset Var :=
  (a.occurrences ++ b.occurrences ++ θ.occurrences).toFinset

theorem card_allVars_le (a b : Expr) (θ : Substitution) :
    (allVars a b θ).card ≤ a.size + b.size + θ.weight := by
  have ha := a.length_occurrences_le
  have hb := b.length_occurrences_le
  have hθ := θ.length_occurrences_le
  calc
    (allVars a b θ).card ≤ (a.occurrences ++ b.occurrences ++ θ.occurrences).length :=
      List.toFinset_card_le _
    _ ≤ a.size + b.size + θ.weight := by simp only [List.length_append]; omega

theorem bounded_allVars {θ : Substitution} (hθ : θ.Acyclic) (a b : Expr) :
    Bounded (allVars a b θ) (a.size + b.size + θ.weight) θ := by
  refine ⟨hθ, fun {v e} hv => ?_, fun {v e} hv => ⟨?_, fun w hw => ?_⟩⟩
  · simp [allVars, Substitution.mem_occurrences_key hv]
  · have := Substitution.size_le_weight hv
    omega
  · simp [allVars, Substitution.mem_occurrences_of_get? hv hw]

theorem budget_lt_comparisonBound {U : Finset Var} {M : ℕ} {θ : Substitution} {a b : Expr}
    (hU : U.card ≤ M) (hθ : Bounded U M θ) (ha : Small U M a) (hb : Small U M b) :
    budget U M θ a b < comparisonBound M := by
  have hheight : U.card * (M + 1) + M ≤ M * (M + 1) + M :=
    Nat.add_le_add_right (Nat.mul_le_mul_right _ hU) M
  have hha := (height_le hθ ha).trans hheight
  have hhb := (height_le hθ hb).trans hheight
  have hcount : unboundCount U θ ≤ M := (Finset.card_filter_le _ _).trans hU
  have hmul : unboundCount U θ * (2 * (U.card * (M + 1) + M) + 1) ≤
      M * (2 * (M * (M + 1) + M) + 1) := Nat.mul_le_mul hcount (by omega)
  unfold budget comparisonBound
  nlinarith

theorem unify_ne_endless {θ : Substitution} (hθ : θ.Acyclic) (a b : Expr) :
    unify a b θ ≠ .error .endless := by
  unfold unify
  split
  · have hbounded := bounded_allVars hθ a b
    have ha : Small (allVars a b θ) (a.size + b.size + θ.weight) a :=
      ⟨by omega, fun v hv => by simp [allVars, hv]⟩
    have hb : Small (allVars a b θ) (a.size + b.size + θ.weight) b :=
      ⟨by omega, fun v hv => by simp [allVars, hv]⟩
    exact within_ne_endless hbounded ha hb
      (budget_lt_comparisonBound (card_allVars_le a b θ) hbounded ha hb)
  · assumption

end Unification

end HornResolution
