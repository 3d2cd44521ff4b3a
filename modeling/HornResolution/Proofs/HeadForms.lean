import HornResolution.Proofs.ComparisonBound

/-!
# Comparisons without a bound

A bare variable stands for what `walk` finds at the end of its bindings, its head form,
which is no bound variable any more. Under an acyclic substitution unification depends on
its two sides through their head forms only, and the bound on the depth of comparisons
plays no part: `unify` satisfies equations of its own, one for each situation.
-/

namespace HornResolution

open Unification

namespace Substitution

variable {θ : Substitution} {v : Var} {e : Expr} {t : Term}

theorem Acyclic.wellFounded (hθ : θ.Acyclic) : WellFounded fun w v => θ.Leads v w :=
  Subrelation.wf (fun h => hθ.rank_lt h) (measure θ.rank).wf

/-- What holds of all expressions but bound variables, and passes from a value to the variable
bound to it, holds of every expression. -/
theorem Acyclic.chainInduction (hθ : θ.Acyclic) {motive : Expr → Prop}
    (free : ∀ e, bound? θ e = none → motive e)
    (bound : ∀ v e, θ.get? v = some e → motive e → motive (.term (.var v))) (e : Expr) :
    motive e := by
  have hvar : ∀ v, motive (.term (.var v)) := by
    intro v
    induction v using hθ.wellFounded.induction with
    | h v ih =>
      cases hv : θ.get? v with
      | none => exact free _ hv
      | some e =>
        apply bound v e hv
        rcases e with (w | ⟨f, xs⟩) | p
        · exact ih w ⟨_, hv, by simp [Expr.occurrences]⟩
        · exact free _ rfl
        · exact free _ rfl
  rcases e with (v | ⟨f, xs⟩) | p
  · exact hvar v
  · exact free _ rfl
  · exact free _ rfl

section Walking

theorem walkWithin_of_free (h : bound? θ e = none) (links : ℕ) : θ.walkWithin links e = e := by
  cases links with
  | zero => rfl
  | succ links =>
    rcases e with (v | ⟨f, xs⟩) | p
    · rw [bound?_var] at h
      simp [walkWithin, Expr.asVar?, Term.asVar?, h]
    · rfl
    · rfl

theorem walkWithin_of_bound (h : θ.get? v = some e) (links : ℕ) :
    θ.walkWithin (links + 1) (.term (.var v)) = θ.walkWithin links e := by
  simp [walkWithin, Expr.asVar?, Term.asVar?, h]

theorem Acyclic.walkWithin_eq (hθ : θ.Acyclic) (e : Expr) {m n : ℕ}
    (hm : ∀ v, e.asVar? = some v → θ.rank v ≤ m) (hn : ∀ v, e.asVar? = some v → θ.rank v ≤ n) :
    θ.walkWithin m e = θ.walkWithin n e := by
  induction e using hθ.chainInduction generalizing m n with
  | free e he => rw [walkWithin_of_free he, walkWithin_of_free he]
  | bound v e hv ih =>
    have hpos := rank_pos hv
    have hm := hm v rfl
    have hn := hn v rfl
    obtain ⟨m, rfl⟩ : ∃ k, m = k + 1 := ⟨m - 1, by omega⟩
    obtain ⟨n, rfl⟩ : ∃ k, n = k + 1 := ⟨n - 1, by omega⟩
    have hrank : ∀ w, e.asVar? = some w → θ.rank w < θ.rank v := by
      intro w hw
      refine hθ.rank_lt ⟨e, hv, ?_⟩
      rcases e with (u | ⟨f, xs⟩) | p <;> simp_all [Expr.asVar?, Term.asVar?, Expr.occurrences]
    rw [walkWithin_of_bound hv, walkWithin_of_bound hv]
    apply ih
    · intro w hw
      have := hrank w hw
      omega
    · intro w hw
      have := hrank w hw
      omega

theorem walk_of_free (h : bound? θ e = none) : θ.walk e = e := walkWithin_of_free h _

theorem Acyclic.walk_of_bound (hθ : θ.Acyclic) (h : θ.get? v = some e) :
    θ.walk (.term (.var v)) = θ.walk e := by
  calc
    θ.walk (.term (.var v)) = θ.walkWithin (θ.length + 1) (.term (.var v)) := by
      apply hθ.walkWithin_eq
      · exact fun w _ => θ.rank_le_length w
      · exact fun w _ => (θ.rank_le_length w).trans (Nat.le_succ _)
    _ = θ.walk e := walkWithin_of_bound h _

theorem Acyclic.bound?_walk (hθ : θ.Acyclic) (e : Expr) : bound? θ (θ.walk e) = none := by
  induction e using hθ.chainInduction with
  | free e he => rwa [walk_of_free he]
  | bound v e hv ih => rwa [hθ.walk_of_bound hv]

end Walking

section Resolving

/-- What a variable inside a term stands for once every chain is followed to its end. -/
def resolved (θ : Substitution) (v : Var) : Term := θ.resolve θ.length v

theorem resolved_of_free (h : θ.get? v = none) : θ.resolved v = .var v :=
  resolve_of_unbound h _

theorem resolved_of_atom {a : Atom} (h : θ.get? v = some (.atom a)) : θ.resolved v = .var v := by
  unfold resolved
  cases θ.length with
  | zero => rfl
  | succ n => rw [resolve, h]

theorem Acyclic.resolved_of_term (hθ : θ.Acyclic) (h : θ.get? v = some (.term t)) :
    θ.resolved v = t.bind θ.resolved := by
  have hpos := (rank_pos h).trans_le (θ.rank_le_length v)
  obtain ⟨n, hn⟩ : ∃ n, θ.length = n + 1 := ⟨θ.length - 1, by omega⟩
  unfold resolved
  rw [hn, resolve, h]
  apply Term.bind_congr
  intro u hu
  have hrank := hθ.rank_lt ⟨_, h, hu⟩
  have hle := θ.rank_le_length v
  exact hθ.resolve_eq (by omega) (by omega)

end Resolving

end Substitution

theorem Expr.apply_eq_bind (θ : Substitution) (e : Expr) :
    e.apply θ = (θ.walk e).bind θ.resolved := rfl

theorem Formula.apply_eq_bind_resolved (θ : Substitution) (f : Formula) :
    f.apply θ = f.bind θ.resolved := rfl

namespace Unification

section Bounds

variable {pair pair' : Term → Term → Substitution → Except Clash Substitution}
  {I : Substitution → Prop} {θ : Substitution}

theorem pairwise_eq_of_ne_endless (hkeep : ∀ x y θ σ, I θ → pair x y θ = .ok σ → I σ)
    (hpair : ∀ x y θ, I θ → pair x y θ ≠ .error .endless → pair' x y θ = pair x y θ)
    {xs ys : List Term} (hθ : I θ) (h : pairwise pair xs ys θ ≠ .error .endless) :
    pairwise pair' xs ys θ = pairwise pair xs ys θ := by
  induction xs generalizing ys θ with
  | nil => rfl
  | cons x xs ih =>
    cases ys with
    | nil => rfl
    | cons y ys =>
      rw [pairwise] at h
      have hxy : pair x y θ ≠ .error .endless := by
        intro hend
        rw [hend] at h
        exact h rfl
      rw [pairwise, pairwise, hpair x y θ hθ hxy]
      cases hσ : pair x y θ with
      | ok σ =>
        rw [hσ] at h
        exact ih (hkeep x y θ σ hθ hσ) h
      | error clash => rfl

theorem applications_eq_of_ne_endless (hkeep : ∀ x y θ σ, I θ → pair x y θ = .ok σ → I σ)
    (hpair : ∀ x y θ, I θ → pair x y θ ≠ .error .endless → pair' x y θ = pair x y θ)
    {f g : Symbol} {xs ys : List Term} (hθ : I θ)
    (h : applications pair f xs g ys θ ≠ .error .endless) :
    applications pair' f xs g ys θ = applications pair f xs g ys θ := by
  unfold applications at h ⊢
  split_ifs at h ⊢
  · rfl
  · rfl
  · exact pairwise_eq_of_ne_endless hkeep hpair hθ h

theorem within_mono {depth depth' : ℕ} {a b : Expr} (hle : depth ≤ depth')
    (h : within depth a b θ ≠ .error .endless) : within depth' a b θ = within depth a b θ := by
  induction depth generalizing depth' a b θ with
  | zero => simp [within] at h
  | succ depth ih =>
    obtain ⟨depth', rfl⟩ : ∃ n, depth' = n + 1 := ⟨depth' - 1, by omega⟩
    have hle : depth ≤ depth' := Nat.le_of_succ_le_succ hle
    have hpair : ∀ x y σ, True → within depth (.term x) (.term y) σ ≠ .error .endless →
        within depth' (.term x) (.term y) σ = within depth (.term x) (.term y) σ :=
      fun x y σ _ hne => ih hle hne
    cases situation θ a b with
    | boundLeft hv =>
      rw [within_boundLeft hv] at h ⊢
      rw [within_boundLeft hv]
      exact ih hle h
    | boundRight ha hv =>
      rw [within_boundRight ha hv] at h ⊢
      rw [within_boundRight ha hv]
      exact ih hle h
    | freeLeft hv hb => rw [within_freeLeft hv hb, within_freeLeft hv hb]
    | freeRight ha hv => rw [within_freeRight ha hv, within_freeRight ha hv]
    | terms f xs g ys =>
      rw [within_terms] at h ⊢
      rw [within_terms]
      exact applications_eq_of_ne_endless (fun _ _ _ _ _ _ => trivial) hpair trivial h
    | atoms p q =>
      rw [within_atoms] at h ⊢
      rw [within_atoms]
      exact applications_eq_of_ne_endless (fun _ _ _ _ _ _ => trivial) hpair trivial h
    | termAtom f xs q => rw [within_termAtom, within_termAtom]
    | atomTerm p g ys => rw [within_atomTerm, within_atomTerm]

end Bounds

section Equations

variable {θ : Substitution} {a b e : Expr} {v : Var} {depth : ℕ}

theorem unify_eq_of_within (hθ : θ.Acyclic) (h : within depth a b θ ≠ .error .endless) :
    unify a b θ = within depth a b θ := by
  obtain ⟨n, hn⟩ := unify_eq_within a b θ
  have hne := unify_ne_endless hθ a b
  rw [hn] at hne ⊢
  rw [← within_mono (le_max_left n depth) hne, within_mono (le_max_right n depth) h]

theorem exists_unify_eq_within (hθ : θ.Acyclic) (a b : Expr) :
    ∃ depth, unify a b θ = within (depth + 1) a b θ ∧
      within (depth + 1) a b θ ≠ .error .endless := by
  obtain ⟨n, hn⟩ := unify_eq_within a b θ
  have hne := unify_ne_endless hθ a b
  rw [hn] at hne
  cases n with
  | zero => simp [within] at hne
  | succ n => exact ⟨n, hn, hne⟩

theorem unify_boundLeft (hθ : θ.Acyclic) (hv : θ.get? v = some e) (b : Expr) :
    unify (.term (.var v)) b θ = unify e b θ := by
  obtain ⟨n, hn, hne⟩ := exists_unify_eq_within hθ e b
  rw [← within_boundLeft hv] at hn hne
  rw [hn]
  exact unify_eq_of_within hθ hne

theorem unify_boundRight (hθ : θ.Acyclic) (ha : bound? θ a = none) (hv : θ.get? v = some e) :
    unify a (.term (.var v)) θ = unify a e θ := by
  obtain ⟨n, hn, hne⟩ := exists_unify_eq_within hθ a e
  rw [← within_boundRight ha hv] at hn hne
  rw [hn]
  exact unify_eq_of_within hθ hne

theorem unify_freeLeft (hθ : θ.Acyclic) (hv : θ.get? v = none) (hb : bound? θ b = none) :
    unify (.term (.var v)) b θ = bind v b θ := by
  obtain ⟨n, hn, -⟩ := exists_unify_eq_within hθ (.term (.var v)) b
  rw [hn, within_freeLeft hv hb]

theorem unify_freeRight (hθ : θ.Acyclic) (ha : a.asVar? = none) (hv : θ.get? v = none) :
    unify a (.term (.var v)) θ = bind v a θ := by
  obtain ⟨n, hn, -⟩ := exists_unify_eq_within hθ a (.term (.var v))
  rw [hn, within_freeRight ha hv]

/-- Unification of two terms, as it is done for arguments. -/
def unifyTerms (x y : Term) : Substitution → Except Clash Substitution :=
  unify (.term x) (.term y)

theorem applications_unifyTerms (hθ : θ.Acyclic) {f g : Symbol} {xs ys : List Term}
    (h : applications (fun x y => within depth (.term x) (.term y)) f xs g ys θ ≠
      .error .endless) :
    applications unifyTerms f xs g ys θ =
      applications (fun x y => within depth (.term x) (.term y)) f xs g ys θ :=
  applications_eq_of_ne_endless
    (fun _ _ _ _ hθ hσ => invariant_acyclic.within trivial hθ hσ)
    (fun _ _ _ hθ hne => unify_eq_of_within hθ hne) hθ h

theorem unify_terms (hθ : θ.Acyclic) (f : Symbol) (xs : List Term) (g : Symbol)
    (ys : List Term) :
    unify (.term (.app f xs)) (.term (.app g ys)) θ = applications unifyTerms f xs g ys θ := by
  obtain ⟨n, hn, hne⟩ := exists_unify_eq_within hθ (.term (.app f xs)) (.term (.app g ys))
  rw [within_terms] at hn hne
  rw [hn, applications_unifyTerms hθ hne]

theorem unify_atoms (hθ : θ.Acyclic) (p q : Atom) :
    unify (.atom p) (.atom q) θ = applications unifyTerms p.symbol p.args q.symbol q.args θ := by
  obtain ⟨n, hn, hne⟩ := exists_unify_eq_within hθ (.atom p) (.atom q)
  rw [within_atoms] at hn hne
  rw [hn, applications_unifyTerms hθ hne]

theorem unify_termAtom (hθ : θ.Acyclic) (f : Symbol) (xs : List Term) (q : Atom) :
    unify (.term (.app f xs)) (.atom q) θ = .error .kinds := by
  obtain ⟨n, hn, -⟩ := exists_unify_eq_within hθ (.term (.app f xs)) (.atom q)
  rw [hn, within_termAtom]

theorem unify_atomTerm (hθ : θ.Acyclic) (p : Atom) (g : Symbol) (ys : List Term) :
    unify (.atom p) (.term (.app g ys)) θ = .error .kinds := by
  obtain ⟨n, hn, -⟩ := exists_unify_eq_within hθ (.atom p) (.term (.app g ys))
  rw [hn, within_atomTerm]

/-- Only the head forms of the two sides matter. -/
theorem unify_walk (hθ : θ.Acyclic) (a b : Expr) :
    unify (θ.walk a) (θ.walk b) θ = unify a b θ := by
  have hleft : ∀ c, unify (θ.walk a) c θ = unify a c θ := by
    intro c
    induction a using hθ.chainInduction with
    | free a ha => rw [Substitution.walk_of_free ha]
    | bound v e hv ih => rw [hθ.walk_of_bound hv, ih, unify_boundLeft hθ hv]
  rw [← hleft b]
  induction b using hθ.chainInduction with
  | free b hb => rw [Substitution.walk_of_free hb]
  | bound v e hv ih => rw [hθ.walk_of_bound hv, ih, unify_boundRight hθ (hθ.bound?_walk a) hv]

end Equations

end Unification

end HornResolution
