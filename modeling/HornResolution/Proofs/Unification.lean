import HornResolution.Proofs.Acyclicity
import HornResolution.Unification

/-!
# What unification keeps

A comparison is in one of eight situations, by the bindings of the two sides
and their shapes, and `within` has one equation for each. A property of
substitutions is kept by unification if every binding that a comparison may make
keeps it; acyclicity and the kinds of values are of this sort.
-/

namespace HornResolution

namespace Substitution

variable {θ : Substitution} {v w : Var} {e : Expr}

theorem mem_occurrences_key (h : θ.get? v = some e) : v ∈ θ.occurrences :=
  List.mem_flatMap.mpr ⟨_, mem_bindings_of_get? h, by simp⟩

theorem mem_occurrences_of_get? (h : θ.get? v = some e) (hw : w ∈ e.occurrences) :
    w ∈ θ.occurrences :=
  List.mem_flatMap.mpr ⟨_, mem_bindings_of_get? h, by simp [hw]⟩

theorem mem_occurrences_add (h : θ.get? v = none) :
    w ∈ (θ.add v e).occurrences ↔ w ∈ θ.occurrences ∨ w = v ∨ w ∈ e.occurrences := by
  simp [occurrences, bindings_add h]

theorem TermValued.add (hθ : θ.TermValued) (he : e.asTerm?.isSome) : (θ.add v e).TermValued := by
  intro w e' hw
  rcases of_get?_add hw with hw | ⟨-, rfl⟩
  · exact hθ w e' hw
  · cases e' with
    | term t => exact ⟨t, rfl⟩
    | atom a => simp [Expr.asTerm?] at he

end Substitution

namespace Unification

/-- What a comparison finds before it goes on. -/
inductive Situation (θ : Substitution) : Expr → Expr → Prop
  | boundLeft {v : Var} {e b : Expr} (hv : θ.get? v = some e) : Situation θ (.term (.var v)) b
  | boundRight {a e : Expr} {v : Var} (ha : bound? θ a = none) (hv : θ.get? v = some e) :
      Situation θ a (.term (.var v))
  | freeLeft {v : Var} {b : Expr} (hv : θ.get? v = none) (hb : bound? θ b = none) :
      Situation θ (.term (.var v)) b
  | freeRight {a : Expr} {v : Var} (ha : a.asVar? = none) (hv : θ.get? v = none) :
      Situation θ a (.term (.var v))
  | terms (f : Symbol) (xs : List Term) (g : Symbol) (ys : List Term) :
      Situation θ (.term (.app f xs)) (.term (.app g ys))
  | atoms (p q : Atom) : Situation θ (.atom p) (.atom q)
  | termAtom (f : Symbol) (xs : List Term) (q : Atom) : Situation θ (.term (.app f xs)) (.atom q)
  | atomTerm (p : Atom) (g : Symbol) (ys : List Term) : Situation θ (.atom p) (.term (.app g ys))

section Equations

variable {θ : Substitution} {a b e : Expr} {v : Var} {depth : ℕ}

@[simp] theorem bound?_var (θ : Substitution) (v : Var) :
    bound? θ (.term (.var v)) = θ.get? v := rfl

@[simp] theorem bound?_app (θ : Substitution) (f : Symbol) (xs : List Term) :
    bound? θ (.term (.app f xs)) = none := rfl

@[simp] theorem bound?_atom (θ : Substitution) (p : Atom) : bound? θ (.atom p) = none := rfl

theorem bound?_of_asVar? (θ : Substitution) (h : a.asVar? = none) : bound? θ a = none := by
  rw [bound?, h, Option.bind_none]

theorem situation_right (θ : Substitution) (ha : a.asVar? = none) (b : Expr) :
    Situation θ a b := by
  rcases b with (w | ⟨g, ys⟩) | q
  · cases hw : θ.get? w with
    | none => exact .freeRight ha hw
    | some e => exact .boundRight (bound?_of_asVar? θ ha) hw
  · rcases a with (v | ⟨f, xs⟩) | p
    · simp [Expr.asVar?, Term.asVar?] at ha
    · exact .terms f xs g ys
    · exact .atomTerm p g ys
  · rcases a with (v | ⟨f, xs⟩) | p
    · simp [Expr.asVar?, Term.asVar?] at ha
    · exact .termAtom f xs q
    · exact .atoms p q

theorem situation (θ : Substitution) (a b : Expr) : Situation θ a b := by
  rcases a with (v | ⟨f, xs⟩) | p
  · cases hv : θ.get? v with
    | some e => exact .boundLeft hv
    | none =>
      cases hb : bound? θ b with
      | none => exact .freeLeft hv hb
      | some e =>
        obtain ⟨w, hw, he⟩ := Option.bind_eq_some_iff.mp hb
        rcases b with (u | ⟨g, ys⟩) | q
        · obtain rfl : u = w := by simpa [Expr.asVar?, Term.asVar?] using hw
          exact .boundRight hv he
        · simp [Expr.asVar?, Term.asVar?] at hw
        · simp [Expr.asVar?] at hw
  · exact situation_right θ rfl b
  · exact situation_right θ rfl b

theorem within_boundLeft (hv : θ.get? v = some e) :
    within (depth + 1) (.term (.var v)) b θ = within depth e b θ := by
  simp [within, hv]

theorem within_boundRight (ha : bound? θ a = none) (hv : θ.get? v = some e) :
    within (depth + 1) a (.term (.var v)) θ = within depth a e θ := by
  simp [within, ha, hv]

theorem within_freeLeft (hv : θ.get? v = none) (hb : bound? θ b = none) :
    within (depth + 1) (.term (.var v)) b θ = bind v b θ := by
  simp [within, hv, hb]

theorem within_freeRight (ha : a.asVar? = none) (hv : θ.get? v = none) :
    within (depth + 1) a (.term (.var v)) θ = bind v a θ := by
  rcases a with (w | ⟨f, xs⟩) | p
  · simp [Expr.asVar?, Term.asVar?] at ha
  · simp [within, hv]
  · simp [within, hv]

theorem within_terms (f : Symbol) (xs : List Term) (g : Symbol) (ys : List Term) :
    within (depth + 1) (.term (.app f xs)) (.term (.app g ys)) θ =
      applications (fun x y => within depth (.term x) (.term y)) f xs g ys θ := by
  simp [within]

theorem within_atoms (p q : Atom) :
    within (depth + 1) (.atom p) (.atom q) θ =
      applications (fun x y => within depth (.term x) (.term y)) p.symbol p.args q.symbol q.args
        θ := by
  simp [within]

theorem within_termAtom (f : Symbol) (xs : List Term) (q : Atom) :
    within (depth + 1) (.term (.app f xs)) (.atom q) θ = .error .kinds := by
  simp [within]

theorem within_atomTerm (p : Atom) (g : Symbol) (ys : List Term) :
    within (depth + 1) (.atom p) (.term (.app g ys)) θ = .error .kinds := by
  simp [within]

end Equations

/-- A property of substitutions that no binding of a comparison breaks, as long as the
two sides stay related. -/
structure Invariant (I : Substitution → Prop) (R : Expr → Expr → Prop) : Prop where
  boundLeft : ∀ {θ v e b}, I θ → R (.term (.var v)) b → θ.get? v = some e → R e b
  boundRight : ∀ {θ a v e}, I θ → R a (.term (.var v)) → θ.get? v = some e → R a e
  terms : ∀ {f xs g ys}, R (.term (.app f xs)) (.term (.app g ys)) →
    ∀ x ∈ xs, ∀ y ∈ ys, R (.term x) (.term y)
  atoms : ∀ {p q}, R (.atom p) (.atom q) → ∀ x ∈ p.args, ∀ y ∈ q.args, R (.term x) (.term y)
  addLeft : ∀ {θ v e}, I θ → R (.term (.var v)) e → θ.get? v = none → θ.occursIn v e = false →
    I (θ.add v e)
  addRight : ∀ {θ v e}, I θ → R e (.term (.var v)) → θ.get? v = none → θ.occursIn v e = false →
    I (θ.add v e)

theorem bind_ok {v : Var} {e : Expr} {θ σ : Substitution} (h : bind v e θ = .ok σ) :
    σ = θ ∧ e.asVar? = some v ∨ σ = θ.add v e ∧ θ.occursIn v e = false := by
  unfold bind at h
  split_ifs at h with hself hocc
  · exact Or.inl ⟨(Except.ok.inj h).symm, hself⟩
  · exact Or.inr ⟨(Except.ok.inj h).symm, by simpa using hocc⟩

section Pairwise

variable {unifyPair : Term → Term → Substitution → Except Clash Substitution}

theorem pairwise_keeps {I : Substitution → Prop} {xs ys : List Term} {θ σ : Substitution}
    (hpair : ∀ x ∈ xs, ∀ y ∈ ys, ∀ θ σ, I θ → unifyPair x y θ = .ok σ → I σ) (hθ : I θ)
    (h : pairwise unifyPair xs ys θ = .ok σ) : I σ := by
  induction xs generalizing ys θ with
  | nil => exact Except.ok.inj h ▸ hθ
  | cons x xs ih =>
    cases ys with
    | nil => exact Except.ok.inj h ▸ hθ
    | cons y ys =>
      rw [pairwise] at h
      split at h
      · rename_i τ hτ
        have hIτ := hpair x (by simp) y (by simp) θ τ hθ hτ
        exact ih (fun x hx y hy => hpair x (by simp [hx]) y (by simp [hy])) hIτ h
      · simp at h

theorem pairwise_of_applications {f g : Symbol} {xs ys : List Term} {θ σ : Substitution}
    (h : applications unifyPair f xs g ys θ = .ok σ) : pairwise unifyPair xs ys θ = .ok σ := by
  unfold applications at h
  split_ifs at h
  exact h

end Pairwise

section Keeping

variable {I : Substitution → Prop} {R : Expr → Expr → Prop} {a b : Expr} {θ σ : Substitution}

theorem Invariant.within (hI : Invariant I R) {depth : ℕ} (hab : R a b) (hθ : I θ)
    (h : Unification.within depth a b θ = .ok σ) : I σ := by
  induction depth generalizing a b θ σ with
  | zero => simp [Unification.within] at h
  | succ depth ih =>
    cases situation θ a b with
    | boundLeft hv =>
      rw [within_boundLeft hv] at h
      exact ih (hI.boundLeft hθ hab hv) hθ h
    | boundRight ha hv =>
      rw [within_boundRight ha hv] at h
      exact ih (hI.boundRight hθ hab hv) hθ h
    | freeLeft hv hb =>
      rw [within_freeLeft hv hb] at h
      rcases bind_ok h with ⟨rfl, -⟩ | ⟨rfl, hocc⟩
      · exact hθ
      · exact hI.addLeft hθ hab hv hocc
    | freeRight ha hv =>
      rw [within_freeRight ha hv] at h
      rcases bind_ok h with ⟨rfl, -⟩ | ⟨rfl, hocc⟩
      · exact hθ
      · exact hI.addRight hθ hab hv hocc
    | terms f xs g ys =>
      rw [within_terms] at h
      exact pairwise_keeps (fun x hx y hy _ _ hθ h => ih (hI.terms hab x hx y hy) hθ h) hθ
        (pairwise_of_applications h)
    | atoms p q =>
      rw [within_atoms] at h
      exact pairwise_keeps (fun x hx y hy _ _ hθ h => ih (hI.atoms hab x hx y hy) hθ h) hθ
        (pairwise_of_applications h)
    | termAtom f xs q => simp [within_termAtom] at h
    | atomTerm p g ys => simp [within_atomTerm] at h

theorem unify_eq_within (a b : Expr) (θ : Substitution) :
    ∃ depth, unify a b θ = Unification.within depth a b θ := by
  unfold unify
  split
  · exact ⟨_, rfl⟩
  · exact ⟨shallowDepth, rfl⟩

theorem Invariant.unify (hI : Invariant I R) (hab : R a b) (hθ : I θ)
    (h : HornResolution.unify a b θ = .ok σ) : I σ := by
  obtain ⟨depth, hdepth⟩ := unify_eq_within a b θ
  exact hI.within hab hθ (hdepth ▸ h)

end Keeping

theorem invariant_acyclic : Invariant Substitution.Acyclic fun _ _ => True where
  boundLeft _ _ _ := trivial
  boundRight _ _ _ := trivial
  terms _ _ _ _ _ := trivial
  atoms _ _ _ _ _ := trivial
  addLeft hθ _ _ hocc := hθ.add hocc
  addRight hθ _ _ hocc := hθ.add hocc

/-- Two terms or two atoms. -/
def SameSort (a b : Expr) : Prop := a.asTerm?.isSome = b.asTerm?.isSome

theorem invariant_termValued : Invariant Substitution.TermValued SameSort where
  boundLeft hθ hab hv := by
    obtain ⟨t, rfl⟩ := hθ _ _ hv
    exact hab
  boundRight hθ hab hv := by
    obtain ⟨t, rfl⟩ := hθ _ _ hv
    exact hab
  terms _ _ _ _ _ := rfl
  atoms _ _ _ _ _ := rfl
  addLeft hθ hab _ _ := hθ.add (by simpa [SameSort, Expr.asTerm?] using hab.symm)
  addRight hθ hab _ _ := hθ.add (by simpa [SameSort, Expr.asTerm?] using hab)

theorem unify_termValued {p q : Atom} {θ σ : Substitution} (hθ : θ.TermValued)
    (h : unify (.atom p) (.atom q) θ = .ok σ) : σ.TermValued :=
  invariant_termValued.unify (show SameSort (.atom p) (.atom q) from rfl) hθ h

theorem invariant_occurrences (p : Var → Prop) :
    Invariant (fun θ => ∀ v ∈ θ.occurrences, p v)
      fun a b => (∀ v ∈ a.occurrences, p v) ∧ ∀ v ∈ b.occurrences, p v where
  boundLeft hθ hab hv := ⟨fun w hw => hθ w (Substitution.mem_occurrences_of_get? hv hw), hab.2⟩
  boundRight hθ hab hv := ⟨hab.1, fun w hw => hθ w (Substitution.mem_occurrences_of_get? hv hw)⟩
  terms hab x hx y hy := by
    refine ⟨fun v hv => hab.1 v ?_, fun v hv => hab.2 v ?_⟩
    · simpa [Expr.occurrences] using ⟨x, hx, hv⟩
    · simpa [Expr.occurrences] using ⟨y, hy, hv⟩
  atoms hab x hx y hy := by
    refine ⟨fun v hv => hab.1 v ?_, fun v hv => hab.2 v ?_⟩
    · exact List.mem_flatMap.mpr ⟨x, hx, hv⟩
    · exact List.mem_flatMap.mpr ⟨y, hy, hv⟩
  addLeft hθ hab hfree _ := by
    intro w hw
    rcases (Substitution.mem_occurrences_add hfree).mp hw with hw | rfl | hw
    · exact hθ w hw
    · exact hab.1 _ (by simp [Expr.occurrences])
    · exact hab.2 w hw
  addRight hθ hab hfree _ := by
    intro w hw
    rcases (Substitution.mem_occurrences_add hfree).mp hw with hw | rfl | hw
    · exact hθ w hw
    · exact hab.2 _ (by simp [Expr.occurrences])
    · exact hab.1 w hw

end Unification

end HornResolution
