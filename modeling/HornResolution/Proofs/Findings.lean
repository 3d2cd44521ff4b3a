import HornResolution.Proofs.Adequacy
import HornResolution.Proofs.DerivationTrees

/-!
# A run finds every derivation once

A run that comes to its end is made of findings, one for each derivation that the goal can have
under its parent, and no derivation is found twice. The bindings of a finding say exactly what
its derivation asks of the variables. What is done with the solutions does not matter for this,
so the findings of a conjunction are those of its first operand, each followed by those of the
other operands under its bindings.
-/

namespace HornResolution

namespace DepthFirst

/-- What a run has come upon: something that makes a goal hold, and the stage at which the
bindings say no less than that. -/
structure Finding (α : Type) where
  evidence : α
  stage : Stage

namespace Finding

variable {α β : Type}

/-- What a continuation makes of a finding. -/
def followUp (k : Continuation Substitution) (x : Finding α) : Trace Substitution :=
  k x.stage.bindings x.stage.vocabulary

/-- The finding as one for something else that holds for this reason. -/
def map (g : α → β) (x : Finding α) : Finding β := ⟨g x.evidence, x.stage⟩

theorem map_evidence (g : α → β) (xs : List (Finding α)) :
    (xs.map (Finding.map g)).map evidence = (xs.map evidence).map g := by
  rw [List.map_map, List.map_map]
  rfl

end Finding

/-- A run that starts at a stage is made of what is done with its findings. The findings are for
all evidence of a certain kind that is possible at the stage, with different evidence each. -/
structure Splits {α : Type} (s : Stage) (kind : Set α) (C : α → Condition)
    (k : Continuation Substitution) (t : Trace Substitution) (xs : List (Finding α)) : Prop where
  entries : t.entries = xs.flatMap fun x => (x.followUp k).entries
  finished : ∀ x ∈ xs, (x.followUp k).Finished
  settles : ∀ x ∈ xs, s.Settles (C x.evidence) x.stage
  nodup : (xs.map Finding.evidence).Nodup
  mem_kind : ∀ x ∈ xs, x.evidence ∈ kind
  covers : ∀ e ∈ kind, ∀ ρ, Instantiates ρ s.bindings → C e ρ → ∃ x ∈ xs, x.evidence = e

section Splitting

variable {α β : Type} {s s' : Stage} {kind kind' : Set α} {C : α → Condition}
  {k : Continuation Substitution} {t : Trace Substitution} {xs ys : List (Finding α)}

theorem splits_done (V : Vocabulary)
    (h : ∀ e ∈ kind, ∀ ρ, Instantiates ρ s.bindings → ¬C e ρ) :
    Splits s kind C k (.done V) [] where
  entries := rfl
  finished := by simp
  settles := by simp
  nodup := by simp
  mem_kind := by simp
  covers := fun e he ρ hρ hC => absurd hC (h e he ρ hρ)

theorem splits_single {x : Finding α} (hfinished : (x.followUp k).Finished)
    (hsettles : s.Settles (C x.evidence) x.stage) (hx : x.evidence ∈ kind)
    (h : ∀ e ∈ kind, ∀ ρ, Instantiates ρ s.bindings → C e ρ → e = x.evidence) :
    Splits s kind C k (x.followUp k) [x] where
  entries := by simp
  finished := by simpa using hfinished
  settles := by simpa using hsettles
  nodup := by simp
  mem_kind := by simpa using hx
  covers := fun e he ρ hρ hC => ⟨x, by simp, (h e he ρ hρ hC).symm⟩

theorem Splits.append {next : Vocabulary → Trace Substitution} {V : Vocabulary}
    (hV : t.ending = .exhausted V) (hkinds : ∀ e ∈ kind, e ∉ kind') (h : Splits s kind C k t xs)
    (h' : Splits s kind' C k (next V) ys) :
    Splits s (kind ∪ kind') C k (t.andThen next) (xs ++ ys) where
  entries := by
    rw [Trace.andThen_of_exhausted _ hV, h.entries, h'.entries, List.flatMap_append]
  finished := List.forall_mem_append.mpr ⟨h.finished, h'.finished⟩
  settles := List.forall_mem_append.mpr ⟨h.settles, h'.settles⟩
  nodup := by
    rw [List.map_append, List.nodup_append]
    refine ⟨h.nodup, h'.nodup, ?_⟩
    intro e he e' he' heq
    obtain ⟨x, hx, rfl⟩ := List.mem_map.mp he
    obtain ⟨y, hy, rfl⟩ := List.mem_map.mp he'
    have hmem := h'.mem_kind y hy
    rw [← heq] at hmem
    exact hkinds _ (h.mem_kind x hx) hmem
  mem_kind := List.forall_mem_append.mpr
    ⟨fun x hx => Or.inl (h.mem_kind x hx), fun y hy => Or.inr (h'.mem_kind y hy)⟩
  covers := by
    intro e he ρ hρ hC
    rcases he with he | he
    · obtain ⟨x, hx, rfl⟩ := h.covers e he ρ hρ hC
      exact ⟨x, List.mem_append_left _ hx, rfl⟩
    · obtain ⟨y, hy, rfl⟩ := h'.covers e he ρ hρ hC
      exact ⟨y, List.mem_append_right _ hy, rfl⟩

theorem Splits.lift {kind' : Set β} {D : β → Condition} {g : α → β} (hg : g.Injective)
    (hreduces : ∀ e, s.Reduces (D (g e)) s' (C e)) (hkind : ∀ e ∈ kind, g e ∈ kind')
    (hcovers : ∀ e' ∈ kind', ∀ ρ, Instantiates ρ s.bindings → D e' ρ → ∃ e ∈ kind, g e = e')
    (h : Splits s' kind C k t xs) :
    Splits s kind' D k t (xs.map (Finding.map g)) where
  entries := by
    rw [h.entries, List.flatMap_map]
    rfl
  finished := List.forall_mem_map.mpr h.finished
  settles := List.forall_mem_map.mpr fun x hx => (hreduces x.evidence).trans (h.settles x hx)
  nodup := by
    rw [Finding.map_evidence]
    exact h.nodup.map hg
  mem_kind := List.forall_mem_map.mpr fun x hx => hkind _ (h.mem_kind x hx)
  covers := by
    intro e' he' ρ hρ hD
    obtain ⟨e, he, rfl⟩ := hcovers e' he' ρ hρ hD
    obtain ⟨ρ', -, hρ', hC⟩ := (hreduces e).complete ρ hρ hD
    obtain ⟨x, hx, rfl⟩ := h.covers e he ρ' hρ' hC
    exact ⟨_, List.mem_map_of_mem hx, rfl⟩

/-- Every finding of a run is followed by the findings of a second one. A condition on what was
allocated at the start means the same at the start of the second run. -/
theorem Splits.bind {D : β → Condition} {k' : Continuation Substitution}
    (hD : ∀ e ρ ρ', AgreeOn s.vocabulary ρ' ρ → D e ρ → D e ρ')
    (h : Splits s Set.univ C k' t xs) {ys : Finding α → List (Finding β)}
    (hys : ∀ x ∈ xs, Splits x.stage Set.univ D k (x.followUp k') (ys x)) :
    Splits s Set.univ (fun e ρ => C e.1 ρ ∧ D e.2 ρ) k t
      (xs.flatMap fun x => (ys x).map (Finding.map (Prod.mk x.evidence))) where
  entries := by
    rw [h.entries, List.flatMap_assoc]
    apply List.flatMap_congr
    intro x hx
    rw [(hys x hx).entries, List.flatMap_map]
    rfl
  finished := by
    simp only [List.mem_flatMap, List.mem_map]
    rintro _ ⟨x, hx, y, hy, rfl⟩
    exact (hys x hx).finished y hy
  settles := by
    simp only [List.mem_flatMap, List.mem_map]
    rintro _ ⟨x, hx, y, hy, rfl⟩
    exact ((h.settles x hx).frame (hD y.evidence)).trans ((hys x hx).settles y hy)
  nodup := by
    rw [List.map_flatMap, List.nodup_flatMap]
    constructor
    · intro x hx
      rw [Finding.map_evidence]
      exact (hys x hx).nodup.map (Prod.mk_right_injective x.evidence)
    · apply (List.pairwise_map.mp h.nodup).imp
      intro x x' hne e he he'
      simp only [Finding.map_evidence, List.mem_map] at he he'
      obtain ⟨_, -, rfl⟩ := he
      obtain ⟨_, -, heq⟩ := he'
      exact hne (Prod.mk.inj heq).1.symm
  mem_kind := fun _ _ => Set.mem_univ _
  covers := by
    rintro ⟨e, e'⟩ - ρ hρ ⟨hC, hDρ⟩
    obtain ⟨x, hx, rfl⟩ := h.covers e (Set.mem_univ _) ρ hρ hC
    obtain ⟨ρ', -, hρ', hD'⟩ := ((h.settles x hx).frame (hD e')).complete ρ hρ ⟨hC, hDρ⟩
    obtain ⟨y, hy, rfl⟩ := (hys x hx).covers e' (Set.mem_univ _) ρ' hρ' hD'
    exact ⟨_, List.mem_flatMap.mpr ⟨x, hx, List.mem_map_of_mem hy⟩, rfl⟩

end Splitting

section Rules

variable {P : Program} {s : Stage} {d i : ℕ} {goal : Atom} {k : Continuation Substitution}

/-- The derivations by a clause from some place of the program on. -/
def Onward (i : ℕ) : Set Derivation := {e | ∃ j, i ≤ j ∧ e.clause? = some j}

theorem onward_eq_union (i : ℕ) :
    Onward i = {e | e.clause? = some i} ∪ Onward (i + 1) := by
  ext e
  constructor
  · rintro ⟨j, hj, he⟩
    rcases hj.eq_or_lt with rfl | hj
    · exact Or.inl he
    · exact Or.inr ⟨j, hj, he⟩
  · rintro (he | ⟨j, hj, he⟩)
    · exact ⟨i, le_rfl, he⟩
    · exact ⟨j, by omega, he⟩

theorem not_mem_onward {i : ℕ} {e : Derivation} (he : e.clause? = some i) :
    e ∉ Onward (i + 1) := by
  rintro ⟨j, hj, he'⟩
  obtain rfl : i = j := Option.some.inj (he.symm.trans he')
  omega

/-- The runs on a formula that come to their ends are made of findings, one for each derivation
of the formula. -/
def Explained (P : Program) (d : ℕ) (f : Formula) : Prop :=
  ∀ ⦃s : Stage⦄ ⦃k : Continuation Substitution⦄, s.vocabulary.Allocated f.occurrences → k.Grows →
    (solve P halting d f s.bindings k s.vocabulary).Finished →
      ∃ xs, Splits s Set.univ (fun e ρ => Derives P e (f.bind ρ)) k
        (solve P halting d f s.bindings k s.vocabulary) xs

section Copies

variable {copy : Clause} {head : Atom} {body : Formula} {σ : Substitution} {V : Vocabulary}

theorem splits_passed (hcopy : s.Copies P i copy V)
    (hgoal : s.vocabulary.Allocated goal.occurrences)
    (h : ∀ head, copy.head? = some head → ∀ σ, unify (.atom goal) (.atom head) s.bindings ≠ .ok σ) :
    Splits s {e | e.clause? = some i} (fun e ρ => Derives P e (.atom (goal.bind ρ))) k
      (.done V) [] := by
  refine splits_done V fun e he ρ hρ hderives => ?_
  obtain ⟨head, σ, hhead, hσ⟩ := (hderives.remains he hcopy hgoal hρ).exists_unifier
  exact h head hhead σ hσ

theorem exists_splits_fact (hcopy : s.Copies P i (.fact head) V)
    (hgoal : s.vocabulary.Allocated goal.occurrences)
    (hσ : unify (.atom goal) (.atom head) s.bindings = .ok σ) (h : (k σ V).Finished) :
    ∃ xs, Splits s {e | e.clause? = some i} (fun e ρ => Derives P e (.atom (goal.bind ρ))) k
      (k σ V) xs := by
  let x : Finding Derivation := ⟨.fact i, .unified hcopy (List.Subset.refl _) hgoal hσ⟩
  have hx : (x.followUp k).Finished := h
  refine ⟨[x], splits_single hx (settles_fact hcopy hgoal hσ) rfl fun e he ρ hρ hderives => ?_⟩
  cases hderives.remains he hcopy hgoal hρ with
  | fact => rfl
  | rule hrule => cases hrule

theorem exists_splits_rule (hbodies : ∀ f, Explained P d f)
    (hcopy : s.Copies P i (.rule head body) V)
    (hgoal : s.vocabulary.Allocated goal.occurrences) (hk : k.Grows)
    (hσ : unify (.atom goal) (.atom head) s.bindings = .ok σ)
    (h : (solve P halting d body σ k V).Finished) :
    ∃ xs, Splits s {e | e.clause? = some i} (fun e ρ => Derives P e (.atom (goal.bind ρ))) k
      (solve P halting d body σ k V) xs := by
  let s' : Stage := .unified hcopy (List.subset_append_left _ _) hgoal hσ
  have hbody : s'.vocabulary.Allocated body.occurrences :=
    hcopy.allocated.subset (List.subset_append_right _ _)
  obtain ⟨xs, hxs⟩ := hbodies body hbody hk h
  refine ⟨_, hxs.lift (g := .rule i) (fun e e' heq => (Derivation.rule.inj heq).2)
    (reduces_rule hcopy hgoal hσ) (fun e _ => rfl) fun e' he' ρ hρ hderives => ?_⟩
  cases hderives.remains he' hcopy hgoal hρ with
  | fact hfact => cases hfact
  | rule => exact ⟨_, Set.mem_univ _, rfl⟩

theorem exists_splits_tryRule (hbodies : ∀ f, Explained P d f) (hcopy : s.Copies P i copy V)
    (hgoal : s.vocabulary.Allocated goal.occurrences) (hk : k.Grows)
    (h : (tryRule (solve P halting d) goal s.bindings k copy V).Finished) :
    ∃ xs, Splits s {e | e.clause? = some i} (fun e ρ => Derives P e (.atom (goal.bind ρ))) k
      (tryRule (solve P halting d) goal s.bindings k copy V) xs := by
  cases copy with
  | goal body => exact ⟨[], splits_passed hcopy hgoal (by simp [Clause.head?])⟩
  | fact head =>
    rw [tryRule] at h ⊢
    cases hσ : unify (.atom goal) (.atom head) s.bindings with
    | error clash => exact ⟨[], splits_passed hcopy hgoal (by simp [Clause.head?, hσ])⟩
    | ok σ =>
      rw [hσ] at h
      exact exists_splits_fact hcopy hgoal hσ h
  | rule head body =>
    rw [tryRule] at h ⊢
    cases hσ : unify (.atom goal) (.atom head) s.bindings with
    | error clash => exact ⟨[], splits_passed hcopy hgoal (by simp [Clause.head?, hσ])⟩
    | ok σ =>
      rw [hσ] at h
      exact exists_splits_rule hbodies hcopy hgoal hk hσ h

end Copies

/-- The clauses from some place on find the derivations by these clauses, by induction on how
many of them are left. -/
theorem exists_splits_tryRules (hbodies : ∀ f, Explained P d f)
    (hgoal : s.vocabulary.Allocated goal.occurrences) (hk : k.Grows) {rules : List Clause}
    (hrules : P.clauses.toList.drop i = rules) {V : Vocabulary}
    (hV : s.vocabulary.varCount ≤ V.varCount)
    (h : (tryRules (solve P halting d) goal s.bindings k rules V).Finished) :
    ∃ xs, Splits s (Onward i) (fun e ρ => Derives P e (.atom (goal.bind ρ))) k
      (tryRules (solve P halting d) goal s.bindings k rules V) xs := by
  induction rules generalizing i V with
  | nil =>
    refine ⟨[], splits_done V ?_⟩
    rintro e ⟨j, hj, he⟩ ρ - hderives
    obtain ⟨j', c, he', hc⟩ := hderives.exists_clause
    obtain rfl : j = j' := Option.some.inj (he.symm.trans he')
    have hlength : P.clauses.size ≤ i := by simpa using List.drop_eq_nil_iff.mp hrules
    have hlt : j < P.clauses.size := (Array.getElem?_eq_some_iff.mp hc).1
    omega
  | cons rule rules ih =>
    obtain ⟨hrule, hrest⟩ : P.get? i = some rule ∧ P.clauses.toList.drop (i + 1) = rules := by
      cases hc : P.get? i with
      | none => simp [drop_of_get?_none hc] at hrules
      | some c => simpa [drop_of_get? hc] using hrules
    rcases hcopy : rule.standardizeApart V with ⟨e | copy, V'⟩
    · rw [tryRules, hcopy] at h
      exact absurd h Trace.not_finished_failed
    · have hcopies : s.Copies P i copy V' := ⟨rule, V, hrule, hV, hcopy⟩
      rw [tryRules_cons rules hcopy] at h ⊢
      obtain ⟨U, hU⟩ := h.left
      have hgrows : s.vocabulary.varCount ≤ U.varCount :=
        hcopies.grows.trans (tryRule_grows (solve_grows P d) hk goal s.bindings copy V' U hU)
      obtain ⟨xs, hxs⟩ := exists_splits_tryRule hbodies hcopies hgoal hk h.left
      obtain ⟨ys, hys⟩ := ih hrest hgrows (h.right hU)
      rw [onward_eq_union i]
      exact ⟨xs ++ ys, hxs.append hU (fun _ => not_mem_onward) hys⟩

end Rules

section Goals

variable {P : Program} {d : ℕ}

theorem explained_atom (hbodies : ∀ f, Explained P d f) (goal : Atom) :
    Explained P (d + 1) (.atom goal) := by
  intro s k hgoal hk h
  rw [Formula.occurrences_atom] at hgoal
  rw [solve_halting_atom] at h ⊢
  obtain ⟨xs, hxs⟩ := exists_splits_tryRules (i := 0) hbodies hgoal hk rfl le_rfl h
  simp only [Formula.bind_atom]
  refine ⟨xs, { hxs with mem_kind := fun _ _ => Set.mem_univ _, covers := ?_ }⟩
  intro e _ ρ hρ hderives
  obtain ⟨i, c, he, -⟩ := hderives.exists_clause
  exact hxs.covers e ⟨i, Nat.zero_le i, he⟩ ρ hρ hderives

/-- Derivations of the operands, one for each of them. -/
def OperandsDerive (P : Program) (fs : List Formula) (ts : List Derivation) : Condition :=
  fun ρ => List.Forall₂ (fun t f => Derives P t (f.bind ρ)) ts fs

theorem OperandsDerive.congr {fs : List Formula} {ts : List Derivation} {V : Vocabulary}
    (hfs : ∀ f ∈ fs, V.Allocated f.occurrences) {ρ ρ' : Var → Term} (hagree : AgreeOn V ρ' ρ)
    (h : OperandsDerive P fs ts ρ) : OperandsDerive P fs ts ρ' := by
  induction h with
  | nil => exact .nil
  | cons ht _ ih =>
    refine .cons ?_ (ih fun f hf => hfs f (List.mem_cons_of_mem _ hf))
    rwa [hagree.bind_eq (hfs _ (by simp))]

theorem exists_splits_operands {fs : List Formula} (hfs : ∀ f ∈ fs, Explained P (d + 1) f)
    {s : Stage} {k : Continuation Substitution}
    (hvars : ∀ f ∈ fs, s.vocabulary.Allocated f.occurrences) (hk : k.Grows)
    (h : (solve P halting (d + 1) (.conj fs) s.bindings k s.vocabulary).Finished) :
    ∃ xs, Splits s Set.univ (OperandsDerive P fs) k
      (solve P halting (d + 1) (.conj fs) s.bindings k s.vocabulary) xs := by
  induction fs generalizing s with
  | nil =>
    rw [solve, solveWith, solveOperands] at h
    exact absurd h Trace.not_finished_failed
  | cons f fs ih =>
    have hf := hfs f (by simp)
    have hfvars := hvars f (by simp)
    cases fs with
    | nil =>
      rw [solve_single] at h ⊢
      obtain ⟨xs, hxs⟩ := hf hfvars hk h
      refine ⟨_, hxs.lift (g := fun t => [t]) (fun t t' heq => List.singleton_inj.mp heq)
        (fun t => s.reduces_of_iff fun ρ => ?_) (fun _ _ => Set.mem_univ _) ?_⟩
      · simp [OperandsDerive]
      · intro ts _ ρ _ hts
        obtain ⟨t, ts, -, hnil, rfl⟩ := List.forall₂_cons_right_iff.mp hts
        obtain rfl := List.forall₂_nil_right_iff.mp hnil
        exact ⟨t, Set.mem_univ _, rfl⟩
    | cons g gs =>
      rw [solve_conj] at h ⊢
      have hgvars : ∀ f' ∈ g :: gs, s.vocabulary.Allocated f'.occurrences :=
        fun f' hf' => hvars f' (List.mem_cons_of_mem f hf')
      have hgrows : Continuation.Grows fun σ => solve P halting (d + 1) (.conj (g :: gs)) σ k :=
        fun σ W => solve_grows P (d + 1) _ σ k W hk
      obtain ⟨xs, hxs⟩ := hf hfvars hgrows h
      have hrest : ∀ x ∈ xs, ∃ ys, Splits x.stage Set.univ (OperandsDerive P (g :: gs)) k
          (solve P halting (d + 1) (.conj (g :: gs)) x.stage.bindings k x.stage.vocabulary) ys := by
        intro x hx
        have hlater : ∀ f' ∈ g :: gs, x.stage.vocabulary.Allocated f'.occurrences :=
          fun f' hf' => (hgvars f' hf').mono (hxs.settles x hx).grows
        exact ih (fun f' hf' => hfs f' (List.mem_cons_of_mem f hf')) hlater (hxs.finished x hx)
      choose! ys hys using hrest
      have hpairs := hxs.bind (D := OperandsDerive P (g :: gs))
        (fun ts ρ ρ' hagree => OperandsDerive.congr hgvars hagree) hys
      refine ⟨_, hpairs.lift (g := fun e => e.1 :: e.2) ?_ (fun e => s.reduces_of_iff fun ρ => ?_)
        (fun _ _ => Set.mem_univ _) ?_⟩
      · rintro ⟨t, ts⟩ ⟨t', ts'⟩ heq
        obtain ⟨rfl, rfl⟩ := List.cons.inj heq
        rfl
      · exact List.forall₂_cons
      · intro ts _ ρ _ hts
        obtain ⟨t, ts, -, -, rfl⟩ := List.forall₂_cons_right_iff.mp hts
        exact ⟨(t, ts), Set.mem_univ _, rfl⟩

theorem explained_conj {fs : List Formula} (hfs : ∀ f ∈ fs, Explained P (d + 1) f) :
    Explained P (d + 1) (.conj fs) := by
  intro s k hvars hk h
  have hne : fs ≠ [] := by
    rintro rfl
    rw [solve, solveWith, solveOperands] at h
    exact Trace.not_finished_failed h
  have hfvars : ∀ f ∈ fs, s.vocabulary.Allocated f.occurrences :=
    fun f hf v hv => hvars v (Formula.mem_occurrences_conj.mpr ⟨f, hf, hv⟩)
  obtain ⟨xs, hxs⟩ := exists_splits_operands hfs hfvars hk h
  simp only [Formula.bind_conj]
  refine ⟨_, hxs.lift (g := .conj) (fun ts ts' heq => Derivation.conj.inj heq)
    (fun ts => s.reduces_of_iff fun ρ => ?_) (fun _ _ => Set.mem_univ _) ?_⟩
  · constructor
    · rintro (_ | _ | ⟨-, hts⟩)
      exact List.forall₂_map_right_iff.mp hts
    · intro hts
      exact .conj (by simpa using hne) (List.forall₂_map_right_iff.mpr hts)
  · rintro e - ρ - (_ | _ | ⟨-, hts⟩)
    exact ⟨_, Set.mem_univ _, rfl⟩

/-- Every run that comes to its end is made of one finding for each derivation, by induction on
its depth and then on the formula. -/
theorem explained (P : Program) (d : ℕ) (f : Formula) : Explained P d f := by
  induction d generalizing f with
  | zero =>
    intro s k _ _ h
    exact absurd h Trace.not_finished_unfinished
  | succ d hbodies =>
    induction f using Formula.induction with
    | atom a => exact explained_atom hbodies a
    | conj fs ih => exact explained_conj ih
    | disj fs _ =>
      intro s k _ _ h
      rw [solve, solveWith] at h
      exact absurd h Trace.not_finished_failed
    | neg f _ =>
      intro s k _ _ h
      rw [solve, solveWith] at h
      exact absurd h Trace.not_finished_failed

end Goals

end DepthFirst

end HornResolution
