import HornResolution.Proofs.SinglePassCopies
import HornResolution.Proofs.VocabularyTables

/-!
# What a copy over fresh variables is

The variables of a clause, in the order in which they first appear, are replaced by the next numbers
of the vocabulary, and nothing else about the clause changes. The new variables have the display
names of those they stand for, so a copy reads like its clause. Nothing that was in the vocabulary
before is touched. Later copies, of whatever clauses, go on from where this one ended and share no
variable with it.
-/

namespace HornResolution

section Texts

variable {N N' : Naming} {π : Var → Var}

theorem Term.render_relabelling (hsymbol : N'.symbol = N.symbol) {t : Term}
    (hvar : ∀ v ∈ t.occurrences, N'.var (π v) = N.var v) :
    (t.bind (relabelling π)).render N' = t.render N := by
  induction t using Term.induction with
  | var v =>
    rw [Term.bind_var, relabelling, render_var, render_var]
    exact hvar v (by simp)
  | app f args ih =>
    rw [Term.bind_app, render_app, render_app, hsymbol, List.map_map]
    congr 1
    apply List.map_congr_left
    intro t ht
    exact ih t ht fun v hv => hvar v (by simpa using ⟨t, ht, hv⟩)

theorem Atom.render_relabelling (hsymbol : N'.symbol = N.symbol) {a : Atom}
    (hvar : ∀ v ∈ a.occurrences, N'.var (π v) = N.var v) :
    (a.bind (relabelling π)).render N' = a.render N := by
  simp only [Atom.render, Atom.bind, Atom.mapTerms, hsymbol, List.map_map]
  congr 1
  apply List.map_congr_left
  intro t ht
  exact Term.render_relabelling hsymbol fun v hv => hvar v (List.mem_flatMap.mpr ⟨t, ht, hv⟩)

namespace Formula

theorem renderOperands_eq_map (N : Naming) (fs : List Formula) :
    renderOperands N fs = fs.map fun f => f.grouped (f.render N) := by
  induction fs with
  | nil => rfl
  | cons f fs ih => rw [renderOperands, ih, List.map_cons]

theorem isGroup_bind (ρ : Var → Term) (f : Formula) : (f.bind ρ).isGroup = f.isGroup := by
  cases f with
  | atom a => rw [bind_atom, isGroup, isGroup] <;> simp
  | conj fs => rw [bind_conj]; rcases fs with - | ⟨f, - | ⟨g, fs⟩⟩ <;> rfl
  | disj fs => rw [bind_disj]; rcases fs with - | ⟨f, - | ⟨g, fs⟩⟩ <;> rfl
  | neg f => rw [bind_neg, isGroup, isGroup] <;> simp

theorem renderOperands_relabelling {fs : List Formula}
    (h : ∀ f ∈ fs, (f.bind (relabelling π)).render N' = f.render N) :
    renderOperands N' (fs.map (Formula.bind (relabelling π))) = renderOperands N fs := by
  rw [renderOperands_eq_map, renderOperands_eq_map, List.map_map]
  apply List.map_congr_left
  intro f hf
  rw [Function.comp_apply, h f hf, grouped, grouped, isGroup_bind]

theorem render_relabelling (hsymbol : N'.symbol = N.symbol) {f : Formula}
    (hvar : ∀ v ∈ f.occurrences, N'.var (π v) = N.var v) :
    (f.bind (relabelling π)).render N' = f.render N := by
  induction f using Formula.induction with
  | atom a =>
    rw [occurrences_atom] at hvar
    rw [bind_atom, render, render, Atom.render_relabelling hsymbol hvar]
  | conj fs ih =>
    rw [bind_conj, render, render, renderOperands_relabelling]
    intro f hf
    exact ih f hf fun v hv => hvar v (mem_occurrences_conj.mpr ⟨f, hf, hv⟩)
  | disj fs ih =>
    rw [bind_disj, render, render, renderOperands_relabelling]
    intro f hf
    exact ih f hf fun v hv => hvar v (mem_occurrences_conj.mpr ⟨f, hf, hv⟩)
  | neg f ih => rw [bind_neg, render, render, ih hvar, grouped, grouped, isGroup_bind]

end Formula

theorem Clause.render_relabelling (hsymbol : N'.symbol = N.symbol) {c : Clause}
    (hvar : ∀ v ∈ c.occurrences, N'.var (π v) = N.var v) :
    (c.bind (relabelling π)).render N' = c.render N := by
  cases c with
  | fact a => exact Atom.render_relabelling hsymbol hvar
  | rule a f =>
    rw [bind_rule, render, render,
      Atom.render_relabelling hsymbol fun v hv => hvar v (List.mem_append_left _ hv),
      Formula.render_relabelling hsymbol fun v hv => hvar v (List.mem_append_right _ hv)]
  | goal f => rw [bind_goal, render, render, Formula.render_relabelling hsymbol hvar]

variable {V V' : Vocabulary}

theorem Vocabulary.name?_eq (hnames : V'.names = V.names) : V'.name? = V.name? := by
  funext s
  rw [name?, name?, hnames]

theorem Clause.text?_relabelling {c : Clause} (hnames : V'.names = V.names)
    (hvar : ∀ v ∈ c.occurrences,
      (V.varName? v).isSome ∧ V'.varName? (π v) = V.varName? v ∧
        V.knowsVar v = true ∧ V'.knowsVar (π v) = true) :
    (c.bind (relabelling π)).text? V' = c.text? V := by
  have hsymbol : V'.knowsSymbol = V.knowsSymbol := by
    funext s
    rw [Vocabulary.knowsSymbol, Vocabulary.knowsSymbol, Vocabulary.symbolCount,
      Vocabulary.symbolCount, hnames]
  have hknows : V'.knows (c.bind (relabelling π)).symbols (c.bind (relabelling π)).occurrences =
      V.knows c.symbols c.occurrences := by
    have hleft : (c.occurrences.map π).all V'.knowsVar = true := by
      simpa using fun v hv => (hvar v hv).2.2.2
    have hright : c.occurrences.all V.knowsVar = true := by
      simpa using fun v hv => (hvar v hv).2.2.1
    rw [Vocabulary.knows, Vocabulary.knows, symbols_relabelling, occurrences_relabelling, hsymbol,
      hleft, hright]
  have hrender : (c.bind (relabelling π)).render V'.naming = c.render V.naming := by
    apply render_relabelling
    · simp only [Vocabulary.naming, Vocabulary.name?_eq hnames]
    · intro v hv
      obtain ⟨name, hsome⟩ := Option.isSome_iff_exists.mp (hvar v hv).1
      simp [Vocabulary.naming, (hvar v hv).2.1, hsome]
  rw [text?, text?, Vocabulary.text?, Vocabulary.text?, hknows, hrender]

end Texts

section Numbering

variable {V V' : Vocabulary} {r : Renaming} {vs : List Var} {c copy : Clause}

theorem Renaming.grows_cover (vs : List Var) (r : Renaming) (V : Vocabulary) :
    V.Grows (r.cover vs V).vocabulary := by
  induction vs generalizing r V with
  | nil => exact .refl V
  | cons v vs ih =>
    rw [cover]
    split
    · exact ih r V
    · split
      · exact .refl V
      · exact (V.grows_allocate _).trans (ih _ _)

theorem Renaming.varSymbol?_cover (hnodup : vs.Nodup) (hnew : ∀ v ∈ vs, r.image? v = none)
    (hvs : V.Allocated vs) {v : Var} (hv : v ∈ vs) :
    (r.cover vs V).vocabulary.varSymbol? ⟨V.varCount + vs.idxOf v⟩ = V.varSymbol? v := by
  induction vs generalizing r V with
  | nil => simp at hv
  | cons u vs ih =>
    obtain ⟨hu, hnodup⟩ := List.nodup_cons.mp hnodup
    obtain ⟨hknown, hvs⟩ : V.knowsVar u = true ∧ V.Allocated vs := List.forall_mem_cons.mp hvs
    have hunew := hnew u (by simp)
    obtain ⟨s, hs⟩ := Vocabulary.exists_varSymbol? hknown
    rw [cover_cons_known hunew hs]
    by_cases hvu : v = u
    · subst hvu
      rw [List.idxOf_cons_self, Nat.add_zero, hs]
      exact (grows_cover vs _ _).varSymbol? (V.varSymbol?_allocate s)
    · have hv : v ∈ vs := (List.mem_cons.mp hv).resolve_left hvu
      have hadd : ∀ x ∈ vs, (r.add u ⟨V.varCount⟩).image? x = none := by
        intro x hx
        have hxu : x ≠ u := fun h => hu (h ▸ hx)
        simp [image?_add, hnew x (by simp [hx]), hxu]
      have hle : V.varCount ≤ (V.allocate s).2.varCount := by simp
      have hrest := ih hnodup hadd (hvs.mono hle) hv
      rw [Vocabulary.varSymbol?_allocate_of_knows (hvs v hv), Vocabulary.varCount_allocate] at hrest
      rw [List.idxOf_cons_ne _ (Ne.symm hvu), ← hrest]
      congr 2
      omega

/-- What a copy is, and what the vocabulary is after it was made. -/
structure Clause.FreshCopy (c : Clause) (V : Vocabulary) (copy : Clause) (V' : Vocabulary) :
    Prop where
  /-- Each variable is replaced by the number that is as far from the first new one as the variable
  is from the first of the clause. -/
  renumbered : copy = c.bind (relabelling fun v => ⟨V.varCount + c.vars.idxOf v⟩)
  varCount : V'.varCount = V.varCount + c.vars.length
  varSymbol : ∀ v ∈ c.vars, V'.varSymbol? ⟨V.varCount + c.vars.idxOf v⟩ = V.varSymbol? v
  varName : ∀ v ∈ c.vars, V'.varName? ⟨V.varCount + c.vars.idxOf v⟩ = V.varName? v
  kept : ∀ v, V.knowsVar v = true →
    V'.varSymbol? v = V.varSymbol? v ∧ V'.varName? v = V.varName? v
  names : V'.names = V.names
  generated : V'.generated = V.generated

theorem Vocabulary.varName?_eq {v w : Var} (hnames : V'.names = V.names)
    (h : V'.varSymbol? w = V.varSymbol? v) : V'.varName? w = V.varName? v := by
  rw [varName?, varName?, h, name?_eq hnames]

theorem Clause.freshCopy (hc : V.Allocated c.occurrences)
    (h : c.standardizeApart V = (.ok copy, V')) : c.FreshCopy V copy V' := by
  obtain ⟨hcount, r, rfl, himage⟩ := standardizeApart_ok h
  obtain ⟨hnames, hgenerated⟩ := names_standardizeApart h
  obtain rfl : (Renaming.empty.cover c.vars V).vocabulary = V' := congrArg Prod.snd h
  have hfresh : ∀ v ∈ c.vars, (Renaming.empty.cover c.vars V).vocabulary.varSymbol?
      ⟨V.varCount + c.vars.idxOf v⟩ = V.varSymbol? v := fun v hv =>
    Renaming.varSymbol?_cover c.nodup_vars (fun _ _ => rfl) (fun u hu => hc u (mem_vars.mp hu)) hv
  have hkept : ∀ v, V.knowsVar v = true →
      (Renaming.empty.cover c.vars V).vocabulary.varSymbol? v = V.varSymbol? v := by
    intro v hv
    obtain ⟨s, hs⟩ := Vocabulary.exists_varSymbol? hv
    rw [hs]
    exact (Renaming.grows_cover c.vars .empty V).varSymbol? hs
  refine ⟨?_, hcount, hfresh, ?_, ?_, hnames, hgenerated⟩
  · apply bind_congr
    intro v hv
    exact congrArg Term.var (himage v (mem_vars.mpr hv))
  · exact fun v hv => Vocabulary.varName?_eq hnames (hfresh v hv)
  · exact fun v hv => ⟨hkept v hv, Vocabulary.varName?_eq hnames (hkept v hv)⟩

theorem Clause.FreshCopy.vars_eq (h : c.FreshCopy V copy V') :
    copy.vars = (List.range' V.varCount c.vars.length).map Var.mk := by
  have hinj : Set.InjOn (fun v => (⟨V.varCount + c.vars.idxOf v⟩ : Var))
      {v | v ∈ c.occurrences} := by
    intro v hv w _ hvw
    have hidx : c.vars.idxOf v = c.vars.idxOf w := by simpa using hvw
    exact (List.idxOf_inj (mem_vars.mpr hv)).mp hidx
  rw [h.renumbered, vars_relabelling hinj]
  apply List.ext_getElem
  · simp
  · intro i hi hi'
    simp [c.nodup_vars.idxOf_getElem]

theorem Clause.FreshCopy.text?_eq (h : c.FreshCopy V copy V') (hV : V.Coherent)
    (hc : V.Allocated c.occurrences) :
    copy.text? V' = c.text? V ∧ c.text? V' = c.text? V := by
  have hnamed : ∀ v ∈ c.occurrences, (V.varName? v).isSome := by
    have hknows : V.knows [] c.occurrences = true := by
      simpa [Vocabulary.knows, Vocabulary.Allocated] using hc
    exact (hV.isSome_names hknows).2
  constructor
  · rw [h.renumbered]
    refine text?_relabelling h.names fun v hv => ⟨hnamed v hv, ?_, hc v hv, ?_⟩
    · exact h.varName v (mem_vars.mpr hv)
    · have hlt := List.idxOf_lt_length_of_mem (mem_vars.mpr hv)
      have hcount := h.varCount
      simp only [Vocabulary.knowsVar, decide_eq_true_eq]
      omega
  · have hself := text?_relabelling (π := id) h.names fun v hv =>
      ⟨hnamed v hv, (h.kept v (hc v hv)).2, hc v hv,
        Vocabulary.knowsVar_of_le (by simp [h.varCount]) (hc v hv)⟩
    rwa [bind_relabelling_id] at hself

end Numbering

/-- Standardizing apart is an exact renaming, determined by the order of first appearance. Every
clause over allocated variables has a copy, which a single pass over the clause would give as well.
The copy has the next numbers in place of the variables of the clause and is the same otherwise; the
new variables have the display names of the old ones, and nothing else changes in the vocabulary. So
the variables of the copy are numbered in turn, the copy reads like the clause, a clause without
variables is its own copy, and the next copy, of whatever clause, has other variables. -/
theorem standardizeApart_renumbers {c : Clause} {V : Vocabulary} (hV : V.Coherent)
    (hc : V.Allocated c.occurrences) :
    ∃ copy V', c.standardizeApart V = (.ok copy, V') ∧
      (∃ r, c.copying.run (.empty, V) = some (copy, r, V')) ∧
      c.FreshCopy V copy V' ∧
      copy.vars = (List.range' V.varCount c.vars.length).map Var.mk ∧
      (copy.text? V' = c.text? V ∧ c.text? V' = c.text? V) ∧
      (c.vars = [] → copy = c ∧ V' = V) ∧
      ∀ (d copy' : Clause) (V'' : Vocabulary), d.standardizeApart V' = (.ok copy', V'') →
        List.Disjoint copy.vars copy'.vars := by
  obtain ⟨copy, V', h⟩ := Clause.exists_copy hc
  have hfresh := Clause.freshCopy hc h
  refine ⟨copy, V', h, Clause.run_copying hc h, hfresh, hfresh.vars_eq, hfresh.text?_eq hV hc,
    fun hvars => ?_, fun d copy' V'' h' v hv hv' => ?_⟩
  · have hself : c.standardizeApart V = (.ok (c.rename .empty), V) := by
      rw [Clause.standardizeApart, hvars]
      rfl
    obtain ⟨hcopy, rfl⟩ := Prod.mk.inj (h.symm.trans hself)
    rw [Except.ok.inj hcopy]
    exact ⟨Clause.bind_relabelling_id c, rfl⟩
  · have hlt := Vocabulary.knowsVar_iff.mp (Clause.knowsVar_of_mem_copy h (Clause.mem_vars.mp hv))
    have hle := Clause.le_of_mem_copy h' (Clause.mem_vars.mp hv')
    omega

/-- Two variables with one display name, and a third with another. -/
def namesakes : Vocabulary where
  names := #["p", "f", "X", "Y"]
  varNames := #[⟨2⟩, ⟨3⟩, ⟨2⟩]

/-- Variables that are met again, inside a term and under connectives, in another order than that
of their numbers. -/
def namesakeRule : Clause :=
  .rule ⟨⟨0⟩, [.app ⟨1⟩ [.var ⟨2⟩], .var ⟨0⟩]⟩
    (.conj [.neg (.atom ⟨⟨0⟩, [.var ⟨0⟩, .var ⟨2⟩]⟩), .disj [.atom ⟨⟨0⟩, [.var ⟨1⟩, .var ⟨2⟩]⟩]])

theorem standardizeApart_renumbers_namesakeRule :
    ∃ copy V', namesakeRule.standardizeApart namesakes = (.ok copy, V') ∧
      copy = .rule ⟨⟨0⟩, [.app ⟨1⟩ [.var ⟨3⟩], .var ⟨4⟩]⟩
        (.conj [.neg (.atom ⟨⟨0⟩, [.var ⟨4⟩, .var ⟨3⟩]⟩),
          .disj [.atom ⟨⟨0⟩, [.var ⟨5⟩, .var ⟨3⟩]⟩]]) ∧
      copy.vars = [⟨3⟩, ⟨4⟩, ⟨5⟩] ∧ V'.varNames = #[⟨2⟩, ⟨3⟩, ⟨2⟩, ⟨2⟩, ⟨2⟩, ⟨3⟩] ∧
      copy.text? V' = namesakeRule.text? namesakes := by
  obtain ⟨copy, V', hcopy, -, -, hvars, htext, -⟩ :=
    standardizeApart_renumbers (c := namesakeRule) (V := namesakes) (by decide) (by decide)
  obtain ⟨hok, rfl⟩ := Prod.mk.inj hcopy
  obtain rfl := Except.ok.inj hok
  exact ⟨_, _, rfl, rfl, hvars, by decide, htext.1⟩

end HornResolution
