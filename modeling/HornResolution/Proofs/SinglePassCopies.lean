import HornResolution.Proofs.StandardizingApart

/-!
# Copies made in a single pass

A copy over fresh variables is made in two steps: first the variables of the clause, each listed
once, are given their fresh ones, and then all of them are replaced. It can also be made while the
clause is read from left to right, where a variable that is met for the first time is given its
fresh one on the spot, and one that was met before is replaced by the same again. Both ways hand out
the same variables in the same order, however terms and connectives are nested and variables
repeated, and come to the same copy.
-/

namespace HornResolution

/-- A copy in the making, with the variables that were met so far and the vocabulary that their
fresh ones were taken from. It ends at a variable of which nothing is known. -/
abbrev Copying := StateT (Renaming × Vocabulary) Option

/-- The fresh variable of one that is met. -/
def Copying.meet (v : Var) : Copying Var := fun (r, V) =>
  match r.image? v with
  | some w => some (w, r, V)
  | none =>
    match V.copyVar v with
    | (.ok w, V') => some (w, r.add v w, V')
    | (.error _, _) => none

namespace Term

mutual

def copying : Term → Copying Term
  | .var v => .var <$> Copying.meet v
  | .app f args => .app f <$> copyingAll args

def copyingAll : List Term → Copying (List Term)
  | [] => pure []
  | t :: ts => do return (← copying t) :: (← copyingAll ts)

end

end Term

def Atom.copying (a : Atom) : Copying Atom := Atom.mk a.symbol <$> Term.copyingAll a.args

namespace Formula

mutual

def copying : Formula → Copying Formula
  | .atom a => .atom <$> a.copying
  | .conj fs => .conj <$> copyingAll fs
  | .disj fs => .disj <$> copyingAll fs
  | .neg f => .neg <$> copying f

def copyingAll : List Formula → Copying (List Formula)
  | [] => pure []
  | f :: fs => do return (← copying f) :: (← copyingAll fs)

end

end Formula

/-- The head is read before the body, and both share their fresh variables. -/
def Clause.copying : Clause → Copying Clause
  | .fact a => .fact <$> a.copying
  | .rule a f => do return .rule (← a.copying) (← f.copying)
  | .goal f => .goal <$> f.copying

theorem Vocabulary.exists_varSymbol? {V : Vocabulary} {v : Var} (h : V.knowsVar v = true) :
    ∃ s, V.varSymbol? v = some s :=
  ⟨_, Array.getElem?_eq_getElem (knowsVar_iff.mp h)⟩

namespace Renaming

variable {r : Renaming} {V : Vocabulary} {v w : Var} {vs ws : List Var}

theorem cover_cons_met (h : (r.image? v).isSome) : r.cover (v :: vs) V = r.cover vs V := by
  rw [cover, if_pos h]

theorem image?_cover (h : r.image? v = some w) : (r.cover vs V).assigned.image? v = some w := by
  induction vs generalizing r V with
  | nil => exact h
  | cons u vs ih =>
    rw [cover]
    split
    · exact ih h
    · split
      · exact h
      · refine ih ?_
        rw [image?_add, h, Option.some_or]

theorem isSome_image?_cover (hvs : V.Allocated vs) (hv : v ∈ vs) :
    ((r.cover vs V).assigned.image? v).isSome := by
  induction vs generalizing r V with
  | nil => simp at hv
  | cons u vs ih =>
    obtain ⟨hu, hvs⟩ : V.knowsVar u = true ∧ V.Allocated vs := List.forall_mem_cons.mp hvs
    cases himage : r.image? u with
    | some x =>
      rw [cover_cons_met (by simp [himage])]
      rcases List.mem_cons.mp hv with rfl | hv
      · simp [image?_cover himage]
      · exact ih hvs hv
    | none =>
      obtain ⟨s, hs⟩ := Vocabulary.exists_varSymbol? hu
      rw [cover_cons_known himage hs]
      rcases List.mem_cons.mp hv with rfl | hv
      · have hadd : (r.add v ⟨V.varCount⟩).image? v = some ⟨V.varCount⟩ := by
          rw [image?_add, himage, if_pos rfl, Option.none_or]
        simp [image?_cover hadd]
      · exact ih (hvs.mono (by simp)) hv

theorem cover_append (h : (r.cover vs V).unknown = none) :
    r.cover (vs ++ ws) V = (r.cover vs V).assigned.cover ws (r.cover vs V).vocabulary := by
  induction vs generalizing r V with
  | nil => rfl
  | cons v vs ih =>
    rw [List.cons_append]
    cases himage : r.image? v with
    | some w =>
      rw [cover_cons_met (by simp [himage])] at h
      rw [cover_cons_met (by simp [himage]), cover_cons_met (by simp [himage]), ih h]
    | none =>
      cases hs : V.varSymbol? v with
      | none => simp [cover, himage, hs] at h
      | some s =>
        rw [cover_cons_known himage hs] at h
        rw [cover_cons_known himage hs, cover_cons_known himage hs, ih h]

theorem cover_filter_ne (h : (r.image? v).isSome) :
    r.cover (vs.filter (· ≠ v)) V = r.cover vs V := by
  induction vs generalizing r V with
  | nil => rfl
  | cons u vs ih =>
    by_cases huv : u = v
    · subst huv
      rw [List.filter_cons_of_neg (by simp), cover_cons_met h, ih h]
    · rw [List.filter_cons_of_pos (by simpa using huv), cover, cover]
      split
      · exact ih h
      · split
        · rfl
        · refine ih ?_
          obtain ⟨w, hw⟩ := Option.isSome_iff_exists.mp h
          simp [image?_add, hw]

theorem cover_distinct (vs : List Var) (r : Renaming) (V : Vocabulary) :
    r.cover (distinct vs) V = r.cover vs V := by
  induction vs generalizing r V with
  | nil => rfl
  | cons v vs ih =>
    rw [distinct]
    cases himage : r.image? v with
    | some w =>
      have hmet : (r.image? v).isSome := by simp [himage]
      rw [cover_cons_met hmet, cover_cons_met hmet, cover_filter_ne hmet, ih]
    | none =>
      cases hs : V.varSymbol? v with
      | none => simp [cover, himage, hs]
      | some s =>
        have hadd : ((r.add v ⟨V.varCount⟩).image? v).isSome := by simp [image?_add]
        rw [cover_cons_known himage hs, cover_cons_known himage hs, cover_filter_ne hadd, ih]

end Renaming

section Passing

variable {α β γ : Type} {m : Copying α} {m' : Copying β} {vs ws : List Var}
  {rename : Renaming → α} {rename' : Renaming → β}

/-- A pass meets the listed variables in their order, and makes a copy by means of what they were
given. -/
structure Copies (m : Copying α) (vs : List Var) (rename : Renaming → α) : Prop where
  /-- Only the listed variables matter to the copy. -/
  congr : ∀ r r' : Renaming, (∀ v ∈ vs, r.image v = r'.image v) → rename r = rename r'
  run : ∀ r V, V.Allocated vs → m.run (r, V) =
    some (rename (r.cover vs V).assigned, (r.cover vs V).assigned, (r.cover vs V).vocabulary)

theorem copies_pure (a : α) : Copies (pure a) [] fun _ => a where
  congr _ _ _ := rfl
  run _ _ _ := rfl

theorem copies_meet (v : Var) : Copies (Copying.meet v) [v] fun r => r.image v where
  congr r r' h := h v (by simp)
  run r V hv := by
    simp only [StateT.run, Copying.meet]
    cases himage : r.image? v with
    | some w => simp [Renaming.cover, Renaming.image, himage]
    | none =>
      obtain ⟨s, hs⟩ := Vocabulary.exists_varSymbol? (hv v (by simp))
      simp [Renaming.cover, Renaming.image, himage, hs, Vocabulary.copyVar, Renaming.image?_add]

theorem Copies.map (h : Copies m vs rename) (g : α → β) :
    Copies (g <$> m) vs fun r => g (rename r) where
  congr r r' hr := congrArg g (h.congr r r' hr)
  run r V hvs := by simp [h.run r V hvs]

theorem Copies.pair (h : Copies m vs rename) (h' : Copies m' ws rename') (g : α → β → γ) :
    Copies (do return g (← m) (← m')) (vs ++ ws) fun r => g (rename r) (rename' r) where
  congr r r' hr := by
    rw [h.congr r r' fun v hv => hr v (List.mem_append_left _ hv),
      h'.congr r r' fun v hv => hr v (List.mem_append_right _ hv)]
  run r V hall := by
    obtain ⟨hvs, hws⟩ := Vocabulary.allocated_append.mp hall
    have hkept : rename (r.cover vs V).assigned = rename (r.cover (vs ++ ws) V).assigned := by
      apply h.congr
      intro v hv
      obtain ⟨w, hw⟩ := Option.isSome_iff_exists.mp (Renaming.isSome_image?_cover (r := r) hvs hv)
      rw [Renaming.cover_append (Renaming.unknown_cover hvs), Renaming.image, Renaming.image, hw,
        Renaming.image?_cover hw]
    have hsecond := h'.run (r.cover vs V).assigned (r.cover vs V).vocabulary
      (hws.mono (Renaming.varCount_le_cover vs r V))
    rw [← Renaming.cover_append (Renaming.unknown_cover hvs)] at hsecond
    simp [h.run r V hvs, hsecond, hkept]

end Passing

section Reading

theorem Term.copies_all {ts : List Term}
    (h : ∀ t ∈ ts, Copies t.copying t.occurrences fun r => t.rename r) :
    Copies (copyingAll ts) (ts.flatMap occurrences) fun r => ts.map (rename r) := by
  induction ts with
  | nil => exact copies_pure []
  | cons t ts ih =>
    rw [copyingAll]
    exact (h t (by simp)).pair (ih fun s hs => h s (by simp [hs])) _

theorem Term.copies (t : Term) : Copies t.copying t.occurrences fun r => t.rename r := by
  induction t using Term.induction with
  | var v =>
    rw [copying]
    exact (copies_meet v).map _
  | app f args ih =>
    rw [copying, occurrences_app]
    simp only [rename, bind_app]
    exact (copies_all ih).map _

theorem Atom.copies (a : Atom) : Copies a.copying a.occurrences fun r => a.rename r :=
  (Term.copies_all fun t _ => t.copies).map _

theorem Formula.copies_all {fs : List Formula}
    (h : ∀ f ∈ fs, Copies f.copying f.occurrences fun r => f.rename r) :
    Copies (copyingAll fs) (fs.flatMap occurrences) fun r => fs.map (rename r) := by
  induction fs with
  | nil => exact copies_pure []
  | cons f fs ih =>
    rw [copyingAll]
    exact (h f (by simp)).pair (ih fun g hg => h g (by simp [hg])) _

theorem Formula.occurrences_atomsAll (fs : List Formula) :
    (atomsAll fs).flatMap Atom.occurrences = fs.flatMap occurrences := by
  rw [atomsAll_eq_flatMap, List.flatMap_assoc]
  rfl

theorem Formula.copies (f : Formula) : Copies f.copying f.occurrences fun r => f.rename r := by
  induction f using Formula.induction with
  | atom a =>
    rw [copying, occurrences_atom]
    simp only [rename, mapTerms]
    exact a.copies.map _
  | conj fs ih =>
    rw [copying, occurrences, atoms, occurrences_atomsAll]
    simp only [rename, mapTerms, mapTermsAll_eq_map]
    exact (copies_all ih).map _
  | disj fs ih =>
    rw [copying, occurrences, atoms, occurrences_atomsAll]
    simp only [rename, mapTerms, mapTermsAll_eq_map]
    exact (copies_all ih).map _
  | neg f ih =>
    rw [copying, occurrences, atoms]
    simp only [rename, mapTerms]
    exact ih.map _

theorem Clause.copies (c : Clause) : Copies c.copying c.occurrences fun r => c.rename r := by
  cases c with
  | fact a => exact a.copies.map _
  | rule a f => exact a.copies.pair f.copies _
  | goal f => exact f.copies.map _

/-- A single pass comes to the copy that is made in two steps. -/
theorem Clause.run_copying {c copy : Clause} {V V' : Vocabulary}
    (hc : V.Allocated c.occurrences) (h : c.standardizeApart V = (.ok copy, V')) :
    ∃ r, c.copying.run (.empty, V) = some (copy, r, V') := by
  obtain ⟨hcopy, rfl⟩ := Prod.mk.inj h
  rw [Covering.copy, Renaming.unknown_cover fun v hv => hc v (mem_vars.mp hv)] at hcopy
  obtain rfl := Except.ok.inj hcopy
  refine ⟨(Renaming.empty.cover c.vars V).assigned, ?_⟩
  rw [c.copies.run .empty V hc, vars, Renaming.cover_distinct]

end Reading

end HornResolution
