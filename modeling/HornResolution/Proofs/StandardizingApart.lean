import HornResolution.Proofs.Instances

/-!
# Copies over fresh variables

Covering a list of distinct variables gives them the next unused numbers in
order. A copy of a clause therefore shares no variable with anything that was
known before, and any valuation of what was known extends to one under which the
copy is a given instance of the clause.
-/

namespace HornResolution

namespace Vocabulary

variable {V V' : Vocabulary} {v : Var} {vs ws : List Var}

/-- Every listed variable was allocated. -/
def Allocated (V : Vocabulary) (vs : List Var) : Prop := ∀ v ∈ vs, V.knowsVar v = true

instance : Decidable (V.Allocated vs) :=
  inferInstanceAs (Decidable (∀ v ∈ vs, V.knowsVar v = true))

theorem knowsVar_iff : V.knowsVar v = true ↔ v.id < V.varCount := decide_eq_true_iff

theorem knowsVar_of_le (h : V.varCount ≤ V'.varCount) (hv : V.knowsVar v = true) :
    V'.knowsVar v = true :=
  knowsVar_iff.mpr ((knowsVar_iff.mp hv).trans_le h)

theorem Allocated.mono (hvs : V.Allocated vs) (h : V.varCount ≤ V'.varCount) : V'.Allocated vs :=
  fun v hv => knowsVar_of_le h (hvs v hv)

theorem Allocated.subset (hvs : V.Allocated vs) (h : ws ⊆ vs) : V.Allocated ws :=
  fun v hv => hvs v (h hv)

@[simp] theorem allocated_append : V.Allocated (vs ++ ws) ↔ V.Allocated vs ∧ V.Allocated ws :=
  List.forall_mem_append

@[simp] theorem allocated_nil (V : Vocabulary) : V.Allocated [] := by
  simp [Allocated]

end Vocabulary

namespace Renaming

variable {r : Renaming} {V : Vocabulary} {v w : Var} {vs : List Var}

theorem image?_add (r : Renaming) (v w u : Var) :
    (r.add v w).image? u = (r.image? u).or (if u = v then some w else none) := by
  unfold image? add
  rw [List.lookup_append]
  by_cases h : u = v
  · simp [h]
  · have : (u == v) = false := by simpa using h
    simp [List.lookup_cons, this, h]

theorem varCount_le_cover (vs : List Var) (r : Renaming) (V : Vocabulary) :
    V.varCount ≤ (r.cover vs V).vocabulary.varCount := by
  induction vs generalizing r V with
  | nil => exact le_rfl
  | cons v vs ih =>
    rw [cover]
    split
    · exact ih r V
    · split
      · exact le_rfl
      · rename_i s _
        have hle := ih (r.add v (V.allocate s).1) (V.allocate s).2
        rw [Vocabulary.varCount_allocate] at hle
        exact (Nat.le_succ _).trans hle

/-- What a covering that met no unknown variable has done. -/
structure Covers (vs : List Var) (r : Renaming) (V : Vocabulary) (c : Covering) : Prop where
  varCount : c.vocabulary.varCount = V.varCount + vs.length
  /-- The listed variables have the next numbers, in the order of the list. -/
  fresh : ∀ v ∈ vs, c.assigned.image? v = some ⟨V.varCount + vs.idxOf v⟩
  others : ∀ v, v ∉ vs → c.assigned.image? v = r.image? v

theorem cover_cons_known {s : Symbol} (hnew : r.image? v = none) (hs : V.varSymbol? v = some s) :
    r.cover (v :: vs) V = (r.add v ⟨V.varCount⟩).cover vs (V.allocate s).2 := by
  rw [cover, hnew, hs]
  rfl

theorem covers_cover (hnodup : vs.Nodup) (hnew : ∀ v ∈ vs, r.image? v = none)
    (hknown : (r.cover vs V).unknown = none) : Covers vs r V (r.cover vs V) := by
  induction vs generalizing r V with
  | nil => exact ⟨rfl, by simp, fun v _ => rfl⟩
  | cons v vs ih =>
    obtain ⟨hv, hvs⟩ := List.nodup_cons.mp hnodup
    have hrv := hnew v (by simp)
    cases hs : V.varSymbol? v with
    | none => simp [cover, hrv, hs] at hknown
    | some s =>
      rw [cover_cons_known hrv hs] at hknown ⊢
      have hadd : ∀ u ∈ vs, (r.add v ⟨V.varCount⟩).image? u = none := by
        intro u hu
        have huv : u ≠ v := fun h => hv (h ▸ hu)
        simp [image?_add, hnew u (by simp [hu]), huv]
      have hrest := ih hvs hadd hknown
      refine ⟨?_, fun u hu => ?_, fun u hu => ?_⟩
      · rw [hrest.varCount, Vocabulary.varCount_allocate, List.length_cons]
        omega
      · by_cases huv : u = v
        · subst huv
          rw [hrest.others u hv, image?_add, hrv, if_pos rfl, Option.none_or,
            List.idxOf_cons_self, Nat.add_zero]
        · have hu : u ∈ vs := (List.mem_cons.mp hu).resolve_left huv
          rw [hrest.fresh u hu, Vocabulary.varCount_allocate,
            List.idxOf_cons_ne _ (Ne.symm huv), Nat.succ_eq_add_one, Nat.add_right_comm,
            Nat.add_assoc]
      · rw [List.mem_cons, not_or] at hu
        rw [hrest.others u hu.2, image?_add, if_neg hu.1, Option.or_none]

theorem unknown_cover (hvs : V.Allocated vs) : (r.cover vs V).unknown = none := by
  induction vs generalizing r V with
  | nil => rfl
  | cons v vs ih =>
    have hrest : V.Allocated vs := hvs.subset (List.subset_cons_self v vs)
    rw [cover]
    split
    · exact ih hrest
    · split
      · rename_i hv
        have hlt : v.id < V.varNames.size := Vocabulary.knowsVar_iff.mp (hvs v (by simp))
        simp [Vocabulary.varSymbol?, hlt] at hv
      · rename_i s _
        have hle : V.varCount ≤ (V.allocate s).2.varCount := by simp
        exact ih (hrest.mono hle)

end Renaming

namespace Clause

variable {c copy : Clause} {V V' : Vocabulary} {r : Except Misuse Clause}

theorem mem_vars {v : Var} : v ∈ c.vars ↔ v ∈ c.occurrences := mem_distinct

theorem nodup_vars (c : Clause) : c.vars.Nodup := nodup_distinct _

theorem varCount_le_standardizeApart (h : c.standardizeApart V = (r, V')) :
    V.varCount ≤ V'.varCount := by
  obtain rfl : (Renaming.empty.cover c.vars V).vocabulary = V' := congrArg Prod.snd h
  exact Renaming.varCount_le_cover _ _ _

/-- A copy replaces the variables of a clause, in order of first appearance, by the next
numbers. -/
theorem standardizeApart_ok (h : c.standardizeApart V = (.ok copy, V')) :
    V'.varCount = V.varCount + c.vars.length ∧ ∃ r : Renaming, copy = c.rename r ∧
      ∀ v ∈ c.vars, r.image v = ⟨V.varCount + c.vars.idxOf v⟩ := by
  obtain ⟨hcopy, rfl⟩ := Prod.mk.inj h
  unfold Covering.copy at hcopy
  split at hcopy
  · rename_i hknown
    have hcovers := Renaming.covers_cover c.nodup_vars (fun v _ => rfl) hknown
    refine ⟨hcovers.varCount, _, (Except.ok.inj hcopy).symm, ?_⟩
    intro v hv
    rw [Renaming.image, hcovers.fresh v hv, Option.getD_some]
  · simp at hcopy

theorem exists_copy (h : V.Allocated c.occurrences) :
    ∃ copy V', c.standardizeApart V = (.ok copy, V') := by
  have hknown : (Renaming.empty.cover c.vars V).unknown = none :=
    Renaming.unknown_cover fun v hv => h v (mem_vars.mp hv)
  exact ⟨_, _, by rw [standardizeApart, Covering.copy, hknown]⟩

theorem le_of_mem_copy (h : c.standardizeApart V = (.ok copy, V')) {w : Var}
    (hw : w ∈ copy.occurrences) : V.varCount ≤ w.id := by
  obtain ⟨-, r, rfl, hr⟩ := standardizeApart_ok h
  rw [occurrences_rename] at hw
  obtain ⟨v, hv, rfl⟩ := List.mem_map.mp hw
  rw [hr v (mem_vars.mpr hv)]
  exact Nat.le_add_right _ _

theorem knowsVar_of_mem_copy (h : c.standardizeApart V = (.ok copy, V')) {w : Var}
    (hw : w ∈ copy.occurrences) : V'.knowsVar w = true := by
  obtain ⟨hcount, r, rfl, hr⟩ := standardizeApart_ok h
  rw [occurrences_rename] at hw
  obtain ⟨v, hv, rfl⟩ := List.mem_map.mp hw
  rw [← mem_vars] at hv
  have hlt := List.idxOf_lt_length_of_mem hv
  simp only [Vocabulary.knowsVar, hr v hv, decide_eq_true_eq]
  omega

/-- The valuation under which a copy is a given instance of its clause. -/
def extendOver (c : Clause) (n : ℕ) (ρ τ : Var → Term) (w : Var) : Term :=
  if n ≤ w.id then
    match c.vars[w.id - n]? with
    | some v => τ v
    | none => ρ w
  else ρ w

/-- Every valuation agrees on the known variables with one under which the copy is a given
instance of the clause. -/
theorem exists_valuation_of_copy (h : c.standardizeApart V = (.ok copy, V')) (ρ τ : Var → Term) :
    ∃ ρ', (∀ v, V.knowsVar v = true → ρ' v = ρ v) ∧ copy.bind ρ' = c.bind τ := by
  obtain ⟨-, r, rfl, hr⟩ := standardizeApart_ok h
  refine ⟨c.extendOver V.varCount ρ τ, fun v hv => ?_, ?_⟩
  · have hlt : v.id < V.varCount := of_decide_eq_true hv
    exact if_neg (by omega)
  · rw [bind_rename]
    apply bind_congr
    intro v hv
    rw [← mem_vars] at hv
    simp [extendOver, hr v hv, List.getElem?_idxOf hv]

end Clause

/-- The variables of every rule were allocated. -/
def Program.KnownIn (P : Program) (V : Vocabulary) : Prop :=
  ∀ c ∈ P.clauses, V.Allocated c.occurrences

instance (P : Program) (V : Vocabulary) : Decidable (P.KnownIn V) :=
  inferInstanceAs (Decidable (∀ c ∈ P.clauses, V.Allocated c.occurrences))

theorem Program.KnownIn.mono {P : Program} {V V' : Vocabulary} (hP : P.KnownIn V)
    (h : V.varCount ≤ V'.varCount) : P.KnownIn V' :=
  fun c hc => (hP c hc).mono h

end HornResolution
