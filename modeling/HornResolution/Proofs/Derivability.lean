import HornResolution.Proofs.Instances

/-!
# Derivability

What a program says is an inductive relation that knows nothing of a search: an
atom is derivable if it is the head of an instance of a clause whose body, if any,
is derivable under the same instance, and a conjunction of at least one operand is
derivable if all its operands are. There is no rule for a disjunction, a negation or
a conjunction of nothing.
-/

namespace HornResolution

/-- What follows from a program. -/
inductive Derivable (P : Program) : Formula → Prop
  | fact {a : Atom} (h : .fact a ∈ P.clauses) (ρ : Var → Term) : Derivable P (.atom (a.bind ρ))
  | rule {a : Atom} {body : Formula} (h : .rule a body ∈ P.clauses) (ρ : Var → Term)
      (hbody : Derivable P (body.bind ρ)) : Derivable P (.atom (a.bind ρ))
  | conj {fs : List Formula} (hne : fs ≠ []) (hfs : ∀ f ∈ fs, Derivable P f) :
      Derivable P (.conj fs)

theorem Program.mem_of_get? {P : Program} {i : ℕ} {c : Clause} (h : P.get? i = some c) :
    c ∈ P.clauses :=
  Array.mem_of_getElem? h

namespace Formula

mutual

/-- Whether the formula is built from atoms by conjunctions of at least one operand. -/
def isResolvable : Formula → Bool
  | .atom _ => true
  | .conj fs => !fs.isEmpty && areResolvable fs
  | .disj _ => false
  | .neg _ => false

def areResolvable : List Formula → Bool
  | [] => true
  | f :: fs => f.isResolvable && areResolvable fs

end

theorem areResolvable_eq_all (fs : List Formula) : areResolvable fs = fs.all isResolvable := by
  induction fs with
  | nil => rfl
  | cons f fs ih => rw [areResolvable, ih, List.all_cons]

theorem isResolvable_conj (fs : List Formula) :
    (conj fs).isResolvable = true ↔ fs ≠ [] ∧ ∀ f ∈ fs, f.isResolvable = true := by
  simp [isResolvable, areResolvable_eq_all]

theorem isResolvable_bind (ρ : Var → Term) (f : Formula) :
    (f.bind ρ).isResolvable = f.isResolvable := by
  induction f using induction with
  | atom a => simp [isResolvable]
  | conj fs ih =>
    rw [Bool.eq_iff_iff, bind_conj, isResolvable_conj, isResolvable_conj]
    simp only [ne_eq, List.map_eq_nil_iff, List.mem_map, forall_exists_index, and_imp,
      forall_apply_eq_imp_iff₂]
    apply and_congr_right
    intro _
    exact forall₂_congr fun f hf => by rw [ih f hf]
  | disj fs ih => simp [isResolvable]
  | neg f ih => simp [isResolvable]

end Formula

/-- A clause with a head whose body, if there is one, is resolvable. -/
def Clause.isResolvable : Clause → Bool
  | .fact _ => true
  | .rule _ body => body.isResolvable
  | .goal _ => false

theorem Clause.isResolvable_rename (r : Renaming) (c : Clause) :
    (c.rename r).isResolvable = c.isResolvable := by
  cases c with
  | fact a => rfl
  | rule a f => exact Formula.isResolvable_bind _ f
  | goal f => rfl

/-- The program without the clauses that cannot be resolved. -/
def Program.resolvable (P : Program) : Program := ⟨P.clauses.filter Clause.isResolvable⟩

theorem Program.exists_get?_resolvable {P : Program} {i : ℕ} {c : Clause}
    (h : P.get? i = some c) (hc : c.isResolvable = true) :
    ∃ j, P.resolvable.get? j = some c := by
  have hmem : c ∈ P.resolvable.clauses := Array.mem_filter.mpr ⟨mem_of_get? h, hc⟩
  obtain ⟨j, hj, hget⟩ := Array.getElem_of_mem hmem
  exact ⟨j, Array.getElem?_eq_some_iff.mpr ⟨hj, hget⟩⟩

section Derivation

variable {P : Program} {f : Formula}

/-- Nothing with a disjunction, a negation or an empty conjunction in it is derivable. -/
theorem Derivable.isResolvable (h : Derivable P f) : f.isResolvable = true := by
  induction h with
  | fact _ _ => simp [Formula.isResolvable]
  | rule _ _ _ _ => simp [Formula.isResolvable]
  | conj hne _ ih => exact (Formula.isResolvable_conj _).mpr ⟨hne, ih⟩

theorem Derivable.cons {g : Formula} {gs : List Formula} (hg : Derivable P g)
    (hgs : Derivable P (.conj gs)) : Derivable P (.conj (g :: gs)) := by
  cases hgs with
  | conj _ hgs =>
    refine .conj (by simp) ?_
    intro f hf
    rcases List.mem_cons.mp hf with rfl | hf
    · exact hg
    · exact hgs f hf

end Derivation

end HornResolution
