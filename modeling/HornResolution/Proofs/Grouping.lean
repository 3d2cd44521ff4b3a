import HornResolution.Proofs.Adequacy
import HornResolution.Proofs.Derivability

/-!
# The grouping of conjunctions is irrelevant

A goal that can be resolved is a list of atoms with brackets. The nodes of two goals that differ
in the brackets alone have different shapes, and what one of them keeps in the first operand of a
first operand the other keeps among remaining operands. The interpreter has no such state. It
comes to the atoms from left to right, each under a solution of those before it, so its run is
that of the list, and the answers of both nodes are the events of this one run.
-/

namespace HornResolution

theorem Formula.exists_start {f : Formula} (hf : f.isResolvable = true) (θ : Substitution) :
    ∃ node, Node.start θ f = .ok node := by
  induction f using Formula.induction with
  | atom a => exact ⟨_, by rw [Node.start]⟩
  | conj fs ih =>
    obtain ⟨hne, hfs⟩ := (isResolvable_conj fs).mp hf
    cases fs with
    | nil => exact absurd rfl hne
    | cons f fs =>
      obtain ⟨first, hfirst⟩ := ih f (by simp) (hfs f (by simp))
      rw [Node.start, Node.startOperands, hfirst]
      cases fs with
      | nil => exact ⟨_, rfl⟩
      | cons g gs => exact ⟨_, rfl⟩
  | disj fs _ => simp [isResolvable] at hf
  | neg f _ => simp [isResolvable] at hf

namespace DepthFirst

/-- Solves atoms one after the other, each under a solution of those before it. -/
def solveAtoms (P : Program) (d : ℕ) :
    List Atom → Substitution → Continuation Substitution → Vocabulary → Trace Substitution
  | [], θ, k, V => k θ V
  | a :: as, θ, k, V => solve P halting d (.atom a) θ (fun σ => solveAtoms P d as σ k) V

variable {P : Program} {d : ℕ} {θ : Substitution} {k : Continuation Substitution} {V : Vocabulary}

theorem solveAtoms_append (as bs : List Atom) :
    solveAtoms P d (as ++ bs) θ k V =
      solveAtoms P d as θ (fun σ => solveAtoms P d bs σ k) V := by
  induction as generalizing θ V with
  | nil => rfl
  | cons a as ih =>
    simp only [List.cons_append, solveAtoms]
    congr
    funext σ W
    exact ih

theorem solve_conj_eq_solveAtoms {fs : List Formula} (hne : fs ≠ [])
    (hfs : ∀ f ∈ fs, ∀ θ k V,
      solve P halting (d + 1) f θ k V = solveAtoms P (d + 1) f.atoms θ k V) :
    solve P halting (d + 1) (.conj fs) θ k V =
      solveAtoms P (d + 1) (fs.flatMap Formula.atoms) θ k V := by
  induction fs generalizing θ V with
  | nil => exact absurd rfl hne
  | cons f fs ih =>
    have hf := hfs f (by simp)
    cases fs with
    | nil => rw [solve_single, hf, List.flatMap_singleton]
    | cons g gs =>
      rw [solve_conj, hf, List.flatMap_cons, solveAtoms_append]
      congr
      funext σ W
      exact ih (by simp) fun f' hf' => hfs f' (List.mem_cons_of_mem f hf')

/-- The run of a goal that can be resolved is that of its atoms from left to right. -/
theorem solve_eq_solveAtoms {f : Formula} (hf : f.isResolvable = true) :
    solve P halting (d + 1) f θ k V = solveAtoms P (d + 1) f.atoms θ k V := by
  induction f using Formula.induction generalizing θ k V with
  | atom a => rfl
  | conj fs ih =>
    obtain ⟨hne, hfs⟩ := (Formula.isResolvable_conj fs).mp hf
    rw [Formula.atoms, Formula.atomsAll_eq_flatMap]
    exact solve_conj_eq_solveAtoms hne fun f hf' θ k V => ih f hf' (hfs f hf')
  | disj fs _ => simp [Formula.isResolvable] at hf
  | neg f _ => simp [Formula.isResolvable] at hf

theorem run_eq_of_atoms_eq {f g : Formula} (hf : f.isResolvable = true) (hg : g.isResolvable = true)
    (h : f.atoms = g.atoms) : run P d f θ V = run P d g θ V := by
  cases d with
  | zero => rfl
  | succ d => rw [run, run, solve_eq_solveAtoms hf, solve_eq_solveAtoms hg, h]

end DepthFirst

/-- The grouping of conjunctions is irrelevant. Two goals that are built from the same atoms, in
the same order, by conjunctions of at least one operand can both be started, and up to the first
failure the calls on their nodes have the same answers and leave the same vocabularies: whatever
the one node has answered the other answers too. -/
theorem grouping_irrelevant {f g : Formula} (hf : f.isResolvable = true)
    (hg : g.isResolvable = true) (hatoms : f.atoms = g.atoms) (P : Program) (θ : Substitution)
    (V : Vocabulary) :
    ∃ node node', Node.start θ f = .ok node ∧ Node.start θ g = .ok node' ∧
      ∀ rs, (∀ r ∈ rs.dropLast, ∀ e, r.1 ≠ .failed e) →
        (node.Calls P V rs ↔ node'.Calls P V rs) := by
  obtain ⟨node, hnode⟩ := Formula.exists_start hf θ
  obtain ⟨node', hnode'⟩ := Formula.exists_start hg θ
  refine ⟨node, node', hnode, hnode', fun rs hrs => ?_⟩
  rw [DepthFirst.calls_iff_events hnode hrs, DepthFirst.calls_iff_events hnode' hrs]
  simp only [DepthFirst.run_eq_of_atoms_eq hf hg hatoms]

/-- Two facts of which only the second leaves the next atom a fact, and one with a variable. -/
def groupedRules : Program := .ofList
  [.fact ⟨⟨0⟩, [.const ⟨3⟩]⟩, .fact ⟨⟨0⟩, [.const ⟨4⟩]⟩, .fact ⟨⟨1⟩, [.const ⟨4⟩]⟩,
    .fact ⟨⟨2⟩, [.var ⟨0⟩]⟩]

/-- Three atoms with the first two in brackets. -/
def leftGrouped : Formula :=
  .conj [.conj [.atom ⟨⟨0⟩, [.var ⟨0⟩]⟩, .atom ⟨⟨1⟩, [.var ⟨0⟩]⟩], .atom ⟨⟨2⟩, [.var ⟨0⟩]⟩]

/-- The same with the last two in brackets, and the last in further ones. -/
def rightGrouped : Formula :=
  .conj [.atom ⟨⟨0⟩, [.var ⟨0⟩]⟩,
    .conj [.atom ⟨⟨1⟩, [.var ⟨0⟩]⟩, .conj [.atom ⟨⟨2⟩, [.var ⟨0⟩]⟩]]]

/-- The answers of the first goal. The first solution of its first atom was taken back. -/
def groupedAnswers : List (Outcome × Vocabulary) :=
  [(.solution { bindings := [(⟨0⟩, .term (.const ⟨4⟩)), (⟨2⟩, .term (.const ⟨4⟩))] },
      { varNames := .replicate 3 ⟨5⟩ }),
    (.exhausted, { varNames := .replicate 5 ⟨5⟩ })]

theorem grouping_irrelevant_leftGrouped :
    leftGrouped.atoms = rightGrouped.atoms ∧
      ∃ node', Node.start .empty rightGrouped = .ok node' ∧
        node'.Calls groupedRules { varNames := #[⟨5⟩] } groupedAnswers := by
  have hatoms : leftGrouped.atoms = rightGrouped.atoms := rfl
  obtain ⟨node, node', hnode, hnode', hcalls⟩ := grouping_irrelevant (f := leftGrouped)
    (g := rightGrouped) (by decide) (by decide) hatoms groupedRules .empty { varNames := #[⟨5⟩] }
  have hfirst : (Node.opening (.opening (.ready ⟨⟨0⟩, [.var ⟨0⟩]⟩ 0 .empty)
      (.conj [.atom ⟨⟨1⟩, [.var ⟨0⟩]⟩])) (.conj [.atom ⟨⟨2⟩, [.var ⟨0⟩]⟩])).next groupedRules 20
      { varNames := #[⟨5⟩] } .closed = some _ := rfl
  have hanswers :=
    Node.Calls.cons hfirst (by simp) (.cons (d := 20) (J := .closed) rfl (by simp) .nil)
  have hstart : Node.start .empty leftGrouped = .ok _ := rfl
  obtain rfl := Except.ok.inj (hstart.symm.trans hnode)
  exact ⟨hatoms, node', hnode', (hcalls groupedAnswers (by simp [groupedAnswers])).mp hanswers⟩

end HornResolution
