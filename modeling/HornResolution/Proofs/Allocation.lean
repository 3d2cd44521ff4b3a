import HornResolution.Proofs.Resolution
import HornResolution.Proofs.Unification

/-!
# A search uses allocated variables only

The variables of a node are those of its goals, of the substitutions it works under and
of the nodes inside it. A step of a search allocates what it adds: the variables of a new
copy are known once the copy is made, and unification and the building of nodes bring no
variable of their own. What else is done with the vocabulary takes no variable away, so what
was allocated once stays so.
-/

namespace HornResolution

/-- The variables of the goals, parents and inner nodes of a node. -/
def Node.occurrences : Node → List Var
  | .ready goal _ parent => goal.occurrences ++ parent.occurrences
  | .inBody goal _ parent body => goal.occurrences ++ parent.occurrences ++ body.occurrences
  | .single first => first.occurrences
  | .opening first remaining => first.occurrences ++ remaining.occurrences
  | .paired first remaining rest =>
    first.occurrences ++ remaining.occurrences ++ rest.occurrences

/-- The node whose state a task is. -/
def Node.ofTask : Task → Node
  | .node node => node
  | .first first remaining rest => .conjunction first remaining rest

def Outcome.occurrences : Outcome → List Var
  | .solution σ => σ.occurrences
  | .exhausted => []
  | .failed _ => []

def Course.occurrences : Course → List Var
  | .passed => []
  | .solved σ => σ.occurrences
  | .entered body => body.occurrences
  | .blocked _ => []

/-- The variables of a step that its vocabulary has to know. -/
def Step.occurrences (s : Step) : List Var := s.node.occurrences ++ s.outcome.occurrences

section Building

variable {V : Vocabulary} {f remaining : Formula} {fs : List Formula} {θ σ : Substitution}
  {node first : Node} {rest : Option Node}

theorem Formula.allocated_conj :
    V.Allocated (Formula.conj fs).occurrences ↔ ∀ f ∈ fs, V.Allocated f.occurrences := by
  constructor
  · intro h f hf v hv
    exact h v (Formula.mem_occurrences_conj.mpr ⟨f, hf, hv⟩)
  · intro h v hv
    obtain ⟨f, hf, hv⟩ := Formula.mem_occurrences_conj.mp hv
    exact h f hf v hv

theorem Node.allocated_start (h : Node.start θ f = .ok node) (hf : V.Allocated f.occurrences)
    (hθ : V.Allocated θ.occurrences) : V.Allocated node.occurrences := by
  induction f using Formula.induction generalizing node with
  | atom a =>
    rw [Node.start] at h
    obtain rfl := Except.ok.inj h
    rw [Formula.occurrences_atom] at hf
    exact Vocabulary.allocated_append.mpr ⟨hf, hθ⟩
  | conj fs ih =>
    rw [Node.start] at h
    rw [Formula.allocated_conj] at hf
    cases fs with
    | nil => simp [Node.startOperands] at h
    | cons f fs =>
      rw [Node.startOperands] at h
      split at h
      · simp at h
      · rename_i first hfirst
        have hnode := ih f (by simp) hfirst (hf f (by simp))
        cases fs with
        | nil =>
          obtain rfl := Except.ok.inj h
          exact hnode
        | cons g gs =>
          obtain rfl := Except.ok.inj h
          refine Vocabulary.allocated_append.mpr ⟨hnode, Formula.allocated_conj.mpr ?_⟩
          intro f' hf'
          exact hf f' (List.mem_cons_of_mem f hf')
  | disj fs _ => simp [Node.start] at h
  | neg f _ => simp [Node.start] at h

theorem Node.allocated_reset (hnode : V.Allocated node.occurrences)
    (hθ : V.Allocated θ.occurrences) : V.Allocated (node.reset θ).occurrences := by
  induction node with
  | ready goal i parent =>
    simp only [Node.occurrences, Node.reset, Vocabulary.allocated_append] at hnode ⊢
    exact ⟨hnode.1, hθ⟩
  | inBody goal i parent body _ =>
    simp only [Node.occurrences, Node.reset, Vocabulary.allocated_append] at hnode ⊢
    exact ⟨hnode.1.1, hθ⟩
  | single first ih => exact ih hnode
  | opening first remaining ih =>
    simp only [Node.occurrences, Node.reset, Vocabulary.allocated_append] at hnode ⊢
    exact ⟨ih hnode.1, hnode.2⟩
  | paired first remaining rest ih _ =>
    simp only [Node.occurrences, Node.reset, Vocabulary.allocated_append] at hnode ⊢
    exact ⟨ih hnode.1.1, hnode.1.2⟩

theorem Node.allocated_conjunction :
    V.Allocated (Node.conjunction first remaining rest).occurrences ↔
      V.Allocated first.occurrences ∧ V.Allocated remaining.occurrences ∧
        ∀ r ∈ rest, V.Allocated r.occurrences := by
  cases rest with
  | none => simp [Node.conjunction, Node.occurrences]
  | some r => simp [Node.conjunction, Node.occurrences]

theorem Node.allocated_renew (h : Node.renew σ remaining rest = .ok node)
    (hremaining : V.Allocated remaining.occurrences) (hrest : ∀ r ∈ rest, V.Allocated r.occurrences)
    (hσ : V.Allocated σ.occurrences) : V.Allocated node.occurrences := by
  cases rest with
  | none => exact Node.allocated_start h hremaining hσ
  | some r =>
    obtain rfl := Except.ok.inj h
    exact Node.allocated_reset (hrest r rfl) hσ

end Building

section Steps

variable {P : Program} {V V' : Vocabulary} {J J' : Journal} {goal : Atom} {i : ℕ}
  {θ σ : Substitution} {course : Course}

theorem unify_allocated {a b : Expr} (h : unify a b θ = .ok σ) (ha : V.Allocated a.occurrences)
    (hb : V.Allocated b.occurrences) (hθ : V.Allocated θ.occurrences) :
    V.Allocated σ.occurrences :=
  (Unification.invariant_occurrences fun v => V.knowsVar v = true).unify ⟨ha, hb⟩ hθ h

theorem Trial.allocated {copy : Clause} (h : Trial goal θ copy course)
    (hgoal : V.Allocated goal.occurrences) (hθ : V.Allocated θ.occurrences)
    (hcopy : V.Allocated copy.occurrences) : V.Allocated course.occurrences := by
  cases h with
  | headless _ => exact Vocabulary.allocated_nil V
  | factMismatch _ => exact Vocabulary.allocated_nil V
  | ruleMismatch _ => exact Vocabulary.allocated_nil V
  | fact hσ => exact unify_allocated hσ hgoal hcopy hθ
  | blocked _ _ => exact Vocabulary.allocated_nil V
  | entered hτ hbody =>
    obtain ⟨hhead, hbodyVars⟩ := Vocabulary.allocated_append.mp hcopy
    exact Node.allocated_start hbody hbodyVars (unify_allocated hτ hgoal hhead hθ)

theorem Tried.allocated (h : Tried P goal i θ V J V' J' course)
    (hnode : V.Allocated (Node.ready goal i θ).occurrences) :
    V'.Allocated (Node.ready goal (i + 1) θ).occurrences ∧ V'.Allocated course.occurrences := by
  have hnode' : V'.Allocated (goal.occurrences ++ θ.occurrences) := hnode.mono h.varCount_le
  obtain ⟨-, hcopy, -, htrial⟩ := h
  refine ⟨hnode', ?_⟩
  obtain ⟨hgoal, hθ⟩ := Vocabulary.allocated_append.mp hnode'
  exact htrial.allocated hgoal hθ fun w hw => Clause.knowsVar_of_mem_copy hcopy hw

variable {task : Task} {s : Step}

theorem Step.allocated_solution (hs : s.vocabulary.Allocated s.occurrences)
    (hσ : s.outcome = .solution σ) : s.vocabulary.Allocated σ.occurrences := by
  have hout := (Vocabulary.allocated_append.mp hs).2
  rw [hσ] at hout
  exact hout

theorem Step.allocated_within {node : Node} (hs : s.vocabulary.Allocated s.occurrences)
    (hnode : s.vocabulary.Allocated node.occurrences) :
    (s.within node).vocabulary.Allocated (s.within node).occurrences :=
  Vocabulary.allocated_append.mpr ⟨hnode, (Vocabulary.allocated_append.mp hs).2⟩

theorem Step.allocated_conjunction {first : Node} {remaining : Formula} {rest : Option Node}
    (hs : s.vocabulary.Allocated s.occurrences) (hle : V.varCount ≤ s.vocabulary.varCount)
    (h : V.Allocated (Node.conjunction first remaining rest).occurrences) :
    s.vocabulary.Allocated (Node.conjunction s.node remaining rest).occurrences := by
  obtain ⟨-, hremaining, hrest⟩ := Node.allocated_conjunction.mp h
  refine Node.allocated_conjunction.mpr ⟨?_, hremaining.mono hle, ?_⟩
  · exact (Vocabulary.allocated_append.mp hs).1
  · exact fun r hr => (hrest r hr).mono hle

theorem Step.allocated_renewed {first node : Node} {remaining : Formula} {rest : Option Node}
    (hs : s.vocabulary.Allocated s.occurrences) (hle : V.varCount ≤ s.vocabulary.varCount)
    (h : V.Allocated (Node.conjunction first remaining rest).occurrences)
    (hσ : s.outcome = .solution σ) (hrenew : Node.renew σ remaining rest = .ok node) :
    s.vocabulary.Allocated (Node.paired s.node remaining node).occurrences := by
  obtain ⟨hnode, hremaining, hrest⟩ :=
    Node.allocated_conjunction.mp (Step.allocated_conjunction hs hle h)
  refine Vocabulary.allocated_append.mpr
    ⟨Vocabulary.allocated_append.mpr ⟨hnode, hremaining⟩, ?_⟩
  exact Node.allocated_renew hrenew hremaining hrest (Step.allocated_solution hs hσ)

theorem Step.allocated_last {vs : List Var} (hs : s.vocabulary.Allocated s.occurrences)
    (hle : V.varCount ≤ s.vocabulary.varCount) (hvs : V.Allocated vs) :
    s.vocabulary.Allocated (vs ++ s.node.occurrences) :=
  Vocabulary.allocated_append.mpr ⟨hvs.mono hle, (Vocabulary.allocated_append.mp hs).1⟩

/-- A step of a search over allocated variables leaves a node over allocated variables, and
so is every solution. -/
theorem Takes.allocated (h : Takes P task V J s)
    (htask : V.Allocated (Node.ofTask task).occurrences) :
    s.vocabulary.Allocated s.occurrences := by
  induction h with
  | exhausted _ _ => exact Vocabulary.allocated_append.mpr ⟨htask, Vocabulary.allocated_nil _⟩
  | exhaustedUnnamed _ _ =>
    exact Vocabulary.allocated_append.mpr ⟨htask, Vocabulary.allocated_nil _⟩
  | unknown _ hcopy =>
    have hle := Clause.varCount_le_standardizeApart hcopy
    exact Vocabulary.allocated_append.mpr ⟨htask.mono hle, Vocabulary.allocated_nil _⟩
  | unnamed _ hcopy _ =>
    have hle := Clause.varCount_le_standardizeApart hcopy
    exact Vocabulary.allocated_append.mpr ⟨htask.mono hle, Vocabulary.allocated_nil _⟩
  | passed htried _ ih => exact ih (htried.allocated htask).1
  | solved htried => exact Vocabulary.allocated_append.mpr (htried.allocated htask)
  | blocked htried => exact Vocabulary.allocated_append.mpr (htried.allocated htask)
  | bodySolution htried hbody _ ih =>
    obtain ⟨hwaiting, hchild⟩ := htried.allocated htask
    have hs := ih hchild
    exact Step.allocated_within hs (Step.allocated_last hs hbody.varCount_le hwaiting)
  | bodyFailed htried hbody _ ih =>
    obtain ⟨hwaiting, hchild⟩ := htried.allocated htask
    exact Step.allocated_within (ih hchild) (hwaiting.mono hbody.varCount_le)
  | bodyExhausted htried hbody _ _ _ ih =>
    exact ih ((htried.allocated htask).1.mono hbody.varCount_le)
  | resumed hbody _ ih =>
    obtain ⟨hwaiting, hchild⟩ := Vocabulary.allocated_append.mp htask
    have hs := ih hchild
    exact Step.allocated_within hs (Step.allocated_last hs hbody.varCount_le hwaiting)
  | resumedExhausted hbody _ _ _ ih =>
    exact ih ((Vocabulary.allocated_append.mp htask).1.mono hbody.varCount_le)
  | single _ ih =>
    have hs := ih htask
    exact Step.allocated_within hs (Vocabulary.allocated_append.mp hs).1
  | opening _ ih => exact ih htask
  | paired hrest _ ih =>
    obtain ⟨hfront, hrestVars⟩ := Vocabulary.allocated_append.mp htask
    have hs := ih hrestVars
    exact Step.allocated_within hs (Step.allocated_last hs hrest.varCount_le hfront)
  | pairedExhausted hrest _ _ ihrest ih =>
    obtain ⟨hfront, hrestVars⟩ := Vocabulary.allocated_append.mp htask
    exact ih (Step.allocated_last (ihrest hrestVars) hrest.varCount_le hfront)
  | firstEnded hfirst _ ih =>
    have hs := ih (Node.allocated_conjunction.mp htask).1
    exact Step.allocated_within hs (Step.allocated_conjunction hs hfirst.varCount_le htask)
  | restBlocked hfirst _ _ ih =>
    have hs := ih (Node.allocated_conjunction.mp htask).1
    refine Vocabulary.allocated_append.mpr ⟨?_, Vocabulary.allocated_nil _⟩
    exact Step.allocated_conjunction hs hfirst.varCount_le htask
  | restStepped hfirst hσ hrenew hrest _ ihfirst ihrest =>
    have hs := ihfirst (Node.allocated_conjunction.mp htask).1
    obtain ⟨hfront, hnode⟩ := Vocabulary.allocated_append.mp
      (Step.allocated_renewed hs hfirst.varCount_le htask hσ hrenew)
    have hr := ihrest hnode
    exact Step.allocated_within hr (Step.allocated_last hr hrest.varCount_le hfront)
  | backtrackUnnamed hfirst hσ hrenew hrest _ _ ihfirst ihrest =>
    have hs := ihfirst (Node.allocated_conjunction.mp htask).1
    obtain ⟨hfront, hnode⟩ := Vocabulary.allocated_append.mp
      (Step.allocated_renewed hs hfirst.varCount_le htask hσ hrenew)
    refine Vocabulary.allocated_append.mpr ⟨?_, Vocabulary.allocated_nil _⟩
    exact Step.allocated_last (ihrest hnode) hrest.varCount_le hfront
  | backtracked hfirst hσ hrenew hrest _ _ _ ihfirst ihrest ih =>
    have hs := ihfirst (Node.allocated_conjunction.mp htask).1
    obtain ⟨hfront, hnode⟩ := Vocabulary.allocated_append.mp
      (Step.allocated_renewed hs hfirst.varCount_le htask hσ hrenew)
    exact ih (Step.allocated_last (ihrest hnode) hrest.varCount_le hfront)

end Steps

namespace Vocabulary

/-- What can be done with a vocabulary besides the search in question. Other nodes, of
whatever program, are asked in whatever state they are; starting and resetting them leaves the
vocabulary alone. -/
inductive Use where
  | intern (name : String)
  | declare (name : String)
  | coin (stem : String)
  | copyVar (like : Var)
  | standardizeApart (c : Clause)
  | ask (P : Program) (node : Node) (depth : ℕ) (J : Journal)

def after (V : Vocabulary) : Use → Vocabulary
  | .intern name => (V.intern name).2
  | .declare name => (V.declare name).2
  | .coin stem => (V.coin stem).2
  | .copyVar like => (V.copyVar like).2
  | .standardizeApart c => (c.standardizeApart V).2
  | .ask P node depth J => ((node.next P depth V J).map Step.vocabulary).getD V

def afterAll (V : Vocabulary) (uses : List Use) : Vocabulary := uses.foldl after V

@[simp] theorem afterAll_nil (V : Vocabulary) : V.afterAll [] = V := rfl

theorem varCount_intern (V : Vocabulary) (name : String) :
    (V.intern name).2.varCount = V.varCount := by
  unfold intern
  split_ifs
  · rfl
  · split <;> rfl

theorem varCount_le_declare (V : Vocabulary) (name : String) :
    V.varCount ≤ (V.declare name).2.varCount := by
  have hintern := V.varCount_intern name
  unfold declare
  split
  · rename_i e V' h
    rw [h] at hintern
    exact hintern.ge
  · rename_i s V' h
    rw [h] at hintern
    have hV' : V'.varCount = V.varCount := hintern
    rw [varCount_allocate, hV']
    exact Nat.le_succ _

theorem varCount_le_copyVar (V : Vocabulary) (like : Var) :
    V.varCount ≤ (V.copyVar like).2.varCount := by
  unfold copyVar
  split
  · exact le_rfl
  · simp

theorem varCount_coin (V : Vocabulary) (stem : String) :
    (V.coin stem).2.varCount = V.varCount := by
  unfold coin
  split_ifs
  · rfl
  · exact varCount_intern _ _

theorem varCount_le_after (V : Vocabulary) (u : Use) : V.varCount ≤ (V.after u).varCount := by
  cases u with
  | intern name => exact (V.varCount_intern name).ge
  | declare name => exact V.varCount_le_declare name
  | coin stem => exact (V.varCount_coin stem).ge
  | copyVar like => exact V.varCount_le_copyVar like
  | standardizeApart c => exact Clause.varCount_le_standardizeApart (r := _) rfl
  | ask P node depth J =>
    rw [after]
    cases h : node.next P depth V J with
    | none => exact le_rfl
    | some s => exact (takes_of_next h).varCount_le

theorem varCount_le_afterAll (V : Vocabulary) (uses : List Use) :
    V.varCount ≤ (V.afterAll uses).varCount := by
  induction uses generalizing V with
  | nil => exact le_rfl
  | cons u uses ih => exact (V.varCount_le_after u).trans (ih (V.after u))

end Vocabulary

end HornResolution
