import HornResolution.Proofs.SearchSteps
import HornResolution.Proofs.StandardizingApart

/-!
# Resolution

`Resolves` is resolution without a machine: which substitutions solve a goal under
a parent, by any choice of rules and any number of fresh copies. A node is always
somewhere in the course of such a resolution, and every solution that a search
finds is one, whatever was asked of the node before.
-/

namespace HornResolution

/-- A copy of a clause of the program, made when at least `n` variables were allocated. -/
def Program.Copy (P : Program) (n : ℕ) (copy : Clause) : Prop :=
  ∃ i rule V V', P.get? i = some rule ∧ n ≤ V.varCount ∧
    rule.standardizeApart V = (.ok copy, V')

/-- The solutions of a goal under a parent, over copies whose variables are numbered from
`n` on. -/
inductive Resolves (P : Program) (n : ℕ) : Formula → Substitution → Substitution → Prop
  | fact {goal head : Atom} {θ σ : Substitution} (hcopy : P.Copy n (.fact head))
      (hσ : unify (.atom goal) (.atom head) θ = .ok σ) : Resolves P n (.atom goal) θ σ
  | rule {goal head : Atom} {body : Formula} {θ τ σ : Substitution}
      (hcopy : P.Copy n (.rule head body)) (hτ : unify (.atom goal) (.atom head) θ = .ok τ)
      (hbody : Resolves P n body τ σ) : Resolves P n (.atom goal) θ σ
  | single {f : Formula} {θ σ : Substitution} (hf : Resolves P n f θ σ) :
      Resolves P n (.conj [f]) θ σ
  | conj {f g : Formula} {gs : List Formula} {θ τ σ : Substitution} (hf : Resolves P n f θ τ)
      (hgs : Resolves P n (.conj (g :: gs)) τ σ) : Resolves P n (.conj (f :: g :: gs)) θ σ

/-- A node that solves a goal under a parent and has got to some point of it. -/
inductive Node.Explores (P : Program) (n : ℕ) : Formula → Substitution → Node → Prop
  | ready (goal : Atom) (i : ℕ) (θ : Substitution) : Explores P n (.atom goal) θ (.ready goal i θ)
  | inBody {goal head : Atom} {body : Formula} {i : ℕ} {θ τ : Substitution} {child : Node}
      (hcopy : P.Copy n (.rule head body)) (hτ : unify (.atom goal) (.atom head) θ = .ok τ)
      (hchild : Explores P n body τ child) :
      Explores P n (.atom goal) θ (.inBody goal i θ child)
  | single {f : Formula} {θ : Substitution} {first : Node} (hfirst : Explores P n f θ first) :
      Explores P n (.conj [f]) θ (.single first)
  | opening {f g : Formula} {gs : List Formula} {θ : Substitution} {first : Node}
      (hfirst : Explores P n f θ first) :
      Explores P n (.conj (f :: g :: gs)) θ (.opening first (.conj (g :: gs)))
  | paired {f g : Formula} {gs : List Formula} {θ τ : Substitution} {first rest : Node}
      (hfirst : Explores P n f θ first) (hτ : Resolves P n f θ τ)
      (hrest : Explores P n (.conj (g :: gs)) τ rest) :
      Explores P n (.conj (f :: g :: gs)) θ (.paired first (.conj (g :: gs)) rest)

section Starting

variable {P : Program} {n : ℕ} {f : Formula} {θ σ : Substitution} {node : Node}

theorem Node.explores_start (h : Node.start θ f = .ok node) : node.Explores P n f θ := by
  induction f using Formula.induction generalizing node with
  | atom a =>
    rw [Node.start] at h
    obtain rfl := Except.ok.inj h
    exact .ready a 0 θ
  | conj fs ih =>
    rw [Node.start] at h
    cases fs with
    | nil => simp [Node.startOperands] at h
    | cons f fs =>
      rw [Node.startOperands] at h
      split at h
      · simp at h
      · rename_i first hfirst
        have hexplores := ih f (by simp) hfirst
        cases fs with
        | nil =>
          obtain rfl := Except.ok.inj h
          exact .single hexplores
        | cons g gs =>
          obtain rfl := Except.ok.inj h
          exact .opening hexplores
  | disj fs _ => simp [Node.start] at h
  | neg f _ => simp [Node.start] at h

/-- However far a node has got, resetting it gives the node that a new start gives. -/
theorem Node.Explores.start_eq_reset (h : node.Explores P n f θ) (σ : Substitution) :
    Node.start σ f = .ok (node.reset σ) := by
  induction h with
  | ready goal i θ => rw [Node.start, Node.reset]
  | inBody _ _ _ _ => rw [Node.start, Node.reset]
  | single _ ih => rw [Node.start, Node.startOperands, ih, Node.reset]
  | opening _ ih => rw [Node.start, Node.startOperands, ih, Node.reset]
  | paired _ _ _ ih _ => rw [Node.start, Node.startOperands, ih, Node.reset]

theorem Node.Explores.reset (h : node.Explores P n f θ) (σ : Substitution) :
    (node.reset σ).Explores P n f σ :=
  Node.explores_start (h.start_eq_reset σ)

end Starting

theorem Takes.varCount_le {P : Program} {task : Task} {V : Vocabulary} {J : Journal} {s : Step}
    (h : Takes P task V J s) : V.varCount ≤ s.vocabulary.varCount := by
  induction h with
  | exhausted _ _ => exact le_rfl
  | exhaustedUnnamed _ _ => exact le_rfl
  | unknown _ hcopy => exact Clause.varCount_le_standardizeApart hcopy
  | unnamed _ hcopy _ => exact Clause.varCount_le_standardizeApart hcopy
  | passed htried _ ih => exact htried.varCount_le.trans ih
  | solved htried => exact htried.varCount_le
  | blocked htried => exact htried.varCount_le
  | bodySolution htried _ _ ih => exact htried.varCount_le.trans ih
  | bodyFailed htried _ _ ih => exact htried.varCount_le.trans ih
  | bodyExhausted htried _ _ _ ihbody ih => exact htried.varCount_le.trans (ihbody.trans ih)
  | resumed _ _ ih => exact ih
  | resumedExhausted _ _ _ ihbody ih => exact ihbody.trans ih
  | single _ ih => exact ih
  | opening _ ih => exact ih
  | paired _ _ ih => exact ih
  | pairedExhausted _ _ _ ihrest ih => exact ihrest.trans ih
  | firstEnded _ _ ih => exact ih
  | restBlocked _ _ _ ih => exact ih
  | restStepped _ _ _ _ _ ihfirst ihrest => exact ihfirst.trans ihrest
  | backtrackUnnamed _ _ _ _ _ _ ihfirst ihrest => exact ihfirst.trans ihrest
  | backtracked _ _ _ _ _ _ _ ihfirst ihrest ih => exact ihfirst.trans (ihrest.trans ih)

section Steps

variable {P : Program} {n : ℕ} {f g : Formula} {gs : List Formula} {θ σ : Substitution}
  {first node : Node} {rest : Option Node}

/-- The node for the remaining operands, if there is one yet, solves them under some solution
of the first operand. -/
def Node.RestExplores (P : Program) (n : ℕ) (f : Formula) (θ : Substitution) (remaining : Formula)
    (rest : Option Node) : Prop :=
  ∀ r, rest = some r → ∃ τ, Resolves P n f θ τ ∧ r.Explores P n remaining τ

theorem Node.RestExplores.some {remaining : Formula} {τ : Substitution} (hτ : Resolves P n f θ τ)
    (hnode : node.Explores P n remaining τ) :
    Node.RestExplores P n f θ remaining (some node) := by
  intro r hr
  obtain rfl := Option.some.inj hr
  exact ⟨τ, hτ, hnode⟩

inductive Task.Explores (P : Program) (n : ℕ) : Formula → Substitution → Task → Prop
  | node {f : Formula} {θ : Substitution} {node : Node} (h : node.Explores P n f θ) :
      Explores P n f θ (.node node)
  | first {f g : Formula} {gs : List Formula} {θ : Substitution} {first : Node}
      {rest : Option Node} (hfirst : first.Explores P n f θ)
      (hrest : Node.RestExplores P n f θ (.conj (g :: gs)) rest) :
      Explores P n (.conj (f :: g :: gs)) θ (.first first (.conj (g :: gs)) rest)

theorem Node.Explores.conjunction (hfirst : first.Explores P n f θ)
    (hrest : Node.RestExplores P n f θ (.conj (g :: gs)) rest) :
    (Node.conjunction first (.conj (g :: gs)) rest).Explores P n (.conj (f :: g :: gs)) θ := by
  cases rest with
  | none => exact .opening hfirst
  | some r =>
    obtain ⟨τ, hτ, hr⟩ := hrest r rfl
    exact .paired hfirst hτ hr

theorem Node.RestExplores.renew_eq_start {remaining : Formula}
    (hrest : Node.RestExplores P n f θ remaining rest) (σ : Substitution) :
    Node.renew σ remaining rest = Node.start σ remaining := by
  cases rest with
  | none => rfl
  | some r =>
    obtain ⟨τ, -, hr⟩ := hrest r rfl
    exact (hr.start_eq_reset σ).symm

def Step.Explores (P : Program) (n : ℕ) (f : Formula) (θ : Substitution) (s : Step) : Prop :=
  s.node.Explores P n f θ ∧ ∀ σ, s.outcome = .solution σ → Resolves P n f θ σ

theorem Tried.copy {goal : Atom} {i : ℕ} {V V' : Vocabulary} {J J' : Journal} {course : Course}
    (h : Tried P goal i θ V J V' J' course) (hn : n ≤ V.varCount) :
    ∃ copy, P.Copy n copy ∧ Trial goal θ copy course := by
  obtain ⟨hrule, hcopy, -, htrial⟩ := h
  exact ⟨_, ⟨i, _, V, V', hrule, hn, hcopy⟩, htrial⟩

theorem Tried.explores_child {goal : Atom} {i : ℕ} {V V' : Vocabulary} {J J' : Journal}
    {child : Node} (h : Tried P goal i θ V J V' J' (.entered child)) :
    ∃ body τ, child.Explores P n body τ := by
  obtain ⟨-, -, -, htrial⟩ := h
  cases htrial with
  | entered _ hbody => exact ⟨_, _, Node.explores_start hbody⟩

/-- Every step of a node that solves a goal leaves one that solves it still, and every
solution is one of the goal. -/
theorem Takes.explores {task : Task} {V : Vocabulary} {J : Journal} {s : Step}
    (h : Takes P task V J s) (htask : task.Explores P n f θ) (hn : n ≤ V.varCount) :
    s.Explores P n f θ := by
  induction h generalizing f θ with
  | exhausted _ _ =>
    cases htask with | node hnode => exact ⟨hnode, by simp⟩
  | exhaustedUnnamed _ _ =>
    cases htask with | node hnode => exact ⟨hnode, by simp⟩
  | unknown _ _ =>
    cases htask with | node hnode => exact ⟨hnode, by simp⟩
  | unnamed _ _ _ =>
    cases htask with | node hnode =>
    cases hnode
    exact ⟨.ready _ _ _, by simp⟩
  | passed htried _ ih =>
    cases htask with | node hnode =>
    cases hnode
    exact ih (.node (.ready _ _ _)) (hn.trans htried.varCount_le)
  | solved htried =>
    cases htask with | node hnode =>
    cases hnode
    obtain ⟨copy, hcopy, htrial⟩ := htried.copy hn
    cases htrial with | fact hσ =>
    refine ⟨.ready _ _ _, ?_⟩
    intro σ hout
    obtain rfl := Outcome.solution.inj hout
    exact .fact hcopy hσ
  | blocked htried =>
    cases htask with | node hnode =>
    cases hnode
    exact ⟨.ready _ _ _, by simp⟩
  | bodySolution htried _ hs ih =>
    cases htask with | node hnode =>
    cases hnode
    obtain ⟨copy, hcopy, htrial⟩ := htried.copy hn
    cases htrial with | entered hτ hbody =>
    obtain ⟨hchild, hsol⟩ := ih (.node (Node.explores_start hbody)) (hn.trans htried.varCount_le)
    exact ⟨.inBody hcopy hτ hchild, fun σ hout => .rule hcopy hτ (hsol σ hout)⟩
  | bodyFailed htried _ hs _ =>
    cases htask with | node hnode =>
    cases hnode
    exact ⟨.ready _ _ _, by simp [hs]⟩
  | bodyExhausted htried hbody _ _ _ ih =>
    cases htask with | node hnode =>
    cases hnode
    exact ih (.node (.ready _ _ _)) (hn.trans (htried.varCount_le.trans hbody.varCount_le))
  | resumed _ _ ih =>
    cases htask with | node hnode =>
    cases hnode with | inBody hcopy hτ hchild =>
    obtain ⟨hchild, hsol⟩ := ih (.node hchild) hn
    exact ⟨.inBody hcopy hτ hchild, fun σ hout => .rule hcopy hτ (hsol σ hout)⟩
  | resumedExhausted hbody _ _ _ ih =>
    cases htask with | node hnode =>
    cases hnode
    exact ih (.node (.ready _ _ _)) (hn.trans hbody.varCount_le)
  | single _ ih =>
    cases htask with | node hnode =>
    cases hnode with | single hfirst =>
    obtain ⟨hfirst, hsol⟩ := ih (.node hfirst) hn
    exact ⟨.single hfirst, fun σ hout => .single (hsol σ hout)⟩
  | opening _ ih =>
    cases htask with | node hnode =>
    cases hnode with | opening hfirst =>
    exact ih (.first hfirst (by simp [Node.RestExplores])) hn
  | paired _ _ ih =>
    cases htask with | node hnode =>
    cases hnode with | paired hfirst hτ hrest =>
    obtain ⟨hrest, hsol⟩ := ih (.node hrest) hn
    exact ⟨.paired hfirst hτ hrest, fun σ hout => .conj hτ (hsol σ hout)⟩
  | pairedExhausted hstep _ _ ihrest ih =>
    cases htask with | node hnode =>
    cases hnode with | paired hfirst hτ hrest =>
    obtain ⟨hrest, -⟩ := ihrest (.node hrest) hn
    exact ih (.first hfirst (.some hτ hrest)) (hn.trans hstep.varCount_le)
  | firstEnded _ hs ih =>
    cases htask with | first hfirst hrest =>
    obtain ⟨hfirst, -⟩ := ih (.node hfirst) hn
    exact ⟨hfirst.conjunction hrest, fun σ hout => absurd hout (hs σ)⟩
  | restBlocked _ _ _ ih =>
    cases htask with | first hfirst hrest =>
    obtain ⟨hfirst, -⟩ := ih (.node hfirst) hn
    exact ⟨hfirst.conjunction hrest, by simp⟩
  | restStepped hstep hs hrenew _ _ ihfirst ihrest =>
    cases htask with | first hfirst hrest =>
    obtain ⟨hfirst, hsol⟩ := ihfirst (.node hfirst) hn
    rw [hrest.renew_eq_start] at hrenew
    obtain ⟨hnode, hsol'⟩ :=
      ihrest (.node (Node.explores_start hrenew)) (hn.trans hstep.varCount_le)
    exact ⟨.paired hfirst (hsol _ hs) hnode, fun σ hout => .conj (hsol _ hs) (hsol' σ hout)⟩
  | backtrackUnnamed hstep hs hrenew _ _ _ ihfirst ihrest =>
    cases htask with | first hfirst hrest =>
    obtain ⟨hfirst, hsol⟩ := ihfirst (.node hfirst) hn
    rw [hrest.renew_eq_start] at hrenew
    obtain ⟨hnode, -⟩ := ihrest (.node (Node.explores_start hrenew)) (hn.trans hstep.varCount_le)
    exact ⟨.paired hfirst (hsol _ hs) hnode, by simp⟩
  | backtracked hstep hs hrenew hstep' _ _ _ ihfirst ihrest ih =>
    cases htask with | first hfirst hrest =>
    obtain ⟨hfirst, hsol⟩ := ihfirst (.node hfirst) hn
    rw [hrest.renew_eq_start] at hrenew
    have hn' := hn.trans hstep.varCount_le
    obtain ⟨hnode, -⟩ := ihrest (.node (Node.explores_start hrenew)) hn'
    exact ih (.first hfirst (.some (hsol _ hs) hnode)) (hn'.trans hstep'.varCount_le)

theorem Takes.explores_node {node : Node} {V : Vocabulary} {J : Journal} {s : Step}
    (h : Takes P (.node node) V J s) (hnode : node.Explores P 0 f θ) : s.Explores P 0 f θ :=
  h.explores (.node hnode) (Nat.zero_le _)

end Steps

end HornResolution
