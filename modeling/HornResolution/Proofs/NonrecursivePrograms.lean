import HornResolution.Proofs.Hygiene
import HornResolution.Proofs.Permanence
import HornResolution.Proofs.Soundness
import HornResolution.Proofs.UnboundedRecursion

/-!
# Non-recursive programs are searched to the end

A program is not recursive if its predicate symbols can be ranked so that no atom in the
body of a rule ranks as high as the head. A node for such a program comes back from every
call, and no run of calls can go on without exhaustion. The remaining rules of an atom, the
steps left to a body and those left to the first operand of a conjunction, which starts the
other operands anew at each of its solutions, are three orders, one inside the other. The
rank is needed only where a rule is entered: bodies are searched to the end by induction on
it. If the parent is acyclic, no comparison inside a call goes round in a circle either.
-/

namespace HornResolution

/-- The rank falls from the head of every rule to the predicates of its body. -/
def Program.Descends {α : Type*} [LT α] (P : Program) (rank : Symbol → α) : Prop :=
  ∀ c ∈ P.clauses, ∀ head ∈ c.head?, ∀ body ∈ c.body?, ∀ a ∈ body.atoms,
    rank a.symbol < rank head.symbol

instance {α : Type*} [LT α] [DecidableLT α] (P : Program) (rank : Symbol → α) :
    Decidable (P.Descends rank) :=
  inferInstanceAs (Decidable (∀ c ∈ P.clauses, ∀ head ∈ c.head?, ∀ body ∈ c.body?,
    ∀ a ∈ body.atoms, rank a.symbol < rank head.symbol))

/-- A task that comes back whenever it is given, and whose node does so from then on until it
is exhausted, which it is after finitely many calls. Nothing is said of a node that could not
log what it did. -/
inductive Task.Drains (P : Program) : Task → Prop
  | intro {task : Task} (answers : ∀ V J, P.KnownIn V → ∃ s, Takes P task V J s)
      (goesOn : ∀ V J s, P.KnownIn V → Takes P task V J s → s.outcome ≠ .exhausted →
        s.outcome ≠ .failed .unnamed → Drains P (.node s.node)) : Drains P task

section Draining

variable {P : Program} {task : Task} {node first rest body : Node} {goal : Atom} {i : ℕ}
  {θ : Substitution} {V : Vocabulary} {J : Journal} {s : Step}

theorem Task.Drains.exists_takes (h : task.Drains P) (hV : P.KnownIn V) (J : Journal) :
    ∃ s, Takes P task V J s := by
  cases h with
  | intro answers _ => exact answers V J hV

theorem Task.Drains.step (h : task.Drains P) (hV : P.KnownIn V) (hs : Takes P task V J s)
    (hexhausted : s.outcome ≠ .exhausted) (hunnamed : s.outcome ≠ .failed .unnamed) :
    (Task.node s.node).Drains P := by
  cases h with
  | intro _ goesOn => exact goesOn V J s hV hs hexhausted hunnamed

theorem Takes.knownIn (h : Takes P task V J s) (hV : P.KnownIn V) : P.KnownIn s.vocabulary :=
  hV.mono h.varCount_le

theorem Node.Spent.drains (h : node.Spent P) : (Task.node node).Drains P := by
  refine .intro (fun V J _ => h.exists_takes V J) ?_
  intro V J s _ hs hexhausted hunnamed
  rcases (hs.idle h).outcome_eq with hout | hout
  · exact absurd hout hexhausted
  · exact absurd hout.1 hunnamed

theorem drains_inBody (hbody : (Task.node body).Drains P)
    (hready : (Task.node (.ready goal i θ)).Drains P) :
    (Task.node (.inBody goal i θ body)).Drains P := by
  generalize htask : Task.node body = task at hbody
  induction hbody generalizing body with
  | intro answers _ ih =>
    subst htask
    refine .intro ?_ ?_
    · intro V J hV
      obtain ⟨s, hs⟩ := answers V J hV
      by_cases hout : s.outcome = .exhausted
      · obtain ⟨r, hr⟩ := hready.exists_takes (hs.knownIn hV) s.journal
        exact ⟨r, .resumedExhausted hs hout hr⟩
      · exact ⟨_, .resumed hs hout⟩
    · intro V J s hV hs hexhausted hunnamed
      cases hs with
      | resumed hs _ => exact ih V J _ hV hs hexhausted hunnamed rfl
      | resumedExhausted hs _ hnext => exact hready.step (hs.knownIn hV) hnext hexhausted hunnamed

theorem drains_single (hfirst : (Task.node first).Drains P) :
    (Task.node (.single first)).Drains P := by
  generalize htask : Task.node first = task at hfirst
  induction hfirst generalizing first with
  | intro answers _ ih =>
    subst htask
    refine .intro ?_ ?_
    · intro V J hV
      obtain ⟨s, hs⟩ := answers V J hV
      exact ⟨_, .single hs⟩
    · intro V J s hV hs hexhausted hunnamed
      cases hs with
      | single hs => exact ih V J _ hV hs hexhausted hunnamed rfl

/-- The bodies that an atom enters under a parent are searched to the end. -/
def BodiesDrain (P : Program) (goal : Atom) (θ : Substitution) : Prop :=
  ∀ i V J V' J' child, Tried P goal i θ V J V' J' (.entered child) → (Task.node child).Drains P

theorem exists_takes_ready (hbodies : BodiesDrain P goal θ) {rule : Clause}
    (hrule : P.get? i = some rule) (hlater : (Task.node (.ready goal (i + 1) θ)).Drains P)
    (hV : P.KnownIn V) (J : Journal) : ∃ s, Takes P (.node (.ready goal i θ)) V J s := by
  obtain ⟨copy, V', hcopy⟩ := Clause.exists_copy (hV rule (Program.mem_of_get? hrule))
  have hV' : P.KnownIn V' := hV.mono (Clause.varCount_le_standardizeApart hcopy)
  cases hreport : J.report V' (Attempt.make goal θ copy).event with
  | none => exact ⟨_, .unnamed hrule hcopy hreport⟩
  | some J' =>
    have htried : Tried P goal i θ V J V' J' (Attempt.make goal θ copy).course :=
      ⟨hrule, hcopy, hreport, trial_make goal θ copy⟩
    cases hcourse : (Attempt.make goal θ copy).course with
    | passed =>
      rw [hcourse] at htried
      obtain ⟨s, hs⟩ := hlater.exists_takes hV' J'
      exact ⟨s, .passed htried hs⟩
    | solved σ =>
      rw [hcourse] at htried
      exact ⟨_, .solved htried⟩
    | blocked e =>
      rw [hcourse] at htried
      exact ⟨_, .blocked htried⟩
    | entered child =>
      rw [hcourse] at htried
      obtain ⟨s, hs⟩ := (hbodies i V J V' J' child htried).exists_takes hV' J'
      cases hout : s.outcome with
      | solution σ => exact ⟨_, .bodySolution htried hs hout⟩
      | failed e => exact ⟨_, .bodyFailed htried hs hout⟩
      | exhausted =>
        obtain ⟨r, hr⟩ := hlater.exists_takes (hs.knownIn hV') s.journal
        exact ⟨r, .bodyExhausted htried hs hout hr⟩

theorem drains_ready_of_succ (hbodies : BodiesDrain P goal θ) {rule : Clause}
    (hrule : P.get? i = some rule) (hlater : (Task.node (.ready goal (i + 1) θ)).Drains P) :
    (Task.node (.ready goal i θ)).Drains P := by
  refine .intro (fun V J hV => exists_takes_ready hbodies hrule hlater hV J) ?_
  intro V J s hV hs hexhausted hunnamed
  have hknown : ∀ {V' J' course}, Tried P goal i θ V J V' J' course → P.KnownIn V' :=
    fun htried => hV.mono htried.varCount_le
  cases hs with
  | exhausted _ _ => exact absurd rfl hexhausted
  | exhaustedUnnamed _ _ => exact absurd rfl hunnamed
  | unknown hrule' hcopy' =>
    obtain ⟨copy, V', hcopy⟩ := Clause.exists_copy (hV _ (Program.mem_of_get? hrule'))
    simp [hcopy'] at hcopy
  | unnamed _ _ _ => exact absurd rfl hunnamed
  | passed htried hnext => exact hlater.step (hknown htried) hnext hexhausted hunnamed
  | solved _ => exact hlater
  | blocked _ => exact hlater
  | bodySolution htried hbody hout =>
    have hchild := hbodies _ _ _ _ _ _ htried
    exact drains_inBody (hchild.step (hknown htried) hbody (by simp [hout]) (by simp [hout])) hlater
  | bodyFailed _ _ _ => exact hlater
  | bodyExhausted htried hbody _ hnext =>
    exact hlater.step (hbody.knownIn (hknown htried)) hnext hexhausted hunnamed

theorem drains_ready (hbodies : BodiesDrain P goal θ) (i : ℕ) :
    (Task.node (.ready goal i θ)).Drains P := by
  suffices h : ∀ n i, P.length ≤ i + n → (Task.node (.ready goal i θ)).Drains P from
    h P.length i (by omega)
  intro n
  induction n with
  | zero =>
    intro i hi
    have hrule : P.get? i = none := Array.getElem?_eq_none hi
    exact (Node.Spent.ready hrule).drains
  | succ n ih =>
    intro i hi
    have hlater := ih (i + 1) (by omega)
    cases hrule : P.get? i with
    | none => exact (Node.Spent.ready hrule).drains
    | some rule => exact drains_ready_of_succ hbodies hrule hlater

end Draining

section Conjunctions

variable {P : Program} {f g : Formula} {gs : List Formula} {θ : Substitution} {first node : Node}
  {rest : Option Node} {V : Vocabulary}

/-- Every node for a goal is searched to the end, however far it has got. -/
def Formula.Drains (P : Program) (f : Formula) : Prop :=
  ∀ θ node, node.Explores P 0 f θ → (Task.node node).Drains P

/-- Whatever the first operand still finds, the others can be searched under it to the end. -/
def FirstDrains (P : Program) (f : Formula) (θ : Substitution) (remaining : Formula)
    (first : Node) : Prop :=
  ∀ rest, Node.RestExplores P 0 f θ remaining rest → (Task.first first remaining rest).Drains P

theorem drains_paired (hfirst : FirstDrains P f θ (.conj (g :: gs)) first) {rest : Node}
    {τ : Substitution} (hτ : Resolves P 0 f θ τ) (hexplores : rest.Explores P 0 (.conj (g :: gs)) τ)
    (hrest : (Task.node rest).Drains P) :
    (Task.node (.paired first (.conj (g :: gs)) rest)).Drains P := by
  generalize htask : Task.node rest = task at hrest
  induction hrest generalizing rest with
  | intro answers _ ih =>
    subst htask
    have hstep : ∀ {V J s}, Takes P (.node rest) V J s → s.node.Explores P 0 (.conj (g :: gs)) τ :=
      fun hs => (hs.explores_node hexplores).1
    refine .intro ?_ ?_
    · intro V J hV
      obtain ⟨s, hs⟩ := answers V J hV
      by_cases hout : s.outcome = .exhausted
      · have hagain := hfirst (some s.node) (.some hτ (hstep hs))
        obtain ⟨r, hr⟩ := hagain.exists_takes (hs.knownIn hV) s.journal
        exact ⟨r, .pairedExhausted hs hout hr⟩
      · exact ⟨_, .paired hs hout⟩
    · intro V J s hV hs hexhausted hunnamed
      cases hs with
      | paired hs _ => exact ih V J _ hV hs hexhausted hunnamed (hstep hs) rfl
      | pairedExhausted hs _ hnext =>
        have hagain := hfirst _ (.some hτ (hstep hs))
        exact hagain.step (hs.knownIn hV) hnext hexhausted hunnamed

theorem drains_opening (hfirst : FirstDrains P f θ (.conj (g :: gs)) first) :
    (Task.node (.opening first (.conj (g :: gs)))).Drains P := by
  have htask := hfirst none (by simp [Node.RestExplores])
  refine .intro ?_ ?_
  · intro V J hV
    obtain ⟨s, hs⟩ := htask.exists_takes hV J
    exact ⟨s, .opening hs⟩
  · intro V J s hV hs hexhausted hunnamed
    cases hs with
    | opening hs => exact htask.step hV hs hexhausted hunnamed

theorem drains_conjunction (hremaining : (Formula.conj (g :: gs)).Drains P)
    (hfirst : FirstDrains P f θ (.conj (g :: gs)) first)
    (hrest : Node.RestExplores P 0 f θ (.conj (g :: gs)) rest) :
    (Task.node (.conjunction first (.conj (g :: gs)) rest)).Drains P := by
  cases rest with
  | none => exact drains_opening hfirst
  | some r =>
    obtain ⟨τ, hτ, hr⟩ := hrest r rfl
    exact drains_paired hfirst hτ hr (hremaining τ r hr)

theorem Node.RestExplores.renew {remaining : Formula} {σ : Substitution}
    (hrest : Node.RestExplores P 0 f θ remaining rest)
    (hrenew : Node.renew σ remaining rest = .ok node) : node.Explores P 0 remaining σ := by
  rw [hrest.renew_eq_start] at hrenew
  exact Node.explores_start hrenew

/-- The first operand is asked until the others have a solution, an error comes up, or it has
no more solutions itself. -/
theorem exists_takes_first (hremaining : (Formula.conj (g :: gs)).Drains P)
    (hexplores : first.Explores P 0 f θ) (hfirst : (Task.node first).Drains P)
    (hlater : ∀ V J s σ, P.KnownIn V → Takes P (.node first) V J s → s.outcome = .solution σ →
      FirstDrains P f θ (.conj (g :: gs)) s.node)
    (hrest : Node.RestExplores P 0 f θ (.conj (g :: gs)) rest) (hV : P.KnownIn V) (J : Journal) :
    ∃ s, Takes P (.first first (.conj (g :: gs)) rest) V J s := by
  obtain ⟨s, hs⟩ := hfirst.exists_takes hV J
  have hVs := hs.knownIn hV
  cases hout : s.outcome with
  | exhausted => exact ⟨_, .firstEnded hs (by simp [hout])⟩
  | failed e => exact ⟨_, .firstEnded hs (by simp [hout])⟩
  | solution σ =>
    cases hrenew : Node.renew σ (.conj (g :: gs)) rest with
    | error e => exact ⟨_, .restBlocked hs hout hrenew⟩
    | ok node =>
      have hnode := hrest.renew hrenew
      obtain ⟨r, hr⟩ := (hremaining σ node hnode).exists_takes hVs s.journal
      by_cases hexhausted : r.outcome = .exhausted
      · cases hreport : r.journal.report r.vocabulary (.backtracked (.conj (g :: gs))) with
        | none => exact ⟨_, .backtrackUnnamed hs hout hrenew hr hexhausted hreport⟩
        | some J' =>
          have hσ := (hs.explores_node hexplores).2 σ hout
          have hagain := hlater V J s σ hV hs hout (some r.node)
            (.some hσ (hr.explores_node hnode).1)
          obtain ⟨t, ht⟩ := hagain.exists_takes (hr.knownIn hVs) J'
          exact ⟨t, .backtracked hs hout hrenew hr hexhausted hreport ht⟩
      · exact ⟨_, .restStepped hs hout hrenew hr hexhausted⟩

theorem firstDrains (hremaining : (Formula.conj (g :: gs)).Drains P)
    (hexplores : first.Explores P 0 f θ) (hfirst : (Task.node first).Drains P) :
    FirstDrains P f θ (.conj (g :: gs)) first := by
  generalize htask : Task.node first = task at hfirst
  -- Each step of the first operand brings it nearer to its end, and only that counts, however
  -- often the other operands are started anew.
  induction hfirst generalizing first with
  | intro answers goesOn ih =>
    subst htask
    have hstep : ∀ {V J s}, Takes P (.node first) V J s → s.Explores P 0 f θ :=
      fun hs => hs.explores_node hexplores
    have hlater : ∀ V J s σ, P.KnownIn V → Takes P (.node first) V J s →
        s.outcome = .solution σ → FirstDrains P f θ (.conj (g :: gs)) s.node :=
      fun V J s σ hV hs hout =>
        ih V J s hV hs (by simp [hout]) (by simp [hout]) (hstep hs).1 rfl
    intro rest hrest
    refine .intro (fun V J hV =>
      exists_takes_first hremaining hexplores ⟨answers, goesOn⟩ hlater hrest hV J) ?_
    intro V J s hV hs hexhausted hunnamed
    cases hs with
    | firstEnded hs _ =>
      have hnext := ih V J _ hV hs hexhausted hunnamed (hstep hs).1 rfl
      exact drains_conjunction hremaining hnext hrest
    | restBlocked hs hout _ =>
      exact drains_conjunction hremaining (hlater V J _ _ hV hs hout) hrest
    | restStepped hs hout hrenew hr _ =>
      have hnode := (hr.explores_node (hrest.renew hrenew)).1
      exact drains_paired (hlater V J _ _ hV hs hout) ((hstep hs).2 _ hout) hnode
        (hremaining _ _ hnode)
    | backtrackUnnamed _ _ _ _ _ _ => exact absurd rfl hunnamed
    | backtracked hs hout hrenew hr _ _ hnext =>
      have hnode := (hr.explores_node (hrest.renew hrenew)).1
      have hagain := hlater V J _ _ hV hs hout _ (.some ((hstep hs).2 _ hout) hnode)
      exact hagain.step (hr.knownIn (hs.knownIn hV)) hnext hexhausted hunnamed

theorem Formula.Drains.conj {fs : List Formula} (h : ∀ f ∈ fs, f.Drains P) :
    (Formula.conj fs).Drains P := by
  induction fs with
  | nil =>
    intro θ node hnode
    cases hnode
  | cons f fs ih =>
    have hf : f.Drains P := h f (by simp)
    have hfs : (Formula.conj fs).Drains P := ih fun f' hf' => h f' (by simp [hf'])
    intro θ node hnode
    cases hnode with
    | single hfirst => exact drains_single (hf θ _ hfirst)
    | opening hfirst => exact drains_opening (firstDrains hfs hfirst (hf θ _ hfirst))
    | paired hfirst hτ hrest =>
      exact drains_paired (firstDrains hfs hfirst (hf θ _ hfirst)) hτ hrest (hfs _ _ hrest)

theorem Formula.drains_of_atoms {f : Formula} (h : ∀ a ∈ f.atoms, (Formula.atom a).Drains P) :
    f.Drains P := by
  induction f using Formula.induction with
  | atom a => exact h a (by simp [atoms])
  | conj fs ih =>
    refine Formula.Drains.conj fun f hf => ih f hf fun a ha => h a ?_
    rw [atoms, atomsAll_eq_flatMap]
    exact List.mem_flatMap.mpr ⟨f, hf, ha⟩
  | disj fs _ =>
    intro θ node hnode
    cases hnode
  | neg f _ =>
    intro θ node hnode
    cases hnode

end Conjunctions

section Ranks

variable {α : Type*} [LT α] {P : Program} {rank : Symbol → α} {n : ℕ} {goal head : Atom}
  {body : Formula} {θ τ : Substitution}

theorem symbol_eq_of_unify {p q : Atom} (h : unify (.atom p) (.atom q) θ = .ok τ) :
    p.symbol = q.symbol := by
  obtain ⟨depth, hdepth⟩ := Unification.unify_eq_within (.atom p) (.atom q) θ
  rw [hdepth] at h
  cases depth with
  | zero => simp [Unification.within] at h
  | succ depth =>
    rw [Unification.within_atoms] at h
    by_contra hne
    simp [Unification.applications, hne] at h

/-- The rank falls from an atom to the bodies of the rules that it enters. -/
theorem Program.Descends.lt_of_copy (hP : P.Descends rank) (hcopy : P.Copy n (.rule head body))
    (hτ : unify (.atom goal) (.atom head) θ = .ok τ) {a : Atom} (ha : a ∈ body.atoms) :
    rank a.symbol < rank goal.symbol := by
  obtain ⟨c, hc, r, hr⟩ := hcopy.exists_rename
  cases c with
  | rule a₀ f =>
    obtain ⟨rfl, rfl⟩ : head = a₀.rename r ∧ body = f.rename r := Clause.rule.inj hr
    have hatoms : (f.rename r).atoms = f.atoms.map (Atom.rename r) := Formula.atoms_bind _ f
    rw [hatoms] at ha
    obtain ⟨b, hb, rfl⟩ := List.mem_map.mp ha
    rw [symbol_eq_of_unify hτ]
    exact hP _ hc a₀ rfl f rfl b hb
  | fact a₀ => simp [Clause.rename, Clause.mapTerms] at hr
  | goal f => simp [Clause.rename, Clause.mapTerms] at hr

theorem Program.Descends.drains_atom [WellFoundedLT α] (hP : P.Descends rank) (goal : Atom) :
    (Formula.atom goal).Drains P := by
  induction h : rank goal.symbol using WellFoundedLT.induction generalizing goal with
  | ind _ ih =>
    subst h
    have hbody : ∀ {θ head body τ}, P.Copy 0 (.rule head body) →
        unify (.atom goal) (.atom head) θ = .ok τ → body.Drains P :=
      fun hcopy hτ => Formula.drains_of_atoms fun a ha => ih _ (hP.lt_of_copy hcopy hτ ha) a rfl
    have hbodies : ∀ θ, BodiesDrain P goal θ := by
      intro θ i V J V' J' child htried
      obtain ⟨copy, hcopy, htrial⟩ := htried.copy (Nat.zero_le _)
      cases htrial with
      | entered hτ hstart => exact hbody hcopy hτ _ child (Node.explores_start hstart)
    intro θ node hnode
    cases hnode with
    | ready _ i _ => exact drains_ready (hbodies θ) i
    | inBody hcopy hτ hchild =>
      exact drains_inBody (hbody hcopy hτ _ _ hchild) (drains_ready (hbodies θ) _)

theorem Program.Descends.drains [WellFoundedLT α] (hP : P.Descends rank) (f : Formula) :
    f.Drains P :=
  Formula.drains_of_atoms fun a _ => hP.drains_atom a

end Ranks

/-- If the atom that is asked is compared with the head of a copy, the comparison comes to an
end without a bound. -/
def Moment.Compares (m : Moment) : Prop :=
  ∀ goal i θ above c head, m.nodes = .ready goal i θ :: above → m.copied = some c →
    c.copy.head? = some head →
      Unbounded.Unify (.atom goal) (.atom head) θ (unify (.atom goal) (.atom head) θ)

section Comparisons

variable {P : Program} {held : List Substitution} {depth : ℕ} {f : Formula} {θ : Substitution}
  {nodes above : List Node} {V : Vocabulary} {J : Journal} {ms : List Moment}

theorem Node.forall_mem_onExhausted {p : Moment → Prop} {answer : Option Step}
    {go : Step → List Moment} (h : ∀ s, answer = some s → ∀ m ∈ go s, p m) :
    ∀ m ∈ Node.onExhausted answer go, p m := by
  cases answer with
  | none => simp [Node.onExhausted]
  | some s =>
    cases hs : s.outcome with
    | exhausted => simpa [Node.onExhausted, hs] using h s rfl
    | solution σ => simp [Node.onExhausted, hs]
    | failed e => simp [Node.onExhausted, hs]

theorem Moment.compares_asked (h : ∀ m ∈ ms, m.Compares) :
    ∀ m ∈ (⟨nodes, held, V, none⟩ : Moment) :: ms, m.Compares := by
  refine List.forall_mem_cons.mpr ⟨?_, h⟩
  intro goal i θ above c head _ hc _
  simp at hc

theorem Moment.compares_copying {goal : Atom} {i : ℕ} {copied : Option Copied} (hθ : θ.Acyclic)
    (h : ∀ m ∈ ms, m.Compares) :
    ∀ m ∈ (⟨.ready goal i θ :: above, held, V, copied⟩ : Moment) :: ms, m.Compares := by
  refine List.forall_mem_cons.mpr ⟨?_, h⟩
  intro goal' i' θ' above' c head hnodes _ _
  obtain ⟨⟨rfl, -, rfl⟩, -⟩ : (goal = goal' ∧ i = i' ∧ θ = θ') ∧ above = above' := by
    simpa using hnodes
  exact Unbounded.unify_ends hθ _ _

structure ComparesWithin (P : Program) (held : List Substitution) (depth : ℕ) : Prop where
  moments : ∀ {above node V J f θ}, Node.Explores P 0 f θ node → θ.Acyclic →
    ∀ m ∈ Node.moments P held depth above node V J, m.Compares
  momentsFirst : ∀ {above first remaining rest V J f θ},
    Task.Explores P 0 f θ (.first first remaining rest) → θ.Acyclic →
      ∀ m ∈ Node.momentsFirst P held depth above first remaining rest V J, m.Compares

theorem compares_ready (ih : ComparesWithin P held depth) {goal : Atom} {i : ℕ} (hθ : θ.Acyclic) :
    ∀ m ∈ Node.moments P held (depth + 1) above (.ready goal i θ) V J, m.Compares := by
  have hwaiting : (Node.ready goal (i + 1) θ).Explores P 0 (.atom goal) θ := .ready _ _ _
  rw [Node.moments]
  split
  · exact Moment.compares_asked (by simp)
  · split
    · exact Moment.compares_asked (by simp)
    · rename_i copy V' hcopy
      refine Moment.compares_copying hθ ?_
      split
      · simp
      · have htrial := trial_make goal θ copy
        split
        · exact ih.moments hwaiting hθ
        · simp
        · simp
        · rename_i child hcourse
          rw [hcourse] at htrial
          cases htrial with
          | entered hτ hstart =>
            have hacyclic := Unification.invariant_acyclic.unify trivial hθ hτ
            exact List.forall_mem_append.mpr ⟨ih.moments (Node.explores_start hstart) hacyclic,
              Node.forall_mem_onExhausted fun _ _ => ih.moments hwaiting hθ⟩

theorem compares_first (ih : ComparesWithin P held depth) {first : Node} {remaining : Formula}
    {rest : Option Node} (hexplores : Task.Explores P 0 f θ (.first first remaining rest))
    (hθ : θ.Acyclic) :
    ∀ m ∈ Node.momentsFirst P held (depth + 1) above first remaining rest V J, m.Compares := by
  cases hexplores with
  | first hfirst hrest =>
    rw [Node.momentsFirst]
    refine Moment.compares_asked (List.forall_mem_append.mpr ⟨ih.moments hfirst hθ, ?_⟩)
    split
    · simp
    · rename_i s hs
      obtain ⟨hfirst', hsol⟩ := (takes_of_next hs).explores_node hfirst
      split
      · rename_i σ hout
        have hσ := hsol σ hout
        split
        · simp
        · rename_i node hrenew
          have hnode := hrest.renew hrenew
          refine List.forall_mem_append.mpr ⟨ih.moments hnode (hσ.acyclic hθ), ?_⟩
          refine Node.forall_mem_onExhausted fun r hr => ?_
          have hnode' := ((takes_of_next hr).explores_node hnode).1
          split
          · simp
          · exact ih.momentsFirst (.first hfirst' (.some hσ hnode')) hθ
      · simp

theorem comparesWithin (P : Program) (held : List Substitution) (depth : ℕ) :
    ComparesWithin P held depth := by
  induction depth with
  | zero => exact ⟨fun _ _ => by simp [Node.moments], fun _ _ => by simp [Node.momentsFirst]⟩
  | succ depth ih =>
    refine ⟨fun {above node V J f θ} hnode hθ => ?_, compares_first ih⟩
    cases hnode with
    | ready goal i => exact compares_ready ih hθ
    | inBody hcopy hτ hchild =>
      have hacyclic := Unification.invariant_acyclic.unify trivial hθ hτ
      rw [Node.moments]
      exact Moment.compares_asked (List.forall_mem_append.mpr ⟨ih.moments hchild hacyclic,
        Node.forall_mem_onExhausted fun _ _ => ih.moments (.ready _ _ _) hθ⟩)
    | single hfirst =>
      rw [Node.moments]
      exact Moment.compares_asked (ih.moments hfirst hθ)
    | opening hfirst =>
      rw [Node.moments]
      exact ih.momentsFirst (.first hfirst (by simp [Node.RestExplores])) hθ
    | paired hfirst hτ hrest =>
      rw [Node.moments]
      refine Moment.compares_asked (List.forall_mem_append.mpr
        ⟨ih.moments hrest (hτ.acyclic hθ), ?_⟩)
      refine Node.forall_mem_onExhausted fun s hs => ?_
      have hrest' := ((takes_of_next hs).explores_node hrest).1
      exact ih.momentsFirst (.first hfirst (.some hτ hrest')) hθ

end Comparisons

section Runs

variable {P : Program} {f : Formula} {node : Node} {V : Vocabulary}

theorem Task.Drains.exists_calls (h : (Task.node node).Drains P) (hV : P.KnownIn V) :
    ∃ rs W, node.Calls P V (rs ++ [(.exhausted, W)]) ∧ ∀ r ∈ rs, r.1 ≠ .exhausted := by
  generalize htask : Task.node node = task at h
  induction h generalizing node V with
  | intro answers _ ih =>
    subst htask
    obtain ⟨s, hs⟩ := answers V .closed hV
    obtain ⟨d, hd⟩ := hs.exists_bound
    have hnext : node.next P d V .closed = some s := hd d le_rfl
    have hunnamed : s.outcome ≠ .failed .unnamed := (hs.unlogged rfl).2
    by_cases hout : s.outcome = .exhausted
    · refine ⟨[], s.vocabulary, ?_, by simp⟩
      rw [List.nil_append, ← hout]
      exact .cons hnext (fun _ => hunnamed) .nil
    · obtain ⟨rs, W, hcalls, hrs⟩ := ih V .closed s hV hs hout hunnamed (hs.knownIn hV) rfl
      exact ⟨(s.outcome, s.vocabulary) :: rs, W, .cons hnext (fun _ => hunnamed) hcalls,
        List.forall_mem_cons.mpr ⟨hout, hrs⟩⟩

theorem Node.Calls.prefix_of_exhausted {rs rs' : List (Outcome × Vocabulary)} {W : Vocabulary}
    (h : node.Calls P V (rs ++ [(.exhausted, W)])) (h' : node.Calls P V rs')
    (hrs' : ∀ r ∈ rs', r.1 ≠ .exhausted) : rs' <+: rs := by
  have hnot : ∀ {l}, rs ++ [(Outcome.exhausted, W)] <+: l → ¬ ∀ r ∈ l, r.1 ≠ .exhausted :=
    fun hl hne => hne (.exhausted, W) (hl.subset (by simp)) rfl
  rcases h.comparable h' with hle | hle
  · exact absurd hrs' (hnot hle)
  · rcases List.prefix_concat_iff.mp hle with rfl | hle
    · exact absurd hrs' (hnot List.prefix_rfl)
    · exact hle

/-- Non-recursive programs are searched to the end. Wherever a node has got in its history, it
comes back from every further call, and no comparison inside one goes round in a circle. Its
answers are solutions and errors, finitely many, and then exhaustion; no other way of logging
the calls gets more out of it. -/
theorem nonrecursive_terminates {α : Type*} [LT α] [WellFoundedLT α] {rank : Symbol → α}
    (hP : P.Descends rank) {V₀ : Vocabulary} {u : Usage} (hu : History P .acyclic f V₀ u)
    (hV : P.KnownIn V) :
    (∀ J, (∃ d₀, ∀ d ≥ d₀, (u.node.next P d V J).isSome) ∧
        ∀ d, ∀ m ∈ u.node.moments P [] d [] V J, m.Compares) ∧
      ∃ rs W, u.node.Calls P V (rs ++ [(.exhausted, W)]) ∧ (∀ r ∈ rs, r.1 ≠ .exhausted) ∧
        ∀ rs', u.node.Calls P V rs' → (∀ r ∈ rs', r.1 ≠ .exhausted) → rs' <+: rs := by
  have hdrains : (Task.node u.node).Drains P := hP.drains f u.parent u.node hu.explores
  constructor
  · intro J
    constructor
    · obtain ⟨s, hs⟩ := hdrains.exists_takes hV J
      obtain ⟨d₀, hd₀⟩ := hs.exists_bound
      exact ⟨d₀, fun d hd => Option.isSome_iff_exists.mpr ⟨s, hd₀ d hd⟩⟩
    · intro d
      exact (comparesWithin P [] d).moments hu.explores hu.parents
  · obtain ⟨rs, W, hcalls, hrs⟩ := hdrains.exists_calls hV
    exact ⟨rs, W, hcalls, hrs, fun rs' hcalls' => hcalls.prefix_of_exhausted hcalls'⟩

end Runs

/-- Two rules for one predicate, of which the second cannot be resolved, over facts for two
others. -/
def tieredRules : Program := .ofList
  [.rule ⟨⟨0⟩, [.var ⟨0⟩]⟩ (.conj [.atom ⟨⟨1⟩, [.var ⟨0⟩]⟩, .atom ⟨⟨2⟩, [.var ⟨0⟩]⟩]),
    .rule ⟨⟨0⟩, [.var ⟨0⟩]⟩ (.disj [.atom ⟨⟨1⟩, [.var ⟨0⟩]⟩]),
    .fact ⟨⟨1⟩, [.const ⟨3⟩]⟩, .fact ⟨⟨1⟩, [.const ⟨4⟩]⟩, .fact ⟨⟨2⟩, [.const ⟨4⟩]⟩]

def tieredBindings : Substitution := Substitution.empty.add ⟨1⟩ (.term (.var ⟨2⟩))

def tieredNames : Vocabulary := { varNames := .replicate 3 ⟨5⟩ }

def tieredNode : Node := .ready ⟨⟨0⟩, [.var ⟨1⟩]⟩ 0 tieredBindings

def tieredSolution : Step := (tieredNode.next tieredRules 20 tieredNames .closed).get (by decide)

def tieredFailure : Step :=
  (tieredSolution.node.next tieredRules 20 tieredSolution.vocabulary .closed).get (by decide)

/-- The first rule backtracks to one solution, the second gives an error, and the node goes on
to exhaustion from there. -/
theorem nonrecursive_terminates_tieredRules :
    tieredRules.Descends (fun s => 1 - s.id) ∧
      tieredFailure.outcome = .failed (.unresolvable .disjunction) ∧
      ∃ rs W, tieredNode.Calls tieredRules tieredNames (rs ++ [(.exhausted, W)]) ∧
        2 ≤ rs.length := by
  have hdescends : tieredRules.Descends (fun s => 1 - s.id) := by decide
  have hθ : tieredBindings.Acyclic := Substitution.acyclic_empty.add (by decide)
  have hstart : Node.start tieredBindings (.atom ⟨⟨0⟩, [.var ⟨1⟩]⟩) = .ok tieredNode := rfl
  have hknown : tieredRules.KnownIn tieredNames := by decide
  have hfailure : tieredFailure.outcome = .failed (.unresolvable .disjunction) := by decide
  refine ⟨hdescends, hfailure, ?_⟩
  obtain ⟨-, rs, W, hcalls, -, hlongest⟩ :=
    nonrecursive_terminates hdescends (.start (V := tieredNames) hθ hstart) hknown
  have htwo := Node.Calls.cons (Option.some_get _).symm (by simp)
    (.cons (s := tieredFailure) (Option.some_get _).symm (by simp) .nil)
  exact ⟨rs, W, hcalls, (hlongest _ htwo (by decide)).length_le⟩

end HornResolution
