import HornResolution.Proofs.Remainders

/-!
# The search is the depth-first interpreter, taken one solution at a time

Each call of a node takes the first event off the run that the node stands for. The calls of
a search up to its first failure are therefore the events of the interpreter that ends there,
with the same substitutions and the same vocabularies.
-/

namespace HornResolution

/-- The answers of a node that is asked again and again, logged or not. A call that is logged and
comes to an event it cannot write down has no answer. -/
inductive Node.Calls (P : Program) : Node → Vocabulary → List (Outcome × Vocabulary) → Prop
  | nil {node : Node} {V : Vocabulary} : Calls P node V []
  | cons {node : Node} {d : ℕ} {V : Vocabulary} {J : Journal} {s : Step}
      {rs : List (Outcome × Vocabulary)} (hstep : node.next P d V J = some s)
      (hs : J ≠ .closed → s.outcome ≠ .failed .unnamed) (hrs : Calls P s.node s.vocabulary rs) :
      Calls P node V ((s.outcome, s.vocabulary) :: rs)

theorem Node.ne_unnamed {P : Program} {node : Node} {d : ℕ} {V : Vocabulary} {J : Journal}
    {s : Step} (h : node.next P d V J = some s) (hs : J ≠ .closed → s.outcome ≠ .failed .unnamed) :
    s.outcome ≠ .failed .unnamed := by
  by_cases hJ : J = .closed
  · exact ((takes_of_next h).unlogged hJ).2
  · exact hs hJ

theorem Node.Calls.exists_step {P : Program} {node : Node} {V : Vocabulary}
    {r : Outcome × Vocabulary} {rs : List (Outcome × Vocabulary)} (h : node.Calls P V (r :: rs)) :
    ∃ d J s, node.next P d V J = some s ∧ s.outcome ≠ .failed .unnamed ∧
      r = (s.outcome, s.vocabulary) ∧ s.node.Calls P s.vocabulary rs := by
  cases h with
  | cons hstep hs hrs => exact ⟨_, _, _, hstep, Node.ne_unnamed hstep hs, rfl, hrs⟩

namespace DepthFirst

section Calls

variable {P : Program} {node : Node} {V : Vocabulary}

section Events

variable {s : Step} {J : Journal} {d : ℕ} (h : Takes P (.node node) V J s)

include h

theorem event?_afterStep_zero :
    (afterStep P halting s d .entry).event? 0 = some (s.outcome, s.vocabulary) := by
  cases hout : s.outcome with
  | solution σ => rw [afterStep_solution hout, Trace.entry_andThen]; rfl
  | exhausted => rw [afterStep_exhausted h trivial hout]; rfl
  | failed e => rw [afterStep_failed hout, halts_halting]; rfl

theorem event?_afterStep_succ (hs : ∀ e, s.outcome ≠ .failed e) (i : ℕ) :
    (afterStep P halting s d .entry).event? (i + 1) =
      (rest P halting s.node d .entry s.vocabulary).event? i := by
  cases hout : s.outcome with
  | solution σ => rw [afterStep_solution hout, Trace.event?_entry_andThen_succ]
  | exhausted =>
    rw [afterStep_exhausted h trivial hout, rest_of_spent (h.spent trivial hout)]
    rfl
  | failed e => exact absurd hout (hs e)

end Events

/-- The answers of a node are the first events of the run it stands for. -/
theorem exists_event?_eq {rs : List (Outcome × Vocabulary)} (h : node.Calls P V rs)
    (hrs : ∀ r ∈ rs.dropLast, ∀ e, r.1 ≠ .failed e) {f : Formula} {θ : Substitution}
    (hnode : node.Explores P 0 f θ) :
    ∃ d₀, ∀ d ≥ d₀, ∀ i < rs.length, (rest P halting node d .entry V).event? i = rs[i]? := by
  induction h with
  | nil => exact ⟨0, by simp⟩
  | @cons node depth V J s rs hstep hs _ ih =>
    have htakes := takes_of_next hstep
    have hnode' := (htakes.explores_node hnode).1
    obtain ⟨d₁, hd₁⟩ := takesOff_of_takes givesUp_halting htakes (Node.ne_unnamed hstep hs)
      (.node hnode) trivial (.inl halts_halting)
    obtain ⟨d₂, hd₂⟩ := ih (fun r hr => hrs r (by cases rs <;> simp_all)) hnode'
    refine ⟨max d₁ d₂, ?_⟩
    intro d hd i hi
    have hrest : rest P halting node d .entry V = afterStep P halting s d .entry :=
      hd₁ d (by omega) _
    rw [hrest]
    cases i with
    | zero => exact event?_afterStep_zero htakes
    | succ i =>
      have hi' : i < rs.length := Nat.lt_of_succ_lt_succ hi
      have hfailed : ∀ e, s.outcome ≠ .failed e := by
        cases rs with
        | nil => simp at hi'
        | cons r rs => exact hrs (s.outcome, s.vocabulary) (by simp)
      rw [event?_afterStep_succ htakes hfailed]
      exact hd₂ d (by omega) i hi'

theorem exists_run_event?_eq {goal : Formula} {θ : Substitution}
    (hnode : Node.start θ goal = .ok node) {rs : List (Outcome × Vocabulary)}
    (h : node.Calls P V rs) (hrs : ∀ r ∈ rs.dropLast, ∀ e, r.1 ≠ .failed e) :
    ∃ d₀, ∀ d ≥ d₀, ∀ i < rs.length, (run P d goal θ V).event? i = rs[i]? := by
  obtain ⟨d₀, hd₀⟩ := exists_event?_eq h hrs (Node.explores_start hnode)
  refine ⟨d₀ + 1, ?_⟩
  intro d hd i hi
  obtain ⟨d, rfl⟩ : ∃ n, d = n + 1 := ⟨d - 1, by omega⟩
  rw [run, ← rest_start hnode]
  exact hd₀ d (by omega) i hi

end Calls

/-- The search refines the interpreter. A goal that cannot be started is one that the
interpreter fails on at once. Otherwise the answers of the node, up to the first failure,
are the first events of the interpreter, at every depth that is large enough. -/
theorem search_refines (P : Program) (goal : Formula) (θ : Substitution) (V : Vocabulary) :
    (∀ e, Node.start θ goal = .error e → ∀ d, run P (d + 1) goal θ V = .failed e V) ∧
      ∀ node, Node.start θ goal = .ok node → ∀ rs, node.Calls P V rs →
        (∀ r ∈ rs.dropLast, ∀ e, r.1 ≠ .failed e) →
          ∃ d₀, ∀ d ≥ d₀, ∀ i < rs.length, (run P d goal θ V).event? i = rs[i]? := by
  constructor
  · intro e he d
    exact solve_of_start_error he d
  · intro node hnode rs hcalls hrs
    exact exists_run_event?_eq hnode hcalls hrs

/-- A rule whose body is a conjunction, and a fact for each operand. -/
def sampleRules : Program := .ofList
  [.rule ⟨⟨0⟩, [.var ⟨0⟩]⟩ (.conj [.atom ⟨⟨1⟩, [.var ⟨0⟩]⟩, .atom ⟨⟨2⟩, [.var ⟨0⟩]⟩]),
    .fact ⟨⟨1⟩, [.const ⟨3⟩]⟩, .fact ⟨⟨2⟩, [.var ⟨0⟩]⟩]

/-- The answers of three calls: a solution, and exhaustion twice. The copies that were tried
in vain have their variables too. -/
def sampleAnswers : List (Outcome × Vocabulary) :=
  [(.solution { bindings := [(⟨0⟩, .term (.var ⟨1⟩)), (⟨1⟩, .term (.const ⟨3⟩)),
        (⟨4⟩, .term (.const ⟨3⟩))] },
      { varNames := .replicate 5 ⟨4⟩ }),
    (.exhausted, { varNames := .replicate 7 ⟨4⟩ }), (.exhausted, { varNames := .replicate 7 ⟨4⟩ })]

theorem search_refines_sampleAnswers :
    (Node.ready ⟨⟨0⟩, [.var ⟨0⟩]⟩ 0 .empty).Calls sampleRules { varNames := #[⟨4⟩] }
        sampleAnswers ∧
      ∃ d₀, ∀ d ≥ d₀, ∀ i < 3,
        (run sampleRules d (.atom ⟨⟨0⟩, [.var ⟨0⟩]⟩) .empty { varNames := #[⟨4⟩] }).event? i =
          sampleAnswers[i]? := by
  have hfirst : (Node.ready ⟨⟨0⟩, [.var ⟨0⟩]⟩ 0 .empty).next sampleRules 10
      { varNames := #[⟨4⟩] } .closed = some _ := rfl
  have hcalls := Node.Calls.cons hfirst (by simp)
    (.cons (d := 10) (J := .closed) rfl (by simp)
      (.cons (d := 10) (J := .closed) rfl (by simp) .nil))
  exact ⟨hcalls,
    (search_refines sampleRules _ _ _).2 _ rfl sampleAnswers hcalls (by simp [sampleAnswers])⟩

end DepthFirst

end HornResolution
