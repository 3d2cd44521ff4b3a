import HornResolution.Proofs.Histories
import HornResolution.Proofs.Lockstep

/-!
# Resetting is rebuilding

No call changes the goals that are stored in a node, so a reset takes a node back to the
state in which it was started, however far it and the nodes inside it have got. A conjunction
resets the node of its remaining operands for each further solution of the first one. Here it
is compared with a machine that builds a new node each time; the two give the same answers.
-/

namespace HornResolution

namespace Node

/-- Builds a new node and lets go of the old one. -/
def rebuild : Renewal := fun σ remaining _ => start σ remaining

section Equality

variable {P : Program} {depth : ℕ} {V : Vocabulary} {J : Journal}

theorem andThen_congr {r r' : Option Step} {f g : Step → Option Step} :
    r = r' → (∀ s, r' = some s → f s = g s) →
      (match r with | none => none | some s => f s) =
        (match r' with | none => none | some s => g s) := by
  rintro rfl h
  cases r with
  | none => rfl
  | some s => exact h s rfl

structure RebuildsWithin (P : Program) (depth : ℕ) : Prop where
  next : ∀ {node f θ V J}, node.Explores P 0 f θ →
    nextWith rebuild P depth node V J = Node.next P depth node V J
  nextFirst : ∀ {first f g gs θ rest V J}, first.Explores P 0 f θ →
    RestExplores P 0 f θ (.conj (g :: gs)) rest →
    nextFirstWith rebuild P depth first (.conj (g :: gs)) rest V J =
      Node.nextFirst P depth first (.conj (g :: gs)) rest V J

theorem Explores.next {node : Node} {f : Formula} {θ : Substitution} {s : Step}
    (hnode : node.Explores P 0 f θ) (h : node.next P depth V J = some s) :
    s.Explores P 0 f θ :=
  (takes_of_next h).explores_node hnode

theorem rebuilds_ready (ih : RebuildsWithin P depth) (goal : Atom) (i : ℕ) (θ : Substitution) :
    nextWith rebuild P (depth + 1) (.ready goal i θ) V J =
      Node.next P (depth + 1) (.ready goal i θ) V J := by
  rw [nextWith, next_ready, tryNext, tryNext]
  split_ifs
  · rfl
  · generalize P.standardizeApart i V = copied
    obtain ⟨r, V'⟩ := copied
    cases r with
    | error e => rfl
    | ok copy =>
      have htrial := trial_make goal θ copy
      simp only [follow]
      cases J.report V' (Attempt.make goal θ copy).event with
      | none => rfl
      | some J' =>
        generalize (Attempt.make goal θ copy).course = course at htrial ⊢
        cases htrial with
        | headless body => exact ih.next (.ready goal (i + 1) θ)
        | factMismatch _ => exact ih.next (.ready goal (i + 1) θ)
        | ruleMismatch _ => exact ih.next (.ready goal (i + 1) θ)
        | fact _ => rfl
        | blocked _ _ => rfl
        | entered _ hbody =>
          refine andThen_congr (ih.next (explores_start hbody)) ?_
          intro s _
          cases s.outcome with
          | solution σ => rfl
          | failed e => rfl
          | exhausted => exact ih.next (.ready goal (i + 1) θ)

theorem rebuilds_first (ih : RebuildsWithin P depth) {first : Node} {f g : Formula}
    {gs : List Formula} {θ : Substitution} {rest : Option Node} (hfirst : first.Explores P 0 f θ)
    (hrest : RestExplores P 0 f θ (.conj (g :: gs)) rest) :
    nextFirstWith rebuild P (depth + 1) first (.conj (g :: gs)) rest V J =
      Node.nextFirst P (depth + 1) first (.conj (g :: gs)) rest V J := by
  simp only [nextFirstWith, nextFirst_succ, solveFirst]
  refine andThen_congr (ih.next hfirst) ?_
  intro s hs
  obtain ⟨hfirst', hsol⟩ := hfirst.next hs
  cases hout : s.outcome with
  | exhausted => rfl
  | failed e => rfl
  | solution σ =>
    simp only [hrest.renew_eq_start, rebuild]
    cases hstart : start σ (.conj (g :: gs)) with
    | error e => rfl
    | ok node =>
      have hnode : node.Explores P 0 (.conj (g :: gs)) σ := explores_start hstart
      refine andThen_congr (ih.next hnode) ?_
      intro r hr
      cases r.outcome with
      | solution τ => rfl
      | failed e => rfl
      | exhausted =>
        simp only
        cases r.journal.report r.vocabulary (.backtracked (.conj (g :: gs))) with
        | none => rfl
        | some J' => exact ih.nextFirst hfirst' (.some (hsol σ hout) (hnode.next hr).1)

/-- Rebuilding makes no difference to a node that solves a goal, however deep its calls are. -/
theorem rebuildsWithin (P : Program) (depth : ℕ) : RebuildsWithin P depth := by
  induction depth with
  | zero => exact ⟨fun _ => rfl, fun _ _ => rfl⟩
  | succ depth ih =>
    refine ⟨fun {node f θ V J} hnode => ?_, fun hfirst hrest => rebuilds_first ih hfirst hrest⟩
    cases hnode with
    | ready goal i θ => exact rebuilds_ready ih goal i θ
    | @inBody goal _ _ i _ _ _ _ _ hchild =>
      simp only [nextWith, next_inBody, resume]
      refine andThen_congr (ih.next hchild) ?_
      intro s _
      cases s.outcome with
      | exhausted => exact ih.next (.ready goal i θ)
      | solution σ => rfl
      | failed e => rfl
    | single hfirst => rw [nextWith, next_single, ih.next hfirst]
    | opening hfirst =>
      rw [nextWith, next_opening]
      exact ih.nextFirst hfirst (by simp [RestExplores])
    | paired hfirst hτ hrest =>
      simp only [nextWith, next_paired, solveRest]
      refine andThen_congr (ih.next hrest) ?_
      intro s hs
      cases s.outcome with
      | exhausted => exact ih.nextFirst hfirst (.some hτ (hrest.next hs).1)
      | solution σ => rfl
      | failed e => rfl

theorem Explores.replies_rebuild {node : Node} {f : Formula} {θ : Substitution}
    (hnode : node.Explores P 0 f θ) (requests : List Request) (V : Vocabulary) :
    node.replies (nextWith rebuild P) requests V = node.replies (Node.next P) requests V := by
  induction requests generalizing node θ V with
  | nil => rfl
  | cons request requests ih =>
    cases request with
    | reset σ => exact ih (hnode.reset σ) V
    | next depth J =>
      rw [replies, replies, (rebuildsWithin P depth).next hnode]
      cases hs : node.next P depth V J with
      | none => rfl
      | some s => simp only [ih (hnode.next hs).1]

end Equality

end Node

/-- Resetting is rebuilding. Whatever was asked of the node of a goal, a reset takes it to the
state in which a new node is started. A machine whose conjunctions renew the node for their
remaining operands in a way of their own is the search if they reset it; if they build a new
one, it still answers all that is asked of the node from then on as the search does, with the
same outcomes and journals, the same states and the same vocabularies. -/
theorem reset_rebuilds {P : Program} {goal : Formula} {V₀ : Vocabulary} {u : Usage}
    (hu : History P .free goal V₀ u) :
    (∀ θ, Node.start θ goal = .ok (u.node.reset θ)) ∧
      Node.nextWith Node.renew P = Node.next P ∧
      ∀ requests V, u.node.replies (Node.nextWith Node.rebuild P) requests V =
        u.node.replies (Node.next P) requests V :=
  ⟨hu.explores.start_eq_reset, rfl, hu.explores.replies_rebuild⟩

/-- Two facts for the first of two atoms; a fact for the second and a rule that cannot be
resolved. -/
def tailRules : Program := .ofList
  [.fact ⟨⟨0⟩, [.const ⟨2⟩]⟩, .fact ⟨⟨0⟩, [.const ⟨3⟩]⟩, .fact ⟨⟨1⟩, [.const ⟨3⟩]⟩,
    .rule ⟨⟨1⟩, [.const ⟨3⟩]⟩ (.disj [])]

def tailGoal : Formula := .conj [.atom ⟨⟨0⟩, [.var ⟨0⟩]⟩, .atom ⟨⟨1⟩, [.var ⟨0⟩]⟩]

def tailNode : Node :=
  .opening (.ready ⟨⟨0⟩, [.var ⟨0⟩]⟩ 0 .empty) (.conj [.atom ⟨⟨1⟩, [.var ⟨0⟩]⟩])

def tailSolution : Step := (tailNode.next tailRules 9 .empty .closed).get (by decide)

def tailFailure : Step :=
  (tailSolution.node.next tailRules 9 tailSolution.vocabulary .closed).get (by decide)

/-- The node for the second atom is reset for the second fact and finds a solution. The next
call fails in the middle of it, and a reset takes everything back. -/
theorem reset_rebuilds_tailNode :
    tailSolution.outcome = .solution { bindings := [(⟨0⟩, .term (.const ⟨3⟩))] } ∧
      tailFailure.outcome = .failed (.unresolvable .disjunction) ∧
      Node.start .empty tailGoal = .ok (tailFailure.node.reset .empty) ∧
      tailNode.replies (Node.nextWith Node.rebuild tailRules)
          [.next 9 .closed, .next 9 .closed] .empty = [tailSolution, tailFailure] := by
  have hstart : History tailRules .free tailGoal .empty (.fresh .empty tailNode .empty) :=
    .start trivial rfl
  have hsolution : tailNode.next tailRules 9 .empty .closed = some tailSolution :=
    (Option.some_get _).symm
  have hfailure : tailSolution.node.next tailRules 9 tailSolution.vocabulary .closed =
      some tailFailure := (Option.some_get _).symm
  refine ⟨by decide, by decide, (reset_rebuilds ((hstart.ask hsolution).ask hfailure)).1 .empty, ?_⟩
  exact (reset_rebuilds hstart).2.2 _ _

end HornResolution
