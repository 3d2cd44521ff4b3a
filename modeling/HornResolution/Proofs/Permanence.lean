import HornResolution.Proofs.CallDepth
import HornResolution.Proofs.Histories

/-!
# Exhaustion is permanent

A node that has reported exhaustion is spent: its atoms have no rule left, and neither have
the nodes inside it, which are all asked again by a later call. Such a call ends in
exhaustion too and changes nothing, so the node is spent as long as it is not reset. This
is true of every node, also of one that an error has left half built.
-/

namespace HornResolution

section Spent

variable {P : Program} {task : Task} {node : Node} {V : Vocabulary} {J : Journal} {s : Step}

/-- A task about nodes with nothing left to try. -/
def Task.Spent (P : Program) : Task → Prop
  | .node n => n.Spent P
  | .first f _ rest => f.Spent P ∧ ∀ r, rest = some r → r.Spent P

/-- The atoms that a node and the nodes inside it are asked for. -/
def Node.goals : Node → List Atom
  | .ready goal _ _ => [goal]
  | .inBody goal _ _ body => goal :: body.goals
  | .single first => first.goals
  | .opening first _ => first.goals
  | .paired first _ rest => first.goals ++ rest.goals

/-- The vocabulary lacks a name of a goal in the node. -/
def Node.Unnamed (V : Vocabulary) (node : Node) : Prop := ∃ goal ∈ node.goals, goal.text? V = none

theorem Node.Unnamed.conjunction {first : Node} (h : first.Unnamed V) (remaining : Formula)
    (rest : Option Node) : (Node.conjunction first remaining rest).Unnamed V := by
  obtain ⟨goal, hgoal, htext⟩ := h
  cases rest with
  | none => exact ⟨goal, hgoal, htext⟩
  | some r => exact ⟨goal, List.mem_append_left _ hgoal, htext⟩

theorem Node.Unnamed.paired {rest : Node} (h : rest.Unnamed V) (first : Node)
    (remaining : Formula) : (Node.paired first remaining rest).Unnamed V := by
  obtain ⟨goal, hgoal, htext⟩ := h
  exact ⟨goal, List.mem_append_right _ hgoal, htext⟩

theorem Atom.text?_of_report {goal : Atom} (h : J.report V (.exhausted goal) = none) :
    goal.text? V = none := by
  cases J with
  | closed => simp at h
  | opened latest =>
    rw [Journal.report] at h
    split at h
    · simp at h
    · rename_i hknows
      exact if_neg hknows

/-- Nothing has come of a call but its last report, if that could be written. -/
structure Step.Idle (s : Step) (node : Node) (V : Vocabulary) : Prop where
  node_eq : s.node = node
  vocabulary_eq : s.vocabulary = V
  outcome_eq : s.outcome = .exhausted ∨ s.outcome = .failed .unnamed ∧ node.Unnamed V

theorem Step.Idle.ne_solution (h : s.Idle node V) (σ : Substitution) :
    s.outcome ≠ .solution σ := by
  rcases h.outcome_eq with hs | ⟨hs, -⟩ <;> simp [hs]

theorem Node.not_spent_of_get? {goal : Atom} {i : ℕ} {parent : Substitution} {rule : Clause}
    (h : P.get? i = some rule) : ¬ (Node.ready goal i parent).Spent P := by
  intro hspent
  cases hspent with
  | ready hnone => simp [h] at hnone

theorem Tried.not_spent {goal : Atom} {i : ℕ} {parent : Substitution} {V' : Vocabulary}
    {J' : Journal} {course : Course} (h : Tried P goal i parent V J V' J' course) :
    ¬ (Node.ready goal i parent).Spent P := by
  obtain ⟨hrule, -, -, -⟩ := h
  exact Node.not_spent_of_get? hrule

theorem Takes.idle (h : Takes P task V J s) (htask : task.Spent P) :
    s.Idle (Node.ofTask task) V := by
  induction h with
  | exhausted _ _ => exact ⟨rfl, rfl, Or.inl rfl⟩
  | exhaustedUnnamed _ hreport =>
    exact ⟨rfl, rfl, Or.inr ⟨rfl, _, List.mem_singleton_self _, Atom.text?_of_report hreport⟩⟩
  | unknown hrule _ => exact absurd htask (Node.not_spent_of_get? hrule)
  | unnamed hrule _ _ => exact absurd htask (Node.not_spent_of_get? hrule)
  | passed htried _ _ => exact absurd htask htried.not_spent
  | solved htried => exact absurd htask htried.not_spent
  | blocked htried => exact absurd htask htried.not_spent
  | bodySolution htried _ _ _ => exact absurd htask htried.not_spent
  | bodyFailed htried _ _ _ => exact absurd htask htried.not_spent
  | bodyExhausted htried _ _ _ _ _ => exact absurd htask htried.not_spent
  | resumed _ _ _ => cases htask
  | resumedExhausted _ _ _ _ _ => cases htask
  | single _ ih =>
    cases htask with | single hfirst =>
    obtain ⟨hnode, hV, hs⟩ := ih hfirst
    exact ⟨congrArg Node.single hnode, hV, hs⟩
  | opening _ ih =>
    cases htask with | opening hfirst =>
    exact ih ⟨hfirst, by simp⟩
  | paired _ _ ih =>
    cases htask with | paired _ hrest =>
    obtain ⟨hnode, hV, hs⟩ := ih hrest
    exact ⟨congrArg (Node.paired _ _) hnode, hV, hs.imp_right fun h => ⟨h.1, h.2.paired _ _⟩⟩
  | pairedExhausted _ _ _ ihrest ih =>
    cases htask with | paired hfirst hrest =>
    obtain ⟨hnode, hV, -⟩ := ihrest hrest
    rw [Node.ofTask] at hnode
    rw [hnode, hV] at ih
    exact ih ⟨hfirst, by simpa using hrest⟩
  | firstEnded _ _ ih =>
    obtain ⟨hnode, hV, hs⟩ := ih htask.1
    refine ⟨congrArg (Node.conjunction · _ _) hnode, hV, hs.imp_right fun h => ?_⟩
    exact ⟨h.1, h.2.conjunction _ _⟩
  | restBlocked _ hsol _ ih => exact absurd hsol ((ih htask.1).ne_solution _)
  | restStepped _ hsol _ _ _ ih _ => exact absurd hsol ((ih htask.1).ne_solution _)
  | backtrackUnnamed _ hsol _ _ _ _ ih _ => exact absurd hsol ((ih htask.1).ne_solution _)
  | backtracked _ hsol _ _ _ _ _ ih _ _ => exact absurd hsol ((ih htask.1).ne_solution _)

theorem Node.Spent.exists_takes (h : node.Spent P) (V : Vocabulary) (J : Journal) :
    ∃ s, Takes P (.node node) V J s := by
  induction h generalizing J with
  | @ready goal i parent hrule =>
    cases hreport : J.report V (.exhausted goal) with
    | none => exact ⟨_, .exhaustedUnnamed hrule hreport⟩
    | some J' => exact ⟨_, .exhausted hrule hreport⟩
  | single _ ih =>
    obtain ⟨s, hs⟩ := ih J
    exact ⟨_, .single hs⟩
  | opening hfirst ih =>
    obtain ⟨s, hs⟩ := ih J
    exact ⟨_, .opening (.firstEnded hs (hs.idle hfirst).ne_solution)⟩
  | paired hfirst hrest ihfirst ihrest =>
    obtain ⟨r, hr⟩ := ihrest J
    by_cases hout : r.outcome = .exhausted
    · obtain ⟨-, hV, -⟩ := hr.idle hrest
      obtain ⟨s, hs⟩ := ihfirst r.journal
      rw [← hV] at hs
      exact ⟨_, .pairedExhausted hr hout (.firstEnded hs (hs.idle hfirst).ne_solution)⟩
    · exact ⟨_, .paired hr hout⟩

end Spent

theorem Node.Spent.comesTo_eq {P : Program} {u later : Usage} (h : u.node.Spent P)
    (hlater : u.ComesTo P .callsOnly later) : later.node = u.node := by
  induction hlater with
  | refl => rfl
  | tail _ hstep ih =>
    obtain ⟨deed, hdoes⟩ := hstep
    cases hdoes with
    | ask hs =>
      rw [← ih] at h
      exact ((takes_of_next hs).idle h).node_eq.trans ih
    | give hθ => exact hθ.elim
    | wait _ => exact ih

/-- Exhaustion is permanent. Once a node has reported it, no further call changes the node. Each
one comes back, leaves the node and the vocabulary as they are and reports exhaustion again; it is
kept from that only if it is logged and the vocabulary lacks a name of a goal in the node. -/
theorem exhaustion_permanent {P : Program} {u later : Usage} {depth : ℕ} {J : Journal} {s : Step}
    (h : u.node.next P depth u.vocabulary J = some s) (hs : s.outcome = .exhausted)
    (hlater : Usage.ComesTo P .callsOnly
      { u with node := s.node, vocabulary := s.vocabulary } later) :
    later.node = s.node ∧ ∀ V J,
      (∃ d₀, ∀ d ≥ d₀, (later.node.next P d V J).isSome) ∧
        ∀ d t, later.node.next P d V J = some t →
          t.node = later.node ∧ t.vocabulary = V ∧
            (t.outcome = .exhausted ∨
              t.outcome = .failed .unnamed ∧ J ≠ .closed ∧ later.node.Unnamed V) := by
  have hspent : s.node.Spent P := (takes_of_next h).spent trivial hs
  have hsame : later.node = s.node := Node.Spent.comesTo_eq hspent hlater
  rw [hsame]
  refine ⟨rfl, ?_⟩
  intro V J
  constructor
  · obtain ⟨t, ht⟩ := hspent.exists_takes V J
    obtain ⟨d₀, hd₀⟩ := ht.exists_bound
    exact ⟨d₀, fun d hd => Option.isSome_iff_exists.mpr ⟨t, hd₀ d hd⟩⟩
  · intro d t ht
    have htakes := takes_of_next ht
    obtain ⟨hnode, hV, hout⟩ := htakes.idle hspent
    refine ⟨hnode, hV, hout.imp_right fun ⟨hunnamed, hgoal⟩ => ⟨hunnamed, ?_, hgoal⟩⟩
    intro hJ
    exact (htakes.unlogged hJ).2 hunnamed

/-- A fact for the first of two atoms, and for the second a rule that cannot be resolved. -/
def brokenRules : Program := .ofList
  [.fact ⟨⟨0⟩, [.const ⟨2⟩]⟩, .rule ⟨⟨1⟩, [.const ⟨2⟩]⟩ (.disj [])]

def brokenNode : Node :=
  .opening (.ready ⟨⟨0⟩, [.var ⟨0⟩]⟩ 0 .empty) (.conj [.atom ⟨⟨1⟩, [.var ⟨0⟩]⟩])

def brokenFailure : Step := (brokenNode.next brokenRules 9 .empty .closed).get (by decide)

def brokenEnd : Step :=
  (brokenFailure.node.next brokenRules 9 brokenFailure.vocabulary .closed).get (by decide)

/-- The first call fails on the second atom, the second one ends in exhaustion, and so do all
that follow. -/
theorem exhaustion_permanent_brokenNode :
    brokenFailure.outcome = .failed (.unresolvable .disjunction) ∧
      brokenEnd.outcome = .exhausted ∧
      ∀ d V t, brokenEnd.node.next brokenRules d V .closed = some t →
        t.node = brokenEnd.node ∧ t.vocabulary = V ∧ t.outcome = .exhausted := by
  have hend : brokenEnd.outcome = .exhausted := by decide
  refine ⟨by decide, hend, ?_⟩
  intro d V t ht
  have hsecond : brokenFailure.node.next brokenRules 9 brokenFailure.vocabulary .closed =
      some brokenEnd := (Option.some_get _).symm
  have hpermanent := exhaustion_permanent
    (u := .fresh .empty brokenFailure.node brokenFailure.vocabulary) hsecond hend .refl
  obtain ⟨hnode, hV, hout⟩ := (hpermanent.2 V .closed).2 d t ht
  exact ⟨hnode, hV, hout.resolve_right (by simp)⟩

end HornResolution
