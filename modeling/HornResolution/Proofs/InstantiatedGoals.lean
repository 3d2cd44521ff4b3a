import HornResolution.Proofs.EagerSubstitution
import HornResolution.Proofs.Lockstep

/-!
# Searching under bindings and searching an instance

A goal can be searched under initial bindings, or the bindings can be put into the goal before
it is searched without any. The first search follows the bindings wherever it meets them, the
second has none to follow, and yet they go the same way. At every point the bindings of the
first resolve each variable as the initial bindings do, followed by the bindings of the second.
The copies of rules are the same in both, since their variables are too new to be bound.
-/

namespace HornResolution

open Unification Substitution

section Completion

variable {θ σ τ : Substitution}

/-- The first bindings together with the third do what the second do. -/
structure Completes (θ σ τ : Substitution) : Prop where
  regular : σ.Regular
  regular' : τ.Regular
  resolved : ∀ v, σ.resolved v = (θ.resolved v).bind τ.resolved

theorem completes_self (hθ : θ.Regular) : Completes θ θ .empty := by
  refine ⟨hθ, regular_empty, ?_⟩
  intro v
  exact (Term.bind_relabelling_id _).symm

theorem Completes.bind_atom (h : Completes θ σ τ) (p : Atom) :
    p.bind σ.resolved = (p.bind θ.resolved).bind τ.resolved := by
  rw [Atom.bind_bind]
  exact Atom.bind_congr fun v _ => h.resolved v

theorem Completes.apply_formula (h : Completes θ σ τ) (f : Formula) :
    f.apply σ = (f.apply θ).apply τ := by
  rw [Formula.apply_eq_bind_resolved, Formula.apply_eq_bind_resolved,
    Formula.apply_eq_bind_resolved, Formula.bind_bind]
  exact Formula.bind_congr fun v _ => h.resolved v

theorem Completes.refines {σ' τ' : Substitution} {μ : Var → Term} (h : Completes θ σ τ)
    (hσ : Refines σ σ' μ) (hτ : Refines τ τ' μ) : Completes θ σ' τ' := by
  refine ⟨hσ.regular, hτ.regular, ?_⟩
  intro v
  calc
    σ'.resolved v = ((θ.resolved v).bind τ.resolved).bind μ := by rw [hσ.resolved, h.resolved]
    _ = (θ.resolved v).bind τ'.resolved := (hτ.bind _).symm

end Completion

namespace Correspondence

/-- A search that goes on from the given bindings, and one of instances. -/
def instantiated (θ : Substitution) (logged : Prop) : Correspondence where
  terms := θ.resolved
  substitutions := Completes θ
  vocabularies V W := V = W ∧ V.Allocated θ.occurrences
  journals J J' := logged ∨ J = .closed ∧ J' = .closed
  lossy := logged

variable {θ : Substitution} {logged : Prop}

/-- The variables of a copy are too new to be bound. -/
theorem copy_bind_resolved {c copy : Clause} {V V' : Vocabulary} (hV : V.Allocated θ.occurrences)
    (h : c.standardizeApart V = (.ok copy, V')) : copy.bind θ.resolved = copy := by
  have hfree : ∀ w ∈ copy.occurrences, θ.resolved w = relabelling id w := by
    intro w hw
    apply resolved_of_free
    cases he : θ.get? w with
    | none => rfl
    | some e =>
      have hknown := Vocabulary.knowsVar_iff.mp (hV w (mem_occurrences_key he))
      have hnew := Clause.le_of_mem_copy h hw
      omega
  rw [Clause.bind_congr hfree, Clause.bind_relabelling_id]

theorem instantiated_rules (c : Clause) : (instantiated θ logged).Rules c c := by
  rintro V _ ⟨rfl, hV⟩
  cases hcopy : c.standardizeApart V with
  | mk r V' =>
    refine ⟨?_, rfl, hV.mono (Clause.varCount_le_standardizeApart hcopy)⟩
    cases r with
    | error e => exact .error e
    | ok copy => exact .ok (copy_bind_resolved hV hcopy).symm

theorem instantiated_sound (P : Program) : (instantiated θ logged).Sound P P where
  unifies p q h := by
    have hunify : Concordant _ _ (unify (.atom p) (.atom q) _)
        (unify (.atom (p.bind θ.resolved)) (.atom (q.bind θ.resolved)) _) :=
      unify_concordant h.regular h.regular' rfl (congrArg Expr.atom (h.bind_atom p))
        (congrArg Expr.atom (h.bind_atom q))
    simp only [instantiated]
    generalize unify (.atom p) (.atom q) _ = r,
      unify (.atom (p.bind θ.resolved)) (.atom (q.bind θ.resolved)) _ = r' at hunify ⊢
    cases hunify with
    | ok hσ hτ _ => exact .ok (h.refines hσ hτ)
    | symbols f g => exact .error _ _
    | arities m n => exact .error _ _
    | occurs v e e' => exact .error _ _
  rules i := by
    cases P.get? i with
    | none => exact .none
    | some c => exact .some (instantiated_rules c)
  report {J J' V W E E'} hJ _ _ := by
    rcases hJ with hlogged | ⟨rfl, rfl⟩
    · generalize J.report V E = r, J'.report W E' = r'
      cases r with
      | none => exact .left hlogged r'
      | some J =>
        cases r' with
        | none => exact .right hlogged (some J)
        | some J' => exact .some (Or.inl hlogged)
    · exact .some (Or.inr ⟨rfl, rfl⟩)

end Correspondence

/-- Two answers of one kind after which the vocabularies are equal. Solutions are compared by
what they make of a goal and of its instance. -/
structure Step.AgreesOn (goal : Formula) (θ : Substitution) (s t : Step) : Prop where
  outcome : s.outcome.Matches (fun σ τ => goal.apply σ = (goal.apply θ).apply τ) t.outcome
  vocabulary : s.vocabulary = t.vocabulary

def Request.calls (calls : List (ℕ × Journal)) : List Request := calls.map fun c => .next c.1 c.2

/-- Two nodes that answer every list of calls alike, up to a call that one of them cannot log.
If the calls are not logged, there is no such call. -/
structure Node.AnswersAlike (P : Program) (V : Vocabulary) (R : Step → Step → Prop)
    (node node' : Node) : Prop where
  logged : ∀ calls, Alongside True R (node.replies (Node.next P) (Request.calls calls) V)
    (node'.replies (Node.next P) (Request.calls calls) V)
  unlogged : ∀ calls : List (ℕ × Journal), (∀ c ∈ calls, c.2 = .closed) →
    List.Forall₂ R (node.replies (Node.next P) (Request.calls calls) V)
      (node'.replies (Node.next P) (Request.calls calls) V)

section Runs

variable {P : Program} {goal : Formula} {θ : Substitution} {V : Vocabulary} {node node' : Node}

theorem alongside_instantiated {logged : Prop} {calls : List (ℕ × Journal)}
    (hnode : (Correspondence.instantiated θ logged).Nodes node node')
    (hV : V.Allocated θ.occurrences) (hcalls : ∀ c ∈ calls, logged ∨ c.2 = .closed) :
    Alongside logged (Step.AgreesOn goal θ)
      (node.replies (Node.next P) (Request.calls calls) V)
      (node'.replies (Node.next P) (Request.calls calls) V) := by
  have hrequests : List.Forall₂ (Correspondence.instantiated θ logged).Requests
      (Request.calls calls) (Request.calls calls) := by
    rw [List.forall₂_same]
    intro request hrequest
    obtain ⟨c, hc, rfl⟩ := List.mem_map.mp hrequest
    refine .next c.1 ?_
    rcases hcalls c hc with hlogged | hclosed
    · exact Or.inl hlogged
    · exact Or.inr ⟨hclosed, hclosed⟩
  have hrun := (Correspondence.instantiated_sound P).replies hrequests hnode ⟨rfl, hV⟩
  refine hrun.mono ?_
  intro s t hst
  exact ⟨hst.outcome.mono fun σ τ h => h.apply_formula goal, hst.vocabulary.1⟩

end Runs

/-- Searching under bindings is searching the instance. A goal can be started under bindings of
terms if its instance can be started without any, and then both nodes answer alike: both are
exhausted, both fail with the same failure, or both have a solution, under which the goal and
its instance become the same; and both leave the same vocabulary. -/
theorem search_instantiated (P : Program) (goal : Formula) {θ : Substitution} {V : Vocabulary}
    (hacyclic : θ.Acyclic) (hterm : θ.TermValued) (hV : V.Allocated θ.occurrences) :
    Results (Node.AnswersAlike P V (Step.AgreesOn goal θ)) (Node.start θ goal)
      (Node.start .empty (goal.apply θ)) := by
  have hself := completes_self ⟨hacyclic, hterm⟩
  have hstart : ∀ logged, Results (Correspondence.instantiated θ logged).Nodes (Node.start θ goal)
      (Node.start .empty (goal.apply θ)) := fun logged =>
    Correspondence.Nodes.start (C := .instantiated θ logged) hself goal
  have hlogged := hstart True
  have hunlogged := hstart False
  generalize Node.start θ goal = r, Node.start .empty (goal.apply θ) = r'
    at hlogged hunlogged ⊢
  cases hlogged with
  | error e => exact .error e
  | ok hnode =>
    cases hunlogged with
    | ok hnode' =>
      refine .ok ⟨?_, ?_⟩
      · intro calls
        exact alongside_instantiated hnode hV fun _ _ => Or.inl trivial
      · intro calls hcalls
        exact (alongside_instantiated hnode' hV fun c hc => Or.inr (hcalls c hc)).forall₂

/-- Two rules for a goal whose variable is bound beforehand, and a fact for the body of the
second. -/
def boundRules : Program := .ofList
  [.fact ⟨⟨0⟩, [.app ⟨1⟩ [.const ⟨2⟩]]⟩,
    .rule ⟨⟨0⟩, [.app ⟨1⟩ [.var ⟨0⟩]]⟩ (.atom ⟨⟨3⟩, [.var ⟨0⟩]⟩), .fact ⟨⟨3⟩, [.const ⟨4⟩]⟩]

def boundGoal : Formula := .atom ⟨⟨0⟩, [.var ⟨0⟩]⟩

def termBinding : Substitution where
  bindings := [(⟨0⟩, .term (.app ⟨1⟩ [.var ⟨1⟩]))]

theorem regular_termBinding : termBinding.Regular := regular_empty.add (by decide)

def boundNode : Node := .ready ⟨⟨0⟩, [.var ⟨0⟩]⟩ 0 termBinding

def instanceNode : Node := .ready ⟨⟨0⟩, [.app ⟨1⟩ [.var ⟨1⟩]]⟩ 0 .empty

/-- Two solutions under the binding and two of the instance, with the same values of the other
variable. -/
theorem search_instantiated_boundGoal :
    (boundNode.replies (Node.next boundRules)
        (Request.calls [(9, .closed), (9, .closed), (9, .closed)])
        { varNames := #[⟨5⟩, ⟨6⟩] }).map Step.outcome =
      [.solution { bindings := termBinding.bindings ++ [(⟨1⟩, .term (.const ⟨2⟩))] },
        .solution { bindings := termBinding.bindings ++
          [(⟨1⟩, .term (.var ⟨2⟩)), (⟨2⟩, .term (.const ⟨4⟩))] },
        .exhausted] ∧
    List.Forall₂ (Step.AgreesOn boundGoal termBinding)
      (boundNode.replies (Node.next boundRules)
        (Request.calls [(9, .closed), (9, .closed), (9, .closed)]) { varNames := #[⟨5⟩, ⟨6⟩] })
      (instanceNode.replies (Node.next boundRules)
        (Request.calls [(9, .closed), (9, .closed), (9, .closed)])
        { varNames := #[⟨5⟩, ⟨6⟩] }) := by
  have h : Results _ (.ok boundNode) (.ok instanceNode) :=
    search_instantiated boundRules boundGoal (V := { varNames := #[⟨5⟩, ⟨6⟩] })
      regular_termBinding.acyclic regular_termBinding.termValued (by decide)
  cases h with
  | ok hnodes => exact ⟨rfl, hnodes.unlogged _ (by simp)⟩

end HornResolution
