import Mathlib.Logic.Relation
import HornResolution.Proofs.Allocation

/-!
# Histories of a node

A node is started, asked for solutions and given new parents, in any order and any number
of times, and in between its vocabulary is put to other uses. A conduct says which parents it
may be given and what may become of the vocabulary. All statements about histories are about
this one relation, each under the conduct that it needs.
-/

namespace HornResolution

/-- What the users of a node keep to. -/
structure Conduct where
  /-- The parents that they give it. -/
  parents : Vocabulary → Substitution → Prop
  /-- What they make of the vocabulary between two requests. -/
  between : Vocabulary → Vocabulary → Prop

/-- A node in use. -/
structure Usage where
  /-- The parent that it was given last. -/
  parent : Substitution
  /-- The vocabulary at that moment. -/
  since : Vocabulary
  node : Node
  vocabulary : Vocabulary

def Usage.fresh (θ : Substitution) (node : Node) (V : Vocabulary) : Usage := ⟨θ, V, node, V⟩

/-- One thing that is done with a node: it is asked, which has an answer, or it is given a
parent, or the vocabulary is put to another use. -/
inductive Deed where
  | ask (depth : ℕ) (J : Journal) (answer : Outcome)
  | give (parent : Substitution)
  | wait

inductive Usage.Does (P : Program) (C : Conduct) : Deed → Usage → Usage → Prop
  | ask {u : Usage} {depth : ℕ} {J : Journal} {s : Step}
      (h : u.node.next P depth u.vocabulary J = some s) :
      Does P C (.ask depth J s.outcome) u { u with node := s.node, vocabulary := s.vocabulary }
  | give {u : Usage} {θ : Substitution} (hθ : C.parents u.vocabulary θ) :
      Does P C (.give θ) u (.fresh θ (u.node.reset θ) u.vocabulary)
  | wait {u : Usage} {V : Vocabulary} (hV : C.between u.vocabulary V) :
      Does P C .wait u { u with vocabulary := V }

/-- What a node in use can come to. -/
def Usage.ComesTo (P : Program) (C : Conduct) : Usage → Usage → Prop :=
  Relation.ReflTransGen fun u u' => ∃ deed, Does P C deed u u'

/-- The states of the node of a goal, which was started in the given vocabulary. -/
def History (P : Program) (C : Conduct) (goal : Formula) (V : Vocabulary) (u : Usage) : Prop :=
  ∃ θ node, C.parents V θ ∧ Node.start θ goal = .ok node ∧ (Usage.fresh θ node V).ComesTo P C u

namespace Conduct

def free : Conduct := ⟨fun _ _ => True, fun _ _ => True⟩

def callsOnly : Conduct := ⟨fun _ _ => False, fun _ _ => True⟩

def acyclic : Conduct := ⟨fun _ θ => θ.Acyclic, fun _ _ => True⟩

def regular : Conduct := ⟨fun _ θ => θ.Acyclic ∧ θ.TermValued, fun _ _ => True⟩

/-- Parents are about variables that are allocated, and no variable is given back. -/
def allocating : Conduct :=
  ⟨fun V θ => V.Allocated θ.occurrences, fun V V' => V.varCount ≤ V'.varCount⟩

end Conduct

section Histories

variable {P : Program} {C : Conduct} {goal : Formula} {θ : Substitution} {V : Vocabulary}
  {node : Node} {u u' : Usage} {deed : Deed}

theorem History.start (hθ : C.parents V θ) (h : Node.start θ goal = .ok node) :
    History P C goal V (.fresh θ node V) :=
  ⟨θ, node, hθ, h, .refl⟩

theorem History.does (hu : History P C goal V u) (h : u.Does P C deed u') :
    History P C goal V u' := by
  obtain ⟨θ, node, hθ, hnode, hrun⟩ := hu
  exact ⟨θ, node, hθ, hnode, hrun.tail ⟨deed, h⟩⟩

theorem History.ask {depth : ℕ} {J : Journal} {s : Step} (hu : History P C goal V u)
    (h : u.node.next P depth u.vocabulary J = some s) :
    History P C goal V { u with node := s.node, vocabulary := s.vocabulary } :=
  hu.does (.ask h)

/-- What holds when a node is started and is kept by everything that is done holds in every
history. -/
theorem History.invariant (h : History P C goal V u) (I : Usage → Prop)
    (hstart : ∀ θ node, C.parents V θ → Node.start θ goal = .ok node → I (.fresh θ node V))
    (hdoes : ∀ {deed u u'}, u.Does P C deed u' → I u → I u') : I u := by
  obtain ⟨θ, node, hθ, hnode, hrun⟩ := h
  induction hrun with
  | refl => exact hstart θ node hθ hnode
  | tail _ hstep ih =>
    obtain ⟨deed, hstep⟩ := hstep
    exact hdoes hstep ih

theorem History.parents (h : History P C goal V u) : C.parents u.since u.parent := by
  refine h.invariant (fun u => C.parents u.since u.parent) (fun θ node hθ _ => hθ) ?_
  intro deed u u' hdoes hu
  cases hdoes with
  | ask _ => exact hu
  | give hθ => exact hθ
  | wait _ => exact hu

/-- In every history the node solves the goal under its latest parent. -/
theorem History.explores (h : History P C goal V u) : u.node.Explores P 0 goal u.parent := by
  refine h.invariant (fun u => u.node.Explores P 0 goal u.parent)
    (fun θ node _ hnode => Node.explores_start hnode) ?_
  intro deed u u' hdoes hu
  cases hdoes with
  | ask hs => exact ((takes_of_next hs).explores_node hu).1
  | give _ => exact hu.reset _
  | wait _ => exact hu

end Histories

end HornResolution
