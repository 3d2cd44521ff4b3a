import HornResolution.Proofs.Soundness
import HornResolution.Query

/-!
# The substitutions that can be obtained

A substitution binds no variable twice, by its type. That no variable leads back to itself is
not part of the type, and everything that follows bindings relies on it. A binding that would
close a cycle is refused when it is made, by `extend` and in the course of a comparison, and
nothing else makes one. So whatever is obtained from the empty substitution through the library
is acyclic, and so are the solutions of searches and queries that start from such substitutions.
-/

namespace HornResolution

section Comparisons

variable {θ σ : Substitution} {v : Var} {a e : Expr} {es : List Expr}

theorem Substitution.Acyclic.extend (hθ : θ.Acyclic) (h : θ.extend v e = .ok σ) : σ.Acyclic := by
  unfold Substitution.extend at h
  split_ifs at h with hbound hocc
  obtain rfl := Except.ok.inj h
  exact hθ.add (by simpa using hocc)

theorem Substitution.Acyclic.unifyEach (hθ : θ.Acyclic) (h : unifyEach a es θ = .ok σ) :
    σ.Acyclic := by
  induction es generalizing θ with
  | nil => exact Except.ok.inj h ▸ hθ
  | cons e es ih =>
    rw [HornResolution.unifyEach] at h
    split at h
    · rename_i τ hτ
      exact ih (Unification.invariant_acyclic.unify trivial hθ hτ) h
    · simp at h

end Comparisons

namespace Query

section Stopping

variable (q : Query) (reason : StopReason) (σ : Substitution) (V : Vocabulary) (J : Journal)

theorem finish_spec :
    (q.finish reason V J).query.program = q.program ∧ (q.finish reason V J).query.root = q.root ∧
      ∀ τ, (q.finish reason V J).answer ≠ .ok (some τ) := by
  unfold finish
  split <;> exact ⟨rfl, rfl, by simp⟩

theorem record_spec :
    (q.record σ V J).query.program = q.program ∧ (q.record σ V J).query.root = q.root ∧
      ∀ τ, (q.record σ V J).answer = .ok (some τ) → σ = τ := by
  unfold record
  dsimp only
  split <;> exact ⟨rfl, rfl, by simp⟩

end Stopping

variable {q : Query} {depth elapsed : ℕ} {V : Vocabulary} {J : Journal} {s : QueryStep}

/-- A call of a query asks the root and hands on what it answers, or it leaves the root as it
is and has no solution. -/
theorem next_cases (h : q.next depth elapsed V J = some s) :
    s.query.program = q.program ∧
      ((∃ r, q.root.next q.program depth V J = some r ∧ s.query.root = r.node ∧
          ∀ σ, s.answer = .ok (some σ) → r.outcome = .solution σ) ∨
        s.query.root = q.root ∧ ∀ σ, s.answer ≠ .ok (some σ)) := by
  unfold next at h
  split_ifs at h
  · obtain rfl := Option.some.inj h
    exact ⟨rfl, Or.inr ⟨rfl, by simp⟩⟩
  · split at h
    · obtain rfl := Option.some.inj h
      obtain ⟨hprogram, hroot, hanswer⟩ := finish_spec q _ V J
      exact ⟨hprogram, Or.inr ⟨hroot, hanswer⟩⟩
    · split at h
      · simp at h
      · rename_i r hr
        split at h
        · obtain rfl := Option.some.inj h
          exact ⟨rfl, Or.inl ⟨r, hr, rfl, by simp⟩⟩
        · obtain rfl := Option.some.inj h
          obtain ⟨hprogram, hroot, hanswer⟩ := finish_spec { q with root := r.node } .exhausted
            r.vocabulary r.journal
          exact ⟨hprogram, Or.inl ⟨r, hr, hroot, fun σ hσ => absurd hσ (hanswer σ)⟩⟩
        · rename_i σ hσ
          obtain rfl := Option.some.inj h
          obtain ⟨hprogram, hroot, hanswer⟩ := record_spec { q with root := r.node } σ
            r.vocabulary r.journal
          exact ⟨hprogram, Or.inl ⟨r, hr, hroot, fun τ hτ => hanswer τ hτ ▸ hσ⟩⟩

end Query

/-- What the library hands out. -/
inductive Product where
  | substitution (σ : Substitution)
  | node (P : Program) (node : Node)
  | query (q : Query)

/-- What can be had, starting from the empty substitution, by any number of successful calls
with any arguments. Nodes and queries start and are reset under substitutions had before, and
their solutions can be used again in every place. -/
inductive Obtainable : Product → Prop
  | empty : Obtainable (.substitution .empty)
  | extend {θ σ v e} (hθ : Obtainable (.substitution θ)) (h : θ.extend v e = .ok σ) :
      Obtainable (.substitution σ)
  | unify {θ σ a b} (hθ : Obtainable (.substitution θ)) (h : unify a b θ = .ok σ) :
      Obtainable (.substitution σ)
  | unifyAll {σ a b es} (h : unifyAll a b es = .ok σ) : Obtainable (.substitution σ)
  | start {P θ goal node} (hθ : Obtainable (.substitution θ)) (h : Node.start θ goal = .ok node) :
      Obtainable (.node P node)
  | reset {P θ node} (hnode : Obtainable (.node P node)) (hθ : Obtainable (.substitution θ)) :
      Obtainable (.node P (node.reset θ))
  | next {P node depth V J s} (hnode : Obtainable (.node P node))
      (h : node.next P depth V J = some s) : Obtainable (.node P s.node)
  | solution {P node depth V J s σ} (hnode : Obtainable (.node P node))
      (h : node.next P depth V J = some s) (hs : s.outcome = .solution σ) :
      Obtainable (.substitution σ)
  | query {P θ goal q} (hθ : Obtainable (.substitution θ)) (h : Query.start P goal θ = .ok q) :
      Obtainable (.query q)
  | limited {q} (hq : Obtainable (.query q)) (limits : Limits) :
      Obtainable (.query { q with limits := limits })
  | queried {q depth elapsed V J s} (hq : Obtainable (.query q))
      (h : q.next depth elapsed V J = some s) : Obtainable (.query s.query)
  | answer {q depth elapsed V J s σ} (hq : Obtainable (.query q))
      (h : q.next depth elapsed V J = some s) (hs : s.answer = .ok (some σ)) :
      Obtainable (.substitution σ)

section Nodes

variable {P : Program} {node : Node} {depth : ℕ} {V : Vocabulary} {J : Journal} {s : Step}

/-- The node solves some goal under an acyclic parent. -/
def Node.Acyclic (P : Program) (node : Node) : Prop :=
  ∃ goal θ, θ.Acyclic ∧ node.Explores P 0 goal θ

theorem Node.Acyclic.next (hnode : node.Acyclic P) (h : node.next P depth V J = some s) :
    s.node.Acyclic P ∧ ∀ σ, s.outcome = .solution σ → σ.Acyclic := by
  obtain ⟨goal, θ, hθ, hexplores⟩ := hnode
  obtain ⟨hnode', hsol⟩ := (takes_of_next h).explores_node hexplores
  refine ⟨⟨goal, θ, hθ, hnode'⟩, ?_⟩
  intro σ hσ
  exact (hsol σ hσ).keeps Unification.invariant_acyclic hθ

def Product.Acyclic : Product → Prop
  | .substitution σ => σ.Acyclic
  | .node P node => node.Acyclic P
  | .query q => q.root.Acyclic q.program

/-- Nothing that the library hands out has a cycle, by induction over the calls that made it. -/
theorem Obtainable.acyclic {x : Product} (h : Obtainable x) : x.Acyclic := by
  induction h with
  | empty => exact Substitution.acyclic_empty
  | extend _ h ih => exact Substitution.Acyclic.extend ih h
  | unify _ h ih => exact Unification.invariant_acyclic.unify trivial ih h
  | unifyAll h => exact Substitution.acyclic_empty.unifyEach h
  | start _ h ih => exact ⟨_, _, ih, Node.explores_start h⟩
  | reset _ _ ihnode ihθ =>
    obtain ⟨goal, θ, -, hexplores⟩ := ihnode
    exact ⟨goal, _, ihθ, hexplores.reset _⟩
  | next _ h ih => exact (Node.Acyclic.next ih h).1
  | solution _ h hs ih => exact (Node.Acyclic.next ih h).2 _ hs
  | query _ h ih =>
    unfold Query.start at h
    split at h
    · simp at h
    · rename_i root hroot
      obtain rfl := Except.ok.inj h
      exact ⟨_, _, ih, Node.explores_start hroot⟩
  | limited _ _ ih => exact ih
  | queried _ h ih =>
    obtain ⟨hprogram, ⟨r, hr, hroot, -⟩ | ⟨hroot, -⟩⟩ := Query.next_cases h
    · rw [Product.Acyclic, hprogram, hroot]
      exact (Node.Acyclic.next ih hr).1
    · rw [Product.Acyclic, hprogram, hroot]
      exact ih
  | answer _ h hs ih =>
    obtain ⟨-, ⟨r, hr, -, hanswer⟩ | ⟨-, hnone⟩⟩ := Query.next_cases h
    · exact (Node.Acyclic.next ih hr).2 _ (hanswer _ hs)
    · exact absurd hs (hnone _)

end Nodes

/-- Every substitution that can be obtained binds each variable at most once, and none of its
variables leads back to itself. -/
theorem obtainable_acyclic {σ : Substitution} (h : Obtainable (.substitution σ)) :
    (σ.bindings.map Prod.fst).Nodup ∧ ∀ v, ¬ Relation.TransGen σ.Leads v v :=
  ⟨σ.nodup, h.acyclic⟩

/-- A query under bindings to a term and to an atom, both with the variable of its goal in them. -/
def sampleQuery : Query where
  program := .ofList [.fact ⟨⟨1⟩, [.const ⟨2⟩]⟩]
  goal := .atom ⟨⟨1⟩, [.var ⟨1⟩]⟩
  root := .ready ⟨⟨1⟩, [.var ⟨1⟩]⟩ 0 sampleBindings

theorem obtainable_acyclic_sampleQuery :
    ((sampleBindings.add ⟨1⟩ (.term (.const ⟨2⟩))).bindings.map Prod.fst).Nodup ∧
      ∀ v, ¬ Relation.TransGen (sampleBindings.add ⟨1⟩ (.term (.const ⟨2⟩))).Leads v v := by
  have hfirst : Obtainable (.substitution (.add .empty ⟨0⟩ (.term (.app ⟨5⟩ [.var ⟨1⟩])))) :=
    .extend .empty (v := ⟨0⟩) (e := .term (.app ⟨5⟩ [.var ⟨1⟩])) rfl
  have hsecond : Obtainable (.substitution sampleBindings) :=
    .extend hfirst (v := ⟨2⟩) (e := .atom ⟨⟨7⟩, [.var ⟨1⟩]⟩) rfl
  have hstart : Query.start sampleQuery.program sampleQuery.goal sampleBindings =
      .ok sampleQuery := rfl
  have hnext : sampleQuery.next 2 0 .empty .closed = some _ := rfl
  exact obtainable_acyclic (.answer (.query hsecond hstart) hnext rfl)

end HornResolution
