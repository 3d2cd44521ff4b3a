import HornResolution.Proofs.SearchSteps

/-!
# Searches that go the same way

Two searches may differ in their rules, goals and bindings and still go through the same
calls. A correspondence says which substitutions, vocabularies and journals of the one belong
to which of the other, and which terms the other has in place of the variables of the one. It
is sound if the elementary steps keep it: unifying two atoms, copying a rule and reporting an
event. Then every call of a search keeps it, and so does a whole run of calls and resets.
-/

namespace HornResolution

inductive Results {α β : Type} (R : α → β → Prop) : Except Misuse α → Except Misuse β → Prop
  | ok {a : α} {b : β} (h : R a b) : Results R (.ok a) (.ok b)
  | error (e : Misuse) : Results R (.error e) (.error e)

inductive Outcome.Matches (R : Substitution → Substitution → Prop) : Outcome → Outcome → Prop
  | solution {σ τ : Substitution} (h : R σ τ) : Matches R (.solution σ) (.solution τ)
  | exhausted : Matches R .exhausted .exhausted
  | failed (e : Misuse) : Matches R (.failed e) (.failed e)

theorem Outcome.Matches.mono {R S : Substitution → Substitution → Prop} {o o' : Outcome}
    (h : o.Matches R o') (hRS : ∀ σ τ, R σ τ → S σ τ) : o.Matches S o' := by
  cases h with
  | solution h => exact .solution (hRS _ _ h)
  | exhausted => exact .exhausted
  | failed e => exact .failed e

/-- What of one search belongs to what of another. -/
structure Correspondence where
  /-- What the second search has in the place of a variable of the first. -/
  terms : Var → Term
  substitutions : Substitution → Substitution → Prop
  vocabularies : Vocabulary → Vocabulary → Prop
  journals : Journal → Journal → Prop
  /-- Whether one search may have names for an event for which the other has none. -/
  lossy : Prop

namespace Correspondence

section Relations

variable (C : Correspondence)

inductive Nodes : Node → Node → Prop
  | ready (goal : Atom) (i : ℕ) {σ τ : Substitution} (h : C.substitutions σ τ) :
      Nodes (.ready goal i σ) (.ready (goal.bind C.terms) i τ)
  | inBody (goal : Atom) (i : ℕ) {σ τ : Substitution} {body body' : Node}
      (h : C.substitutions σ τ) (hbody : Nodes body body') :
      Nodes (.inBody goal i σ body) (.inBody (goal.bind C.terms) i τ body')
  | single {first first' : Node} (hfirst : Nodes first first') :
      Nodes (.single first) (.single first')
  | opening {first first' : Node} (remaining : Formula) (hfirst : Nodes first first') :
      Nodes (.opening first remaining) (.opening first' (remaining.bind C.terms))
  | paired {first first' rest rest' : Node} (remaining : Formula) (hfirst : Nodes first first')
      (hrest : Nodes rest rest') :
      Nodes (.paired first remaining rest) (.paired first' (remaining.bind C.terms) rest')

inductive Courses : Course → Course → Prop
  | passed : Courses .passed .passed
  | solved {σ τ : Substitution} (h : C.substitutions σ τ) : Courses (.solved σ) (.solved τ)
  | entered {body body' : Node} (h : C.Nodes body body') : Courses (.entered body) (.entered body')
  | blocked (e : Misuse) : Courses (.blocked e) (.blocked e)

/-- The events that both searches report at the same point. -/
inductive Events : Event → Event → Prop
  | exhausted (goal : Atom) : Events (.exhausted goal) (.exhausted (goal.bind C.terms))
  | attempt (goal : Atom) (copy : Clause) {σ τ : Substitution} (h : C.substitutions σ τ) :
      Events (Attempt.make goal σ copy).event
        (Attempt.make (goal.bind C.terms) τ (copy.bind C.terms)).event
  | backtracked (remaining : Formula) :
      Events (.backtracked remaining) (.backtracked (remaining.bind C.terms))

/-- Two journals that took their events, or two that did not. -/
inductive Written : Option Journal → Option Journal → Prop
  | none : Written none none
  | some {J J' : Journal} (h : C.journals J J') : Written (some J) (some J')
  | left (hC : C.lossy) (r : Option Journal) : Written none r
  | right (hC : C.lossy) (r : Option Journal) : Written r none

/-- Two results of unification, both bindings or both failures of whatever kind. -/
inductive Unifiers : Except Clash Substitution → Except Clash Substitution → Prop
  | ok {σ τ : Substitution} (h : C.substitutions σ τ) : Unifiers (.ok σ) (.ok τ)
  | error (clash clash' : Clash) : Unifiers (.error clash) (.error clash')

/-- Whenever both are copied, the copies belong together, or there is none for the same reason. -/
def Rules (c d : Clause) : Prop :=
  ∀ V W, C.vocabularies V W →
    Results (fun copy copy' => copy' = copy.bind C.terms) (c.standardizeApart V).1
        (d.standardizeApart W).1 ∧
      C.vocabularies (c.standardizeApart V).2 (d.standardizeApart W).2

/-- The elementary steps of two searches keep the correspondence. -/
structure Sound (P Q : Program) : Prop where
  unifies : ∀ {σ τ} (p q : Atom), C.substitutions σ τ →
    C.Unifiers (unify (.atom p) (.atom q) σ)
      (unify (.atom (p.bind C.terms)) (.atom (q.bind C.terms)) τ)
  rules : ∀ i, Option.Rel C.Rules (P.get? i) (Q.get? i)
  report : ∀ {J J' V W E E'}, C.journals J J' → C.vocabularies V W → C.Events E E' →
    C.Written (J.report V E) (J'.report W E')

structure Steps (s t : Step) : Prop where
  outcome : s.outcome.Matches C.substitutions t.outcome
  node : C.Nodes s.node t.node
  vocabulary : C.vocabularies s.vocabulary t.vocabulary
  journal : C.journals s.journal t.journal

/-- Two calls of which neither or both come back, unless one of them could not be logged. -/
inductive Calls : Option Step → Option Step → Prop
  | none : Calls none none
  | some {s t : Step} (h : C.Steps s t) : Calls (some s) (some t)
  | left (hC : C.lossy) {s : Step} (hs : s.outcome = .failed .unnamed) (r : Option Step) :
      Calls (some s) r
  | right (hC : C.lossy) {t : Step} (ht : t.outcome = .failed .unnamed) (r : Option Step) :
      Calls r (some t)

end Relations

variable {C : Correspondence} {P Q : Program} {σ τ : Substitution} {V W : Vocabulary}
  {J J' : Journal}

section Building

theorem Nodes.start (h : C.substitutions σ τ) (f : Formula) :
    Results C.Nodes (Node.start σ f) (Node.start τ (f.bind C.terms)) := by
  induction f using Formula.induction with
  | atom a => exact .ok (.ready a 0 h)
  | conj fs ih =>
    cases fs with
    | nil => exact .error _
    | cons f fs =>
      have hfirst := ih f (by simp)
      rw [Formula.bind_conj, List.map_cons, Node.start, Node.start, Node.startOperands,
        Node.startOperands]
      generalize Node.start σ f = r, Node.start τ (f.bind C.terms) = r' at hfirst ⊢
      cases hfirst with
      | error e => exact .error e
      | ok hfirst =>
        cases fs with
        | nil => exact .ok (.single hfirst)
        | cons g gs =>
          have hopening := Nodes.opening (.conj (g :: gs)) hfirst
          rw [Formula.bind_conj, List.map_cons] at hopening
          exact .ok hopening
  | disj fs _ => exact .error _
  | neg f _ => exact .error _

theorem Nodes.reset {node node' : Node} (hnode : C.Nodes node node')
    (h : C.substitutions σ τ) : C.Nodes (node.reset σ) (node'.reset τ) := by
  induction hnode with
  | ready goal i _ => exact .ready goal 0 h
  | inBody goal i _ _ _ => exact .ready goal 0 h
  | single _ ih => exact .single ih
  | opening remaining _ ih => exact .opening remaining ih
  | paired remaining _ _ ih _ => exact .opening remaining ih

variable {first first' : Node} {rest rest' : Option Node}

theorem Nodes.renew (hrest : Option.Rel C.Nodes rest rest') (h : C.substitutions σ τ)
    (remaining : Formula) :
    Results C.Nodes (Node.renew σ remaining rest)
      (Node.renew τ (remaining.bind C.terms) rest') := by
  cases hrest with
  | none => exact Nodes.start h remaining
  | some hrest => exact .ok (hrest.reset h)

theorem Nodes.conjunction (hfirst : C.Nodes first first') (hrest : Option.Rel C.Nodes rest rest')
    (remaining : Formula) :
    C.Nodes (Node.conjunction first remaining rest)
      (Node.conjunction first' (remaining.bind C.terms) rest') := by
  cases hrest with
  | none => exact .opening remaining hfirst
  | some hrest => exact .paired remaining hfirst hrest

theorem Sound.attempt (hC : C.Sound P Q) (h : C.substitutions σ τ) (goal : Atom)
    (copy : Clause) :
    C.Courses (Attempt.make goal σ copy).course
      (Attempt.make (goal.bind C.terms) τ (copy.bind C.terms)).course := by
  cases copy with
  | goal body => exact .passed
  | fact head =>
    have hunify := hC.unifies goal head h
    simp only [Attempt.make, Clause.bind_fact, Clause.head?, Clause.body?]
    generalize unify (.atom goal) (.atom head) σ = r, unify (.atom (goal.bind C.terms))
      (.atom (head.bind C.terms)) τ = r' at hunify ⊢
    cases hunify with
    | ok h => exact .solved h
    | error clash clash' => exact .passed
  | rule head body =>
    have hunify := hC.unifies goal head h
    simp only [Attempt.make, Clause.bind_rule, Clause.head?, Clause.body?]
    generalize unify (.atom goal) (.atom head) σ = r, unify (.atom (goal.bind C.terms))
      (.atom (head.bind C.terms)) τ = r' at hunify ⊢
    cases hunify with
    | error clash clash' => exact .passed
    | @ok σ τ h =>
      have hbody := Nodes.start h body
      simp only
      generalize Node.start σ body = r, Node.start τ (body.bind C.terms) = r' at hbody ⊢
      cases hbody with
      | ok hchild => exact .entered hchild
      | error e => exact .blocked e

end Building

section Calls

theorem Steps.within {s t : Step} {node node' : Node} (h : C.Steps s t)
    (hnode : C.Nodes node node') : C.Steps (s.within node) (t.within node') :=
  ⟨h.outcome, hnode, h.vocabulary, h.journal⟩

/-- A failure to write is handed on by whatever comes after the call. -/
def HandsOn (f : Step → Option Step) : Prop :=
  ∀ s, s.outcome = .failed .unnamed → ∃ t, f s = some t ∧ t.outcome = .failed .unnamed

theorem Calls.andThen {f g : Step → Option Step} (hf : HandsOn f) (hg : HandsOn g)
    (hgo : ∀ s t, C.Steps s t → C.Calls (f s) (g t)) {r r' : Option Step} :
    C.Calls r r' →
      C.Calls (match r with | .none => .none | .some s => f s)
        (match r' with | .none => .none | .some t => g t) := by
  intro h
  cases h with
  | none => exact .none
  | some h => exact hgo _ _ h
  | left hC hs _ =>
    obtain ⟨t, ht, hunnamed⟩ := hf _ hs
    simp only [ht]
    exact .left hC hunnamed _
  | right hC ht _ =>
    obtain ⟨t, ht, hunnamed⟩ := hg _ ht
    simp only [ht]
    exact .right hC hunnamed _

structure Within (C : Correspondence) (P Q : Program) (depth : ℕ) : Prop where
  next : ∀ {node node' V W J J'}, C.Nodes node node' → C.vocabularies V W → C.journals J J' →
    C.Calls (Node.next P depth node V J) (Node.next Q depth node' W J')
  nextFirst : ∀ {first first' rest rest' V W J J'} (remaining : Formula),
    C.Nodes first first' → Option.Rel C.Nodes rest rest' → C.vocabularies V W →
    C.journals J J' →
    C.Calls (Node.nextFirst P depth first remaining rest V J)
      (Node.nextFirst Q depth first' (remaining.bind C.terms) rest' W J')

variable {depth : ℕ}

theorem Sound.follow (hC : C.Sound P Q) (ih : C.Within P Q depth) (h : C.substitutions σ τ)
    (hV : C.vocabularies V W) (hJ : C.journals J J') (goal : Atom) (i : ℕ) (copy : Clause) :
    C.Calls (Node.follow (Node.next P depth) goal i σ V J (Attempt.make goal σ copy))
      (Node.follow (Node.next Q depth) (goal.bind C.terms) i τ W J'
        (Attempt.make (goal.bind C.terms) τ (copy.bind C.terms))) := by
  have hwritten := hC.report hJ hV (.attempt goal copy h)
  have hcourse := hC.attempt h goal copy
  have hwaiting : C.Nodes (.ready goal (i + 1) σ)
      (.ready (goal.bind C.terms) (i + 1) τ) := .ready goal (i + 1) h
  simp only [Node.follow]
  generalize J.report V _ = r, J'.report W _ = r' at hwritten ⊢
  cases hwritten with
  | none => exact .some ⟨.failed _, hwaiting, hV, hJ⟩
  | left hlossy _ => exact .left hlossy rfl _
  | right hlossy _ => exact .right hlossy rfl _
  | some hJ' =>
    generalize (Attempt.make goal σ copy).course = course,
      (Attempt.make _ τ (copy.bind C.terms)).course = course' at hcourse ⊢
    cases hcourse with
    | passed => exact ih.next hwaiting hV hJ'
    | solved hσ => exact .some ⟨.solution hσ, hwaiting, hV, hJ'⟩
    | blocked e => exact .some ⟨.failed e, hwaiting, hV, hJ'⟩
    | entered hchild =>
      refine Calls.andThen ?_ ?_ ?_ (ih.next hchild hV hJ')
      · intro s hs
        simp [hs]
      · intro s hs
        simp [hs]
      · intro s t hst
        have houtcome := hst.outcome
        generalize s.outcome = o, t.outcome = o' at houtcome ⊢
        cases houtcome with
        | solution _ => exact .some (hst.within (.inBody goal (i + 1) h hst.node))
        | failed e => exact .some (hst.within hwaiting)
        | exhausted => exact ih.next hwaiting hst.vocabulary hst.journal

theorem Sound.ready (hC : C.Sound P Q) (ih : C.Within P Q depth) (h : C.substitutions σ τ)
    (hV : C.vocabularies V W) (hJ : C.journals J J') (goal : Atom) (i : ℕ) :
    C.Calls (Node.next P (depth + 1) (.ready goal i σ) V J)
      (Node.next Q (depth + 1) (.ready (goal.bind C.terms) i τ) W J') := by
  have hrules := hC.rules i
  generalize hP : P.get? i = rule, hQ : Q.get? i = rule' at hrules
  cases hrules with
  | none =>
    have hwritten := hC.report hJ hV (.exhausted goal)
    rw [Node.next_ready_of_none hP, Node.next_ready_of_none hQ]
    generalize J.report V _ = r, J'.report W _ = r' at hwritten ⊢
    cases hwritten with
    | none => exact .some ⟨.failed _, .ready goal i h, hV, hJ⟩
    | some hJ => exact .some ⟨.exhausted, .ready goal i h, hV, hJ⟩
    | left hlossy _ => exact .left hlossy rfl _
    | right hlossy _ => exact .right hlossy rfl _
  | @some rule rule' hrule =>
    obtain ⟨hcopies, hV'⟩ := hrule V W hV
    rw [Node.next_ready_of_some hP, Node.next_ready_of_some hQ]
    generalize rule.standardizeApart V = r, rule'.standardizeApart W = r' at hcopies hV' ⊢
    obtain ⟨copies, V'⟩ := r
    obtain ⟨copies', W'⟩ := r'
    cases hcopies with
    | error e => exact .some ⟨.failed e, .ready goal i h, hV', hJ⟩
    | @ok copy copy' hcopy =>
      subst hcopy
      exact hC.follow ih h hV' hJ goal i copy

theorem Sound.first (hC : C.Sound P Q) (ih : C.Within P Q depth) {first first' : Node}
    {rest rest' : Option Node} (remaining : Formula) (hfirst : C.Nodes first first')
    (hrest : Option.Rel C.Nodes rest rest') (hV : C.vocabularies V W) (hJ : C.journals J J') :
    C.Calls (Node.nextFirst P (depth + 1) first remaining rest V J)
      (Node.nextFirst Q (depth + 1) first' (remaining.bind C.terms) rest' W J') := by
  simp only [Node.nextFirst_succ, Node.solveFirst]
  refine Calls.andThen ?_ ?_ ?_ (ih.next hfirst hV hJ)
  · intro s hs
    simp [hs]
  · intro s hs
    simp [hs]
  · intro s t hst
    have houtcome := hst.outcome
    have hconj := hst.node.conjunction hrest remaining
    generalize s.outcome = o, t.outcome = o' at houtcome ⊢
    cases houtcome with
    | exhausted => exact .some (hst.within hconj)
    | failed e => exact .some (hst.within hconj)
    | @solution σ τ hσ =>
      have hrenew := Nodes.renew hrest hσ remaining
      simp only
      generalize Node.renew σ remaining rest = r, Node.renew τ _ rest' = r' at hrenew ⊢
      cases hrenew with
      | error e => exact .some ⟨.failed e, hconj, hst.vocabulary, hst.journal⟩
      | ok hnode =>
        refine Calls.andThen ?_ ?_ ?_ (ih.next hnode hst.vocabulary hst.journal)
        · intro r hr
          simp [hr]
        · intro r hr
          simp [hr]
        · intro r q hrq
          have houtcome := hrq.outcome
          have hpaired := Nodes.paired remaining hst.node hrq.node
          generalize r.outcome = o, q.outcome = o' at houtcome ⊢
          cases houtcome with
          | solution _ => exact .some (hrq.within hpaired)
          | failed e => exact .some (hrq.within hpaired)
          | exhausted =>
            have hwritten := hC.report hrq.journal hrq.vocabulary (.backtracked remaining)
            simp only
            generalize r.journal.report r.vocabulary _ = w, q.journal.report q.vocabulary _ = w'
              at hwritten ⊢
            cases hwritten with
            | none => exact .some ⟨.failed _, hpaired, hrq.vocabulary, hrq.journal⟩
            | left hlossy _ => exact .left hlossy rfl _
            | right hlossy _ => exact .right hlossy rfl _
            | some hJ' => exact ih.nextFirst remaining hst.node (.some hrq.node) hrq.vocabulary hJ'

/-- Corresponding nodes give corresponding answers, however deep the calls are. -/
theorem Sound.within (hC : C.Sound P Q) (depth : ℕ) : C.Within P Q depth := by
  induction depth with
  | zero => exact ⟨fun _ _ _ => .none, fun _ _ _ _ _ => .none⟩
  | succ depth ih =>
    refine ⟨fun {node node' V W J J'} hnode hV hJ => ?_, hC.first ih⟩
    cases hnode with
    | ready goal i h => exact hC.ready ih h hV hJ goal i
    | inBody goal i h hbody =>
      simp only [Node.next_inBody, Node.resume]
      refine Calls.andThen ?_ ?_ ?_ (ih.next hbody hV hJ)
      · intro s hs
        simp [hs]
      · intro s hs
        simp [hs]
      · intro s t hst
        have houtcome := hst.outcome
        have hnode := Nodes.inBody goal i h hst.node
        generalize s.outcome = o, t.outcome = o' at houtcome ⊢
        cases houtcome with
        | exhausted => exact ih.next (.ready goal i h) hst.vocabulary hst.journal
        | solution _ => exact .some (hst.within hnode)
        | failed e => exact .some (hst.within hnode)
    | single hfirst =>
      have hstep := ih.next hfirst hV hJ
      simp only [Node.next_single]
      generalize Node.next P depth _ V J = r, Node.next Q depth _ W J' = r' at hstep ⊢
      cases hstep with
      | none => exact .none
      | some hst => exact .some (hst.within (.single hst.node))
      | @left hlossy s hs _ => exact .left hlossy (s := s.within (.single s.node)) hs _
      | @right hlossy t ht _ => exact .right hlossy (t := t.within (.single t.node)) ht _
    | opening remaining hfirst =>
      simp only [Node.next_opening]
      exact ih.nextFirst remaining hfirst .none hV hJ
    | paired remaining hfirst hrest =>
      simp only [Node.next_paired, Node.solveRest]
      refine Calls.andThen ?_ ?_ ?_ (ih.next hrest hV hJ)
      · intro s hs
        simp [hs]
      · intro s hs
        simp [hs]
      · intro s t hst
        have houtcome := hst.outcome
        have hnode := Nodes.paired remaining hfirst hst.node
        generalize s.outcome = o, t.outcome = o' at houtcome ⊢
        cases houtcome with
        | exhausted =>
          exact ih.nextFirst remaining hfirst (.some hst.node) hst.vocabulary hst.journal
        | solution _ => exact .some (hst.within hnode)
        | failed e => exact .some (hst.within hnode)

end Calls

end Correspondence

section Runs

/-- What is asked of a node. Every call has a bound on its depth and a journal of its own. -/
inductive Request where
  | next (depth : ℕ) (journal : Journal)
  | reset (parent : Substitution)

/-- The answers of a node to a list of requests, up to a call that has none. -/
def Node.replies (ask : ℕ → Node → Vocabulary → Journal → Option Step) :
    List Request → Node → Vocabulary → List Step
  | [], _, _ => []
  | .reset parent :: requests, node, V => replies ask requests (node.reset parent) V
  | .next depth J :: requests, node, V =>
    match ask depth node V J with
    | none => []
    | some s => s :: replies ask requests s.node s.vocabulary

/-- The answers of two runs are related call by call, up to a call that one of them could not
log. -/
inductive Alongside (lossy : Prop) (R : Step → Step → Prop) : List Step → List Step → Prop
  | nil : Alongside lossy R [] []
  | cons {s t : Step} {ss ts : List Step} (h : R s t) (hs : Alongside lossy R ss ts) :
      Alongside lossy R (s :: ss) (t :: ts)
  | left (h : lossy) {s : Step} (hs : s.outcome = .failed .unnamed) (ss ts : List Step) :
      Alongside lossy R (s :: ss) ts
  | right (h : lossy) {t : Step} (ht : t.outcome = .failed .unnamed) (ss ts : List Step) :
      Alongside lossy R ss (t :: ts)

theorem Alongside.mono {lossy : Prop} {R S : Step → Step → Prop} {ss ts : List Step}
    (h : Alongside lossy R ss ts) (hRS : ∀ s t, R s t → S s t) : Alongside lossy S ss ts := by
  induction h with
  | nil => exact .nil
  | cons h _ ih => exact .cons (hRS _ _ h) ih
  | left h hs ss ts => exact .left h hs ss ts
  | right h ht ss ts => exact .right h ht ss ts

theorem Alongside.forall₂ {R : Step → Step → Prop} {ss ts : List Step}
    (h : Alongside False R ss ts) : List.Forall₂ R ss ts := by
  induction h with
  | nil => exact .nil
  | cons h _ ih => exact .cons h ih
  | left h _ _ _ => exact h.elim
  | right h _ _ _ => exact h.elim

namespace Correspondence

inductive Requests (C : Correspondence) : Request → Request → Prop
  | next (depth : ℕ) {J J' : Journal} (h : C.journals J J') :
      Requests C (.next depth J) (.next depth J')
  | reset {σ τ : Substitution} (h : C.substitutions σ τ) : Requests C (.reset σ) (.reset τ)

theorem Sound.replies {C : Correspondence} {P Q : Program} (hC : C.Sound P Q)
    {requests requests' : List Request} (hrequests : List.Forall₂ C.Requests requests requests')
    {node node' : Node} {V W : Vocabulary} (hnode : C.Nodes node node')
    (hV : C.vocabularies V W) :
    Alongside C.lossy C.Steps (node.replies (Node.next P) requests V)
      (node'.replies (Node.next Q) requests' W) := by
  induction hrequests generalizing node node' V W with
  | nil => exact .nil
  | cons hrequest _ ih =>
    cases hrequest with
    | reset h => exact ih (hnode.reset h) hV
    | next depth hJ =>
      have hcall := (hC.within depth).next hnode hV hJ
      rw [Node.replies, Node.replies]
      generalize Node.next P depth node V _ = r, Node.next Q depth node' W _ = r' at hcall ⊢
      cases hcall with
      | none => exact .nil
      | some hst => exact .cons hst (ih hst.node hst.vocabulary)
      | left hlossy hs _ => exact .left hlossy hs _ _
      | right hlossy ht _ => exact .right hlossy ht _ _

end Correspondence

end Runs

end HornResolution
