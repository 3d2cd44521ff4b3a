import HornResolution.Proofs.StandardizingApart
import HornResolution.Search.Step

/-!
# What a step of a search does

`Node.next` is bounded in the depth of its calls. The relation `Takes` says what
one of its answers comes from, call by call and without a bound: it has a rule for
each way in which a node can go on. Whatever holds of all steps of a search is
proved by induction over these rules.
-/

namespace HornResolution

/-- Who is asked for a solution: a node, or a conjunction whose remaining operands have
none left under the latest solution of the first one. -/
inductive Task where
  | node (node : Node)
  | first (first : Node) (remaining : Formula) (rest : Option Node)

/-- What a copy of a rule is tried for and what that comes to. -/
inductive Trial (goal : Atom) (parent : Substitution) : Clause → Course → Prop
  | headless (body : Formula) : Trial goal parent (.goal body) .passed
  | factMismatch {head : Atom} {clash : Clash}
      (hclash : unify (.atom goal) (.atom head) parent = .error clash) :
      Trial goal parent (.fact head) .passed
  | ruleMismatch {head : Atom} {body : Formula} {clash : Clash}
      (hclash : unify (.atom goal) (.atom head) parent = .error clash) :
      Trial goal parent (.rule head body) .passed
  | fact {head : Atom} {σ : Substitution} (hσ : unify (.atom goal) (.atom head) parent = .ok σ) :
      Trial goal parent (.fact head) (.solved σ)
  | blocked {head : Atom} {body : Formula} {τ : Substitution} {e : Misuse}
      (hτ : unify (.atom goal) (.atom head) parent = .ok τ)
      (hbody : Node.start τ body = .error e) :
      Trial goal parent (.rule head body) (.blocked e)
  | entered {head : Atom} {body : Formula} {τ : Substitution} {child : Node}
      (hτ : unify (.atom goal) (.atom head) parent = .ok τ)
      (hbody : Node.start τ body = .ok child) :
      Trial goal parent (.rule head body) (.entered child)

theorem trial_make (goal : Atom) (parent : Substitution) (copy : Clause) :
    Trial goal parent copy (Attempt.make goal parent copy).course := by
  cases copy with
  | goal body => exact .headless body
  | fact head =>
    cases h : unify (.atom goal) (.atom head) parent with
    | error clash => simpa [Attempt.make, Clause.head?, h] using Trial.factMismatch h
    | ok σ => simpa [Attempt.make, Clause.head?, Clause.body?, h] using Trial.fact h
  | rule head body =>
    cases h : unify (.atom goal) (.atom head) parent with
    | error clash => simpa [Attempt.make, Clause.head?, h] using Trial.ruleMismatch h
    | ok τ =>
      cases hbody : Node.start τ body with
      | error e => simpa [Attempt.make, Clause.head?, Clause.body?, h, hbody] using
          Trial.blocked h hbody
      | ok child => simpa [Attempt.make, Clause.head?, Clause.body?, h, hbody] using
          Trial.entered h hbody

/-- The rule at an index was copied and tried for an atom, and the attempt was reported. -/
inductive Tried (P : Program) (goal : Atom) (i : ℕ) (parent : Substitution) (V : Vocabulary)
    (J : Journal) (V' : Vocabulary) (J' : Journal) (course : Course) : Prop
  | intro {rule copy : Clause} (hrule : P.get? i = some rule)
      (hcopy : rule.standardizeApart V = (.ok copy, V'))
      (hreport : J.report V' (Attempt.make goal parent copy).event = some J')
      (htrial : Trial goal parent copy course)

theorem Tried.varCount_le {P : Program} {goal : Atom} {i : ℕ} {parent : Substitution}
    {V V' : Vocabulary} {J J' : Journal} {course : Course}
    (h : Tried P goal i parent V J V' J' course) : V.varCount ≤ V'.varCount := by
  obtain ⟨-, hcopy, -, -⟩ := h
  exact Clause.varCount_le_standardizeApart hcopy

section Relation

variable (P : Program)

/-- The steps of a search. -/
inductive Takes : Task → Vocabulary → Journal → Step → Prop
  | exhausted {goal i parent V J J'} (hrule : P.get? i = none)
      (hreport : J.report V (.exhausted goal) = some J') :
      Takes (.node (.ready goal i parent)) V J ⟨.exhausted, .ready goal i parent, V, J'⟩
  | exhaustedUnnamed {goal i parent V J} (hrule : P.get? i = none)
      (hreport : J.report V (.exhausted goal) = none) :
      Takes (.node (.ready goal i parent)) V J ⟨.failed .unnamed, .ready goal i parent, V, J⟩
  | unknown {goal i parent V V' J rule e} (hrule : P.get? i = some rule)
      (hcopy : rule.standardizeApart V = (.error e, V')) :
      Takes (.node (.ready goal i parent)) V J ⟨.failed e, .ready goal i parent, V', J⟩
  | unnamed {goal i parent V V' J rule copy} (hrule : P.get? i = some rule)
      (hcopy : rule.standardizeApart V = (.ok copy, V'))
      (hreport : J.report V' (Attempt.make goal parent copy).event = none) :
      Takes (.node (.ready goal i parent)) V J ⟨.failed .unnamed, .ready goal (i + 1) parent, V', J⟩
  | passed {goal i parent V V' J J' s} (htried : Tried P goal i parent V J V' J' .passed)
      (hnext : Takes (.node (.ready goal (i + 1) parent)) V' J' s) :
      Takes (.node (.ready goal i parent)) V J s
  | solved {goal i parent V V' J J' σ} (htried : Tried P goal i parent V J V' J' (.solved σ)) :
      Takes (.node (.ready goal i parent)) V J ⟨.solution σ, .ready goal (i + 1) parent, V', J'⟩
  | blocked {goal i parent V V' J J' e} (htried : Tried P goal i parent V J V' J' (.blocked e)) :
      Takes (.node (.ready goal i parent)) V J ⟨.failed e, .ready goal (i + 1) parent, V', J'⟩
  | bodySolution {goal i parent V V' J J' child s σ}
      (htried : Tried P goal i parent V J V' J' (.entered child))
      (hbody : Takes (.node child) V' J' s) (hs : s.outcome = .solution σ) :
      Takes (.node (.ready goal i parent)) V J (s.within (.inBody goal (i + 1) parent s.node))
  | bodyFailed {goal i parent V V' J J' child s e}
      (htried : Tried P goal i parent V J V' J' (.entered child))
      (hbody : Takes (.node child) V' J' s) (hs : s.outcome = .failed e) :
      Takes (.node (.ready goal i parent)) V J (s.within (.ready goal (i + 1) parent))
  | bodyExhausted {goal i parent V V' J J' child s r}
      (htried : Tried P goal i parent V J V' J' (.entered child))
      (hbody : Takes (.node child) V' J' s) (hs : s.outcome = .exhausted)
      (hnext : Takes (.node (.ready goal (i + 1) parent)) s.vocabulary s.journal r) :
      Takes (.node (.ready goal i parent)) V J r
  | resumed {goal i parent body V J s} (hbody : Takes (.node body) V J s)
      (hs : s.outcome ≠ .exhausted) :
      Takes (.node (.inBody goal i parent body)) V J (s.within (.inBody goal i parent s.node))
  | resumedExhausted {goal i parent body V J s r} (hbody : Takes (.node body) V J s)
      (hs : s.outcome = .exhausted)
      (hnext : Takes (.node (.ready goal i parent)) s.vocabulary s.journal r) :
      Takes (.node (.inBody goal i parent body)) V J r
  | single {first V J s} (hfirst : Takes (.node first) V J s) :
      Takes (.node (.single first)) V J (s.within (.single s.node))
  | opening {first remaining V J s} (hfirst : Takes (.first first remaining none) V J s) :
      Takes (.node (.opening first remaining)) V J s
  | paired {first remaining rest V J s} (hrest : Takes (.node rest) V J s)
      (hs : s.outcome ≠ .exhausted) :
      Takes (.node (.paired first remaining rest)) V J (s.within (.paired first remaining s.node))
  | pairedExhausted {first remaining rest V J s r} (hrest : Takes (.node rest) V J s)
      (hs : s.outcome = .exhausted)
      (hnext : Takes (.first first remaining (some s.node)) s.vocabulary s.journal r) :
      Takes (.node (.paired first remaining rest)) V J r
  | firstEnded {first remaining rest V J s} (hfirst : Takes (.node first) V J s)
      (hs : ∀ σ, s.outcome ≠ .solution σ) :
      Takes (.first first remaining rest) V J (s.within (.conjunction s.node remaining rest))
  | restBlocked {first remaining rest V J s σ e} (hfirst : Takes (.node first) V J s)
      (hs : s.outcome = .solution σ) (hrenew : Node.renew σ remaining rest = .error e) :
      Takes (.first first remaining rest) V J
        { s with outcome := .failed e, node := .conjunction s.node remaining rest }
  | restStepped {first remaining rest V J s σ node r} (hfirst : Takes (.node first) V J s)
      (hs : s.outcome = .solution σ) (hrenew : Node.renew σ remaining rest = .ok node)
      (hrest : Takes (.node node) s.vocabulary s.journal r) (hr : r.outcome ≠ .exhausted) :
      Takes (.first first remaining rest) V J (r.within (.paired s.node remaining r.node))
  | backtrackUnnamed {first remaining rest V J s σ node r} (hfirst : Takes (.node first) V J s)
      (hs : s.outcome = .solution σ) (hrenew : Node.renew σ remaining rest = .ok node)
      (hrest : Takes (.node node) s.vocabulary s.journal r) (hr : r.outcome = .exhausted)
      (hreport : r.journal.report r.vocabulary (.backtracked remaining) = none) :
      Takes (.first first remaining rest) V J
        { r with outcome := .failed .unnamed, node := .paired s.node remaining r.node }
  | backtracked {first remaining rest V J J' s σ node r t} (hfirst : Takes (.node first) V J s)
      (hs : s.outcome = .solution σ) (hrenew : Node.renew σ remaining rest = .ok node)
      (hrest : Takes (.node node) s.vocabulary s.journal r) (hr : r.outcome = .exhausted)
      (hreport : r.journal.report r.vocabulary (.backtracked remaining) = some J')
      (hnext : Takes (.first s.node remaining (some r.node)) r.vocabulary J' t) :
      Takes (.first first remaining rest) V J t

end Relation

section Trying

variable {P : Program} {depth i : ℕ} {goal : Atom} {parent : Substitution} {rule : Clause}

theorem Program.length_le_iff : P.length ≤ i ↔ P.get? i = none :=
  Array.getElem?_eq_none_iff.symm

theorem Node.next_ready_of_none (hrule : P.get? i = none) (V : Vocabulary) (J : Journal) :
    Node.next P (depth + 1) (.ready goal i parent) V J =
      match J.report V (.exhausted goal) with
      | none => some ⟨.failed .unnamed, .ready goal i parent, V, J⟩
      | some J' => some ⟨.exhausted, .ready goal i parent, V, J'⟩ := by
  rw [Node.next_ready, Node.tryNext]
  exact if_pos (Program.length_le_iff.mpr hrule)

theorem Node.next_ready_of_some (hrule : P.get? i = some rule) (V : Vocabulary) (J : Journal) :
    Node.next P (depth + 1) (.ready goal i parent) V J =
      match rule.standardizeApart V with
      | (.error e, V') => some ⟨.failed e, .ready goal i parent, V', J⟩
      | (.ok copy, V') =>
        Node.follow (Node.next P depth) goal i parent V' J (Attempt.make goal parent copy) := by
  have hindex : ¬P.length ≤ i := by simp [Program.length_le_iff, hrule]
  have hcopy : P.standardizeApart i V = rule.standardizeApart V := by
    rw [Program.standardizeApart, hrule]
  rw [Node.next_ready, Node.tryNext, hcopy]
  exact if_neg hindex

end Trying

section Soundness

variable {P : Program} {depth : ℕ} {V : Vocabulary} {J : Journal} {s : Step}

structure TakesWithin (P : Program) (depth : ℕ) : Prop where
  next : ∀ {node V J s}, Node.next P depth node V J = some s → Takes P (.node node) V J s
  nextFirst : ∀ {first remaining rest V J s},
    Node.nextFirst P depth first remaining rest V J = some s →
      Takes P (.first first remaining rest) V J s

/-- An atom goes on by the course that its next rule takes. -/
theorem takes_ready (ih : TakesWithin P depth) {goal : Atom} {i : ℕ} {parent : Substitution}
    (h : Node.next P (depth + 1) (.ready goal i parent) V J = some s) :
    Takes P (.node (.ready goal i parent)) V J s := by
  cases hrule : P.get? i with
  | none =>
    rw [Node.next_ready_of_none hrule] at h
    split at h
    · rename_i hreport
      obtain rfl := Option.some.inj h
      exact .exhaustedUnnamed hrule hreport
    · rename_i J' hreport
      obtain rfl := Option.some.inj h
      exact .exhausted hrule hreport
  | some rule =>
    rw [Node.next_ready_of_some hrule] at h
    split at h
    · rename_i e V' hcopy
      obtain rfl := Option.some.inj h
      exact .unknown hrule hcopy
    · rename_i copy V' hcopy
      rw [Node.follow] at h
      split at h
      · rename_i hreport
        obtain rfl := Option.some.inj h
        exact .unnamed hrule hcopy hreport
      · rename_i J' hreport
        have htrial := trial_make goal parent copy
        split at h
        · rename_i hcourse
          rw [hcourse] at htrial
          exact .passed ⟨hrule, hcopy, hreport, htrial⟩ (ih.next h)
        · rename_i σ hcourse
          rw [hcourse] at htrial
          obtain rfl := Option.some.inj h
          exact .solved ⟨hrule, hcopy, hreport, htrial⟩
        · rename_i e hcourse
          rw [hcourse] at htrial
          obtain rfl := Option.some.inj h
          exact .blocked ⟨hrule, hcopy, hreport, htrial⟩
        · rename_i child hcourse
          rw [hcourse] at htrial
          have htried : Tried P goal i parent V J V' J' (.entered child) :=
            ⟨hrule, hcopy, hreport, htrial⟩
          split at h
          · simp at h
          · rename_i r hbody
            split at h
            · rename_i σ hr
              obtain rfl := Option.some.inj h
              exact .bodySolution htried (ih.next hbody) hr
            · rename_i e hr
              obtain rfl := Option.some.inj h
              exact .bodyFailed htried (ih.next hbody) hr
            · rename_i hr
              exact .bodyExhausted htried (ih.next hbody) hr (ih.next h)

theorem takes_first (ih : TakesWithin P depth) {first : Node} {remaining : Formula}
    {rest : Option Node} (h : Node.nextFirst P (depth + 1) first remaining rest V J = some s) :
    Takes P (.first first remaining rest) V J s := by
  rw [Node.nextFirst_succ, Node.solveFirst] at h
  split at h
  · simp at h
  · rename_i r hfirst
    split at h
    · rename_i σ hr
      split at h
      · rename_i e hrenew
        obtain rfl := Option.some.inj h
        exact .restBlocked (ih.next hfirst) hr hrenew
      · rename_i node hrenew
        split at h
        · simp at h
        · rename_i t hrest
          split at h
          · rename_i ht
            split at h
            · rename_i hreport
              obtain rfl := Option.some.inj h
              exact .backtrackUnnamed (ih.next hfirst) hr hrenew (ih.next hrest) ht hreport
            · rename_i J' hreport
              exact .backtracked (ih.next hfirst) hr hrenew (ih.next hrest) ht hreport
                (ih.nextFirst h)
          · rename_i ht
            obtain rfl := Option.some.inj h
            exact .restStepped (ih.next hfirst) hr hrenew (ih.next hrest) ht
    · rename_i hr
      obtain rfl := Option.some.inj h
      exact .firstEnded (ih.next hfirst) hr

theorem takesWithin (P : Program) (depth : ℕ) : TakesWithin P depth := by
  induction depth with
  | zero =>
    exact ⟨fun h => by simp [Node.next_zero] at h, fun h => by simp [Node.nextFirst_zero] at h⟩
  | succ depth ih =>
    refine ⟨fun {node V J s} h => ?_, takes_first ih⟩
    cases node with
    | ready goal i parent => exact takes_ready ih h
    | inBody goal i parent body =>
      rw [Node.next_inBody, Node.resume] at h
      split at h
      · simp at h
      · rename_i r hbody
        split at h
        · rename_i hr
          exact .resumedExhausted (ih.next hbody) hr (ih.next h)
        · rename_i hr
          obtain rfl := Option.some.inj h
          exact .resumed (ih.next hbody) hr
    | single first =>
      rw [Node.next_single] at h
      obtain ⟨r, hfirst, rfl⟩ := Option.map_eq_some_iff.mp h
      exact .single (ih.next hfirst)
    | opening first remaining =>
      rw [Node.next_opening] at h
      exact .opening (ih.nextFirst h)
    | paired first remaining rest =>
      rw [Node.next_paired, Node.solveRest] at h
      split at h
      · simp at h
      · rename_i r hrest
        split at h
        · rename_i hr
          exact .pairedExhausted (ih.next hrest) hr (ih.nextFirst h)
        · rename_i hr
          obtain rfl := Option.some.inj h
          exact .paired (ih.next hrest) hr

theorem takes_of_next {node : Node} (h : node.next P depth V J = some s) :
    Takes P (.node node) V J s :=
  (takesWithin P depth).next h

end Soundness

section Unlogged

variable {P : Program} {task : Task} {V : Vocabulary} {s : Step}

theorem Node.start_ne_unnamed (θ : Substitution) (f : Formula) :
    Node.start θ f ≠ .error .unnamed := by
  induction f using Formula.induction with
  | atom a => simp [Node.start]
  | conj fs ih =>
    rw [Node.start]
    cases fs with
    | nil => simp [Node.startOperands]
    | cons f fs =>
      rw [Node.startOperands]
      split
      · rename_i e he
        exact he ▸ ih f (by simp)
      · cases fs <;> simp
  | disj fs _ => simp [Node.start]
  | neg f _ => simp [Node.start]

theorem Node.renew_ne_unnamed (σ : Substitution) (remaining : Formula) (rest : Option Node) :
    Node.renew σ remaining rest ≠ .error .unnamed := by
  cases rest with
  | none => exact Node.start_ne_unnamed σ remaining
  | some r => simp [Node.renew]

theorem Clause.standardizeApart_ne_unnamed (c : Clause) (V : Vocabulary) :
    (c.standardizeApart V).1 ≠ .error .unnamed := by
  unfold Clause.standardizeApart Covering.copy
  dsimp only
  split <;> simp

theorem Tried.unlogged {goal : Atom} {i : ℕ} {θ : Substitution} {V' : Vocabulary} {J' : Journal}
    {course : Course} (h : Tried P goal i θ V .closed V' J' course) :
    J' = .closed ∧ course ≠ .blocked .unnamed := by
  obtain ⟨-, -, hreport, htrial⟩ := h
  refine ⟨(Option.some.inj hreport).symm, ?_⟩
  rintro rfl
  cases htrial with
  | blocked _ hbody => exact Node.start_ne_unnamed _ _ hbody

/-- A search that is not logged never lacks a name. -/
theorem Takes.unlogged {J : Journal} (h : Takes P task V J s) (hJ : J = .closed) :
    s.journal = .closed ∧ s.outcome ≠ .failed .unnamed := by
  induction h with
  | exhausted _ hreport =>
    subst hJ
    exact ⟨(Option.some.inj hreport).symm, by simp⟩
  | exhaustedUnnamed _ hreport =>
    subst hJ
    simp at hreport
  | @unknown _ _ _ V _ _ rule e _ hcopy =>
    refine ⟨hJ, ?_⟩
    rintro hout
    obtain rfl := Outcome.failed.inj hout
    exact rule.standardizeApart_ne_unnamed V (congrArg Prod.fst hcopy)
  | unnamed _ _ hreport =>
    subst hJ
    simp at hreport
  | passed htried _ ih =>
    subst hJ
    exact ih htried.unlogged.1
  | solved htried =>
    subst hJ
    exact ⟨htried.unlogged.1, by simp⟩
  | blocked htried =>
    subst hJ
    obtain ⟨hJ', hcourse⟩ := htried.unlogged
    exact ⟨hJ', by simpa using hcourse⟩
  | bodySolution htried _ _ ih =>
    subst hJ
    exact ih htried.unlogged.1
  | bodyFailed htried _ _ ih =>
    subst hJ
    exact ih htried.unlogged.1
  | bodyExhausted htried _ _ _ ihbody ih =>
    subst hJ
    exact ih (ihbody htried.unlogged.1).1
  | resumed _ _ ih => exact ih hJ
  | resumedExhausted _ _ _ ihbody ih => exact ih (ihbody hJ).1
  | single _ ih => exact ih hJ
  | opening _ ih => exact ih hJ
  | paired _ _ ih => exact ih hJ
  | pairedExhausted _ _ _ ihrest ih => exact ih (ihrest hJ).1
  | firstEnded _ _ ih => exact ih hJ
  | restBlocked _ _ hrenew ih =>
    refine ⟨(ih hJ).1, ?_⟩
    rintro hout
    obtain rfl := Outcome.failed.inj hout
    exact Node.renew_ne_unnamed _ _ _ hrenew
  | restStepped _ _ _ _ _ ihfirst ihrest => exact ihrest (ihfirst hJ).1
  | backtrackUnnamed _ _ _ _ _ hreport ihfirst ihrest =>
    rw [(ihrest (ihfirst hJ).1).1] at hreport
    simp at hreport
  | backtracked _ _ _ _ _ hreport _ ihfirst ihrest ih =>
    rw [(ihrest (ihfirst hJ).1).1] at hreport
    exact ih (Option.some.inj hreport).symm

end Unlogged

section Exhaustion

/-- A node with nothing left to try, down to its last part. -/
inductive Node.Spent (P : Program) : Node → Prop
  | ready {goal : Atom} {i : ℕ} {parent : Substitution} (h : P.get? i = none) :
      Spent P (.ready goal i parent)
  | single {first : Node} (hfirst : Spent P first) : Spent P (.single first)
  | opening {first : Node} {remaining : Formula} (hfirst : Spent P first) :
      Spent P (.opening first remaining)
  | paired {first rest : Node} {remaining : Formula} (hfirst : Spent P first)
      (hrest : Spent P rest) : Spent P (.paired first remaining rest)

variable {P : Program} {task : Task} {V : Vocabulary} {J : Journal} {s : Step}

/-- The remaining operands of a conjunction that is asked again have nothing left to try. -/
def Task.RestSpent (P : Program) : Task → Prop
  | .node _ => True
  | .first _ _ rest => ∀ r, rest = some r → r.Spent P

theorem Takes.spent (h : Takes P task V J s) (htask : task.RestSpent P)
    (hs : s.outcome = .exhausted) : s.node.Spent P := by
  induction h with
  | exhausted hrule _ => exact .ready hrule
  | exhaustedUnnamed _ _ => simp at hs
  | unknown _ _ => simp at hs
  | unnamed _ _ _ => simp at hs
  | passed _ _ ih => exact ih trivial hs
  | solved _ => simp at hs
  | blocked _ => simp at hs
  | bodySolution _ _ hout _ => simp [hout] at hs
  | bodyFailed _ _ hout _ => simp [hout] at hs
  | bodyExhausted _ _ _ _ _ ih => exact ih trivial hs
  | resumed _ hout _ => exact absurd hs hout
  | resumedExhausted _ _ _ _ ih => exact ih trivial hs
  | single _ ih => exact .single (ih trivial hs)
  | opening _ ih => exact ih (by simp [Task.RestSpent]) hs
  | paired _ hout _ => exact absurd hs hout
  | pairedExhausted _ hout _ ihrest ih =>
    refine ih (fun r hr => ?_) hs
    obtain rfl := Option.some.inj hr
    exact ihrest trivial hout
  | @firstEnded first remaining rest V J s _ _ ih =>
    have hfirst := ih trivial hs
    cases rest with
    | none => exact .opening hfirst
    | some r => exact .paired hfirst (htask r rfl)
  | restBlocked _ _ _ _ => simp at hs
  | restStepped _ _ _ _ hr _ _ => exact absurd hs hr
  | backtrackUnnamed _ _ _ _ _ _ _ _ => simp at hs
  | backtracked _ _ _ _ hr _ _ _ ihrest ih =>
    refine ih (fun r hr' => ?_) hs
    obtain rfl := Option.some.inj hr'
    exact ihrest trivial hr

end Exhaustion

end HornResolution
