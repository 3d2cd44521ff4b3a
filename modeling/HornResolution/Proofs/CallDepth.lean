import HornResolution.Proofs.Interleaving
import HornResolution.Proofs.Refinement

/-!
# What a call comes to does not depend on its bound or its journal

A step of a search is the answer of every call whose bound is large enough, so the
relation `Takes` and the function `Node.next` say the same. A step that could be logged
is also taken without a log, by the same node and over the same vocabulary. The answers
of a node are therefore determined by the node and the vocabulary, and of two lists of
answers one begins with the other.
-/

namespace HornResolution

section Bounds

variable {P : Program} {goal : Atom} {parent : Substitution} {task : Task} {V V' : Vocabulary}
  {J J' : Journal} {s : Step}

theorem Trial.course_eq {copy : Clause} {course : Course} (h : Trial goal parent copy course) :
    (Attempt.make goal parent copy).course = course := by
  cases h with
  | headless body => rfl
  | factMismatch hclash => simp [Attempt.make, Clause.head?, hclash]
  | ruleMismatch hclash => simp [Attempt.make, Clause.head?, hclash]
  | fact hσ => simp [Attempt.make, Clause.head?, Clause.body?, hσ]
  | blocked hτ hbody => simp [Attempt.make, Clause.head?, Clause.body?, hτ, hbody]
  | entered hτ hbody => simp [Attempt.make, Clause.head?, Clause.body?, hτ, hbody]

/-- Asks for a solution by calls of bounded depth. -/
def Task.next (P : Program) (depth : ℕ) : Task → Vocabulary → Journal → Option Step
  | .node n, V, J => n.next P depth V J
  | .first f remaining rest, V, J => f.nextFirst P depth remaining rest V J

theorem Takes.exists_bound (h : Takes P task V J s) :
    ∃ d₀, ∀ d ≥ d₀, task.next P d V J = some s := by
  induction h with
  | exhausted hrule hreport =>
    refine exists_bound_of_succ 0 fun d _ => ?_
    simp only [Task.next, Node.next_ready_of_none hrule, hreport]
  | exhaustedUnnamed hrule hreport =>
    refine exists_bound_of_succ 0 fun d _ => ?_
    simp only [Task.next, Node.next_ready_of_none hrule, hreport]
  | unknown hrule hcopy =>
    refine exists_bound_of_succ 0 fun d _ => ?_
    simp only [Task.next, Node.next_ready_of_some hrule, hcopy]
  | unnamed hrule hcopy hreport =>
    refine exists_bound_of_succ 0 fun d _ => ?_
    simp only [Task.next, Node.next_ready_of_some hrule, Node.follow, hcopy, hreport]
  | passed htried _ ih =>
    obtain ⟨hrule, hcopy, hreport, htrial⟩ := htried
    obtain ⟨d₀, hnext⟩ := ih
    refine exists_bound_of_succ d₀ fun d hd => ?_
    simp only [Task.next] at hnext
    simp only [Task.next, Node.next_ready_of_some hrule, Node.follow, hcopy, hreport,
      htrial.course_eq, hnext d hd]
  | solved htried =>
    obtain ⟨hrule, hcopy, hreport, htrial⟩ := htried
    refine exists_bound_of_succ 0 fun d _ => ?_
    simp only [Task.next, Node.next_ready_of_some hrule, Node.follow, hcopy, hreport,
      htrial.course_eq]
  | blocked htried =>
    obtain ⟨hrule, hcopy, hreport, htrial⟩ := htried
    refine exists_bound_of_succ 0 fun d _ => ?_
    simp only [Task.next, Node.next_ready_of_some hrule, Node.follow, hcopy, hreport,
      htrial.course_eq]
  | bodySolution htried _ hs ih =>
    obtain ⟨hrule, hcopy, hreport, htrial⟩ := htried
    obtain ⟨d₀, hbody⟩ := ih
    refine exists_bound_of_succ d₀ fun d hd => ?_
    simp only [Task.next] at hbody
    simp only [Task.next, Node.next_ready_of_some hrule, Node.follow, hcopy, hreport,
      htrial.course_eq, hbody d hd, hs]
  | bodyFailed htried _ hs ih =>
    obtain ⟨hrule, hcopy, hreport, htrial⟩ := htried
    obtain ⟨d₀, hbody⟩ := ih
    refine exists_bound_of_succ d₀ fun d hd => ?_
    simp only [Task.next] at hbody
    simp only [Task.next, Node.next_ready_of_some hrule, Node.follow, hcopy, hreport,
      htrial.course_eq, hbody d hd, hs]
  | bodyExhausted htried _ hs _ ihbody ih =>
    obtain ⟨hrule, hcopy, hreport, htrial⟩ := htried
    obtain ⟨d₁, hbody⟩ := ihbody
    obtain ⟨d₂, hnext⟩ := ih
    refine exists_bound_of_succ (max d₁ d₂) fun d hd => ?_
    simp only [Task.next] at hbody hnext
    simp only [Task.next, Node.next_ready_of_some hrule, Node.follow, hcopy, hreport,
      htrial.course_eq, hbody d (by omega), hs, hnext d (by omega)]
  | resumed _ hs ih =>
    obtain ⟨d₀, hbody⟩ := ih
    refine exists_bound_of_succ d₀ fun d hd => ?_
    simp only [Task.next] at hbody
    simp only [Task.next, Node.next_inBody, Node.resume, hbody d hd]
  | resumedExhausted _ hs _ ihbody ih =>
    obtain ⟨d₁, hbody⟩ := ihbody
    obtain ⟨d₂, hnext⟩ := ih
    refine exists_bound_of_succ (max d₁ d₂) fun d hd => ?_
    simp only [Task.next] at hbody hnext
    simp only [Task.next, Node.next_inBody, Node.resume, hbody d (by omega), hs, hnext d (by omega)]
  | single _ ih =>
    obtain ⟨d₀, hfirst⟩ := ih
    refine exists_bound_of_succ d₀ fun d hd => ?_
    simp only [Task.next] at hfirst
    simp only [Task.next, Node.next_single, hfirst d hd, Option.map_some]
  | opening _ ih =>
    obtain ⟨d₀, hfirst⟩ := ih
    refine exists_bound_of_succ d₀ fun d hd => ?_
    simp only [Task.next] at hfirst
    simp only [Task.next, Node.next_opening, hfirst d hd]
  | paired _ hs ih =>
    obtain ⟨d₀, hrest⟩ := ih
    refine exists_bound_of_succ d₀ fun d hd => ?_
    simp only [Task.next] at hrest
    simp only [Task.next, Node.next_paired, Node.solveRest, hrest d hd]
  | pairedExhausted _ hs _ ihrest ih =>
    obtain ⟨d₁, hrest⟩ := ihrest
    obtain ⟨d₂, hnext⟩ := ih
    refine exists_bound_of_succ (max d₁ d₂) fun d hd => ?_
    simp only [Task.next] at hrest hnext
    simp only [Task.next, Node.next_paired, Node.solveRest, hrest d (by omega), hs,
      hnext d (by omega)]
  | firstEnded _ hs ih =>
    obtain ⟨d₀, hfirst⟩ := ih
    refine exists_bound_of_succ d₀ fun d hd => ?_
    simp only [Task.next] at hfirst
    simp only [Task.next, Node.nextFirst_succ, Node.solveFirst, hfirst d hd]
  | restBlocked _ hs hrenew ih =>
    obtain ⟨d₀, hfirst⟩ := ih
    refine exists_bound_of_succ d₀ fun d hd => ?_
    simp only [Task.next] at hfirst
    simp only [Task.next, Node.nextFirst_succ, Node.solveFirst, hfirst d hd, hs, hrenew]
  | restStepped _ hs hrenew _ hr ihfirst ihrest =>
    obtain ⟨d₁, hfirst⟩ := ihfirst
    obtain ⟨d₂, hrest⟩ := ihrest
    refine exists_bound_of_succ (max d₁ d₂) fun d hd => ?_
    simp only [Task.next] at hfirst hrest
    simp only [Task.next, Node.nextFirst_succ, Node.solveFirst, hfirst d (by omega), hs,
      hrenew, hrest d (by omega)]
  | backtrackUnnamed _ hs hrenew _ hr hreport ihfirst ihrest =>
    obtain ⟨d₁, hfirst⟩ := ihfirst
    obtain ⟨d₂, hrest⟩ := ihrest
    refine exists_bound_of_succ (max d₁ d₂) fun d hd => ?_
    simp only [Task.next] at hfirst hrest
    simp only [Task.next, Node.nextFirst_succ, Node.solveFirst, hfirst d (by omega), hs, hrenew,
      hrest d (by omega), hr, hreport]
  | backtracked _ hs hrenew _ hr hreport _ ihfirst ihrest ih =>
    obtain ⟨d₁, hfirst⟩ := ihfirst
    obtain ⟨d₂, hrest⟩ := ihrest
    obtain ⟨d₃, hnext⟩ := ih
    refine exists_bound_of_succ (max d₁ (max d₂ d₃)) fun d hd => ?_
    simp only [Task.next] at hfirst hrest hnext
    simp only [Task.next, Node.nextFirst_succ, Node.solveFirst, hfirst d (by omega), hs, hrenew,
      hrest d (by omega), hr, hreport, hnext d (by omega)]

end Bounds

section Journals

variable {P : Program} {goal : Atom} {i : ℕ} {parent : Substitution} {task : Task}
  {V V' : Vocabulary} {J J' : Journal} {course : Course} {s t : Step}

/-- The step of a search that keeps no log. -/
@[simps]
def Step.unlogged (s : Step) : Step := { s with journal := .closed }

theorem Tried.unlog (h : Tried P goal i parent V J V' J' course) :
    Tried P goal i parent V .closed V' .closed course := by
  obtain ⟨hrule, hcopy, -, htrial⟩ := h
  exact ⟨hrule, hcopy, rfl, htrial⟩

/-- What a search does does not depend on its log, as long as that can be written. -/
theorem Takes.unlog (h : Takes P task V J s) (hs : s.outcome ≠ .failed .unnamed) :
    Takes P task V .closed s.unlogged := by
  induction h with
  | exhausted hrule _ => exact .exhausted hrule rfl
  | exhaustedUnnamed _ _ => exact absurd rfl hs
  | unknown hrule hcopy => exact .unknown hrule hcopy
  | unnamed _ _ _ => exact absurd rfl hs
  | passed htried _ ih => exact .passed htried.unlog (ih hs)
  | solved htried => exact .solved htried.unlog
  | blocked htried => exact .blocked htried.unlog
  | bodySolution htried _ hbody ih => exact .bodySolution htried.unlog (ih hs) hbody
  | bodyFailed htried _ hbody ih => exact .bodyFailed htried.unlog (ih hs) hbody
  | bodyExhausted htried _ hbody _ ihbody ih =>
    exact .bodyExhausted htried.unlog (ihbody (by simp [hbody])) hbody (ih hs)
  | resumed _ hbody ih => exact .resumed (ih hs) hbody
  | resumedExhausted _ hbody _ ihbody ih =>
    exact .resumedExhausted (ihbody (by simp [hbody])) hbody (ih hs)
  | single _ ih => exact .single (ih hs)
  | opening _ ih => exact .opening (ih hs)
  | paired _ hr ih => exact .paired (ih hs) hr
  | pairedExhausted _ hr _ ihrest ih =>
    exact .pairedExhausted (ihrest (by simp [hr])) hr (ih hs)
  | firstEnded _ hended ih => exact .firstEnded (ih hs) hended
  | restBlocked _ hsol hrenew ih => exact .restBlocked (ih (by simp [hsol])) hsol hrenew
  | restStepped _ hsol hrenew _ hr ihfirst ihrest =>
    exact .restStepped (ihfirst (by simp [hsol])) hsol hrenew (ihrest hs) hr
  | backtrackUnnamed _ _ _ _ _ _ _ _ => exact absurd rfl hs
  | backtracked _ hsol hrenew _ hr _ _ ihfirst ihrest ih =>
    exact .backtracked (ihfirst (by simp [hsol])) hsol hrenew (ihrest (by simp [hr])) hr rfl (ih hs)

/-- Two answers to one question are the same, whatever the bounds and the journals. -/
theorem Takes.unique (h : Takes P task V J s) (h' : Takes P task V J' t)
    (hs : s.outcome ≠ .failed .unnamed) (ht : t.outcome ≠ .failed .unnamed) :
    s.outcome = t.outcome ∧ s.node = t.node ∧ s.vocabulary = t.vocabulary := by
  obtain ⟨d₁, hd₁⟩ := (h.unlog hs).exists_bound
  obtain ⟨d₂, hd₂⟩ := (h'.unlog ht).exists_bound
  have hleft := hd₁ (max d₁ d₂) (le_max_left _ _)
  have hright := hd₂ (max d₁ d₂) (le_max_right _ _)
  have heq : s.unlogged = t.unlogged := Option.some.inj (hleft.symm.trans hright)
  simpa [Step.unlogged] using heq

end Journals

namespace Node.Calls

variable {P : Program} {node : Node} {V : Vocabulary} {rs rs' : List (Outcome × Vocabulary)}

theorem comparable (h : node.Calls P V rs) (h' : node.Calls P V rs') : rs <+: rs' ∨ rs' <+: rs := by
  induction h generalizing rs' with
  | nil => exact Or.inl List.nil_prefix
  | @cons node d V J s rs hstep hs _ ih =>
    cases rs' with
    | nil => exact Or.inr List.nil_prefix
    | cons r rs' =>
      obtain ⟨d', J', t, hstep', ht, rfl, hrs'⟩ := h'.exists_step
      obtain ⟨hout, hnode, hV⟩ := (takes_of_next hstep).unique (takes_of_next hstep')
        (Node.ne_unnamed hstep hs) ht
      rw [← hnode, ← hV] at hrs'
      rw [← hout, ← hV, List.cons_prefix_cons, List.cons_prefix_cons]
      simpa using ih hrs'

end Node.Calls

end HornResolution
