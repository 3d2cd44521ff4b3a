import HornResolution.Proofs.CallDepth
import HornResolution.Proofs.Completeness

/-!
# What a run shows is what the search answers

The answers of a search are the first events of the interpreter's run. Here is the other
direction: as long as the run has something to show, be it a solution, a failure or its end, no
call of the search is caught in an endless loop. Each call comes back and takes the first event
off the run. A run of bounded depth is finite in three ways, and a call follows each: bodies are
nested to a depth, a goal is made of finitely many atoms, and the first operand of a conjunction
has finitely many solutions.
-/

namespace HornResolution

namespace DepthFirst

section Finishing

variable {α : Type} {t : Trace α} {f : Vocabulary → Trace α} {e : Misuse} {V W : Vocabulary}

theorem Trace.Finished.left (h : (t.andThen f).Finished) : t.Finished := h.parts.1.finished

theorem Trace.Finished.right (h : (t.andThen f).Finished) (ht : t.ending = .exhausted W) :
    (f W).Finished := by
  obtain ⟨-, W', hW', hpart⟩ := h.parts
  obtain rfl : W = W' := by simpa [ht] using hW'
  exact hpart.finished

theorem Trace.not_finished_failed : ¬ (Trace.failed e V : Trace α).Finished := by
  rintro ⟨W, hW⟩
  cases hW

theorem Trace.not_finished_unfinished : ¬ (Trace.unfinished : Trace α).Finished := by
  rintro ⟨W, hW⟩
  cases hW

theorem Trace.left_ne_unfinished (h : t.andThen f ≠ .unfinished) : t ≠ .unfinished := by
  rintro rfl
  exact h rfl

end Finishing

section Events

variable {W : Vocabulary} {solutions : List (Substitution × Vocabulary)} {i : ℕ}

theorem Trace.event?_of_exhausted (hi : i < (answers solutions W).length) :
    (⟨solutions, .exhausted W⟩ : Trace Substitution).event? i = (answers solutions W)[i]? := by
  rcases Nat.lt_succ_iff_lt_or_eq.mp (by simpa [answers] using hi) with hlt | rfl
  · rw [answers, List.getElem?_append_left (by simpa using hlt)]
    simp [event?, hlt]
  · simp [event?, answers]

end Events

section Progress

variable {P : Program} {goal : Atom} {θ : Substitution} {d : ℕ} {V V' : Vocabulary}
  {J J' : Journal} {node : Node} {s : Step} {k : Continuation Substitution}

/-- A step takes the first event off the part of a run that a task stands for, whatever is done
with the solutions. -/
structure Advances (P : Program) (d : ℕ) (task : Task) (V : Vocabulary) (s : Step) : Prop where
  takes : Takes P task V .closed s
  run_eq : ∀ k, taskRest P halting task d k V = afterStep P halting s d k

/-- The nodes of a goal that stand for a run that has something to show advance. -/
def Progresses (P : Program) (d : ℕ) (f : Formula) : Prop :=
  ∀ ⦃node θ V k⦄, Node.Explores P 0 f θ node → rest P halting node d k V ≠ .unfinished →
    ∃ s, Advances P d (.node node) V s

theorem rest_ready_unfinished {i : ℕ} {course : Course} (h : Tried P goal i θ V J V' J' course)
    (hpassed : course ≠ .passed) (hsolved : ∀ σ, course ≠ .solved σ) :
    rest P halting (.ready goal i θ) 0 k V = .unfinished := by
  obtain ⟨copy, htrial, hrest⟩ := rest_ready_of_tried h
  cases htrial with
  | headless _ => exact absurd rfl hpassed
  | factMismatch _ => exact absurd rfl hpassed
  | ruleMismatch _ => exact absurd rfl hpassed
  | fact _ => exact absurd rfl (hsolved _)
  | entered hτ _ => rw [hrest, tryRule, hτ]; rfl
  | blocked hτ _ => rw [hrest, tryRule, hτ]; rfl

theorem rest_ready_child {i : ℕ} {child : Node} (h : Tried P goal i θ V J V' J' (.entered child)) :
    rest P halting (.ready goal i θ) (d + 1) k V =
      (rest P halting child d k V').andThen (rest P halting (.ready goal (i + 1) θ) (d + 1) k) := by
  obtain ⟨body, τ, hbody, hrest⟩ := rest_ready_entered h
  rw [hrest, rest_start hbody]
  rfl

theorem exists_advances_ready (hbodies : ∀ d', d = d' + 1 → ∀ f, Progresses P d' f) (i : ℕ)
    (h : rest P halting (.ready goal i θ) d k V ≠ .unfinished) :
    ∃ s, Advances P d (.node (.ready goal i θ)) V s := by
  induction hleft : P.clauses.size - i generalizing i V with
  | zero =>
    have hrule : P.get? i = none := Array.getElem?_eq_none (by omega)
    exact ⟨_, .exhausted hrule rfl, fun k => rfl⟩
  | succ left ih =>
    obtain ⟨rule, hrule⟩ : ∃ rule, P.get? i = some rule :=
      ⟨P.clauses[i], Array.getElem?_eq_getElem (by omega)⟩
    rcases hcopy : rule.standardizeApart V with ⟨e | copy, V'⟩
    · refine ⟨_, .unknown hrule hcopy, fun k => ?_⟩
      rw [taskRest, rest, drop_of_get? hrule, tryRules, hcopy]
      rfl
    · have htried : Tried P goal i θ V .closed V' .closed (Attempt.make goal θ copy).course :=
        ⟨hrule, hcopy, rfl, trial_make goal θ copy⟩
      generalize (Attempt.make goal θ copy).course = course at htried
      cases course with
      | passed =>
        rw [rest_ready_passed htried] at h
        obtain ⟨s, hs⟩ := ih (i + 1) h (by omega)
        exact ⟨s, .passed htried hs.takes, fun k => (rest_ready_passed htried).trans (hs.run_eq k)⟩
      | solved σ => exact ⟨_, .solved htried, fun k => rest_ready_solved htried⟩
      | blocked e =>
        cases d with
        | zero => exact absurd (rest_ready_unfinished htried (by simp) (by simp)) h
        | succ d => exact ⟨_, .blocked htried, fun k => rest_ready_blocked givesUp_halting htried⟩
      | entered child =>
        cases d with
        | zero => exact absurd (rest_ready_unfinished htried (by simp) (by simp)) h
        | succ d =>
          rw [rest_ready_child htried] at h
          obtain ⟨body, τ, hchild⟩ := htried.explores_child
          obtain ⟨s, hs⟩ := hbodies d rfl body hchild (Trace.left_ne_unfinished h)
          have hrun := hs.run_eq
          simp only [taskRest] at hrun
          cases hout : s.outcome with
          | solution σ =>
            refine ⟨_, .bodySolution htried hs.takes hout, fun k => ?_⟩
            rw [taskRest, rest_ready_child htried, hrun]
            exact afterStep_andThen fun V => rfl
          | failed e =>
            refine ⟨_, .bodyFailed htried hs.takes hout, fun k => ?_⟩
            rw [taskRest, rest_ready_failed givesUp_halting htried hrun hout, afterStep,
              Step.outcome_within, hout]
            rfl
          | exhausted =>
            have hgoOn (k : Continuation Substitution) :
                rest P halting (.ready goal i θ) (d + 1) k V =
                  rest P halting (.ready goal (i + 1) θ) (d + 1) k s.vocabulary := by
              rw [rest_ready_child htried, hrun, afterStep_exhausted hs.takes trivial hout,
                Trace.done_andThen]
            rw [← rest_ready_child htried, hgoOn] at h
            obtain ⟨r, hr⟩ := ih (i + 1) h (by omega)
            have hclosed := (hs.takes.unlogged rfl).1
            refine ⟨r, .bodyExhausted htried hs.takes hout ?_, fun k => ?_⟩
            · rw [hclosed]
              exact hr.takes
            · exact (hgoOn k).trans (hr.run_eq k)

theorem exists_advances_inBody (hbodies : ∀ d', d = d' + 1 → ∀ f, Progresses P d' f) {i : ℕ}
    {child : Node} {body : Formula} {τ : Substitution} (hchild : child.Explores P 0 body τ)
    (h : rest P halting (.inBody goal i θ child) d k V ≠ .unfinished) :
    ∃ s, Advances P d (.node (.inBody goal i θ child)) V s := by
  cases d with
  | zero =>
    rw [rest] at h
    exact absurd rfl h
  | succ d =>
    have hbody : rest P halting child d k V ≠ .unfinished := by
      rw [rest] at h
      exact Trace.left_ne_unfinished h
    obtain ⟨s, hs⟩ := hbodies d rfl body hchild hbody
    have hrun := hs.run_eq
    simp only [taskRest] at hrun
    by_cases hout : s.outcome = .exhausted
    · have hgoOn (k : Continuation Substitution) :
          rest P halting (.inBody goal i θ child) (d + 1) k V =
            rest P halting (.ready goal i θ) (d + 1) k s.vocabulary := by
        rw [rest, rest, hrun, afterStep_exhausted hs.takes trivial hout, Trace.done_andThen]
      rw [hgoOn] at h
      obtain ⟨r, hr⟩ := exists_advances_ready hbodies i h
      have hclosed := (hs.takes.unlogged rfl).1
      refine ⟨r, .resumedExhausted hs.takes hout ?_, fun k => ?_⟩
      · rw [hclosed]
        exact hr.takes
      · exact (hgoOn k).trans (hr.run_eq k)
    · refine ⟨_, .resumed hs.takes hout, fun k => ?_⟩
      rw [taskRest, rest, hrun]
      exact afterStep_andThen fun V => rfl

/-- The continuation that also records what it is given. -/
def Continuation.recording (k : Continuation Substitution) : Continuation Substitution := fun σ V =>
  ⟨(σ, V) :: (k σ V).entries, (k σ V).ending⟩

/-- A conjunction asks its first operand for one solution after another until the others can be
solved under one of them. The solutions of the first operand that are left become fewer. -/
theorem exists_advances_first {f g : Formula} {gs : List Formula} (hf : Progresses P d f)
    (hgs : Progresses P d (.conj (g :: gs))) {first : Node} {rest? : Option Node}
    (hfirst : first.Explores P 0 f θ) (hrest : Node.RestExplores P 0 f θ (.conj (g :: gs)) rest?)
    (hspent : Task.RestSpent P (.first first (.conj (g :: gs)) rest?))
    (h : taskRest P halting (.first first (.conj (g :: gs)) rest?) d k V ≠ .unfinished) :
    ∃ s, Advances P d (.first first (.conj (g :: gs)) rest?) V s := by
  let others : Continuation Substitution := fun σ => solve P halting (d + 1) (.conj (g :: gs)) σ k
  induction hleft : (rest P halting first d others.recording V).entries.length
    using Nat.strong_induction_on generalizing first rest? V with
  | _ left ih =>
    obtain ⟨s, hs⟩ := hf hfirst h
    have hrun := hs.run_eq
    simp only [taskRest] at hrun
    have hclosed := (hs.takes.unlogged rfl).1
    obtain ⟨hfirst', hresolves⟩ := hs.takes.explores_node hfirst
    by_cases hended : ∀ σ, s.outcome ≠ .solution σ
    · refine ⟨_, .firstEnded hs.takes hended, fun k => ?_⟩
      exact (hrun _).trans (afterStep_of_ended hended fun V => rest_conjunction hspent d)
    · obtain ⟨σ, hout⟩ : ∃ σ, s.outcome = .solution σ := by simpa using hended
      have hsplit (k : Continuation Substitution) : rest P halting first d k V =
          (k σ s.vocabulary).andThen (rest P halting s.node d k) :=
        (hrun k).trans (afterStep_solution hout)
      rw [taskRest, hsplit] at h
      have hsolve := Trace.left_ne_unfinished h
      cases hstart : Node.start σ (.conj (g :: gs)) with
      | error e =>
        have hrenew := (hrest.renew_eq_start σ).trans hstart
        refine ⟨_, .restBlocked hs.takes hout hrenew, fun k => ?_⟩
        rw [taskRest, hsplit, solve_of_start_error hstart]
        exact congrArg (Trace.andThen _) (funext fun V => (rest_conjunction hspent d).symm)
      | ok node =>
        rw [← rest_start hstart] at hsolve
        obtain ⟨r, hr⟩ := hgs (Node.explores_start hstart) hsolve
        have hrun' := hr.run_eq
        simp only [taskRest, rest_start hstart] at hrun'
        have hrenew := (hrest.renew_eq_start σ).trans hstart
        have htakes : Takes P (.node node) s.vocabulary s.journal r := hclosed ▸ hr.takes
        by_cases hr' : r.outcome = .exhausted
        · have hgoOn (k : Continuation Substitution) :
              rest P halting first d (fun σ => solve P halting (d + 1) (.conj (g :: gs)) σ k) V =
                rest P halting s.node d (fun σ => solve P halting (d + 1) (.conj (g :: gs)) σ k)
                  r.vocabulary := by
            rw [hsplit, hrun', afterStep_exhausted hr.takes trivial hr', Trace.done_andThen]
          have hfewer :
              (rest P halting s.node d others.recording r.vocabulary).entries.length < left := by
            have hending : (others.recording σ s.vocabulary).ending = .exhausted r.vocabulary := by
              simp only [others, Continuation.recording, hrun',
                afterStep_exhausted hr.takes trivial hr']
              rfl
            rw [← hleft, hsplit, Trace.andThen_of_exhausted _ hending, List.length_append]
            simp [Continuation.recording]
          have hnode := (hr.takes.explores_node (Node.explores_start hstart)).1
          rw [hrun', afterStep_exhausted hr.takes trivial hr', Trace.done_andThen] at h
          obtain ⟨t, ht⟩ := ih _ hfewer hfirst' (.some (hresolves σ hout) hnode)
            (restSpent_of_exhausted hr.takes hr') h rfl
          have hreport : r.journal.report r.vocabulary (.backtracked (.conj (g :: gs))) =
              some .closed := by
            rw [(hr.takes.unlogged rfl).1]
            rfl
          exact ⟨t, .backtracked hs.takes hout hrenew htakes hr' hreport ht.takes,
            fun k => (hgoOn k).trans (ht.run_eq k)⟩
        · refine ⟨_, .restStepped hs.takes hout hrenew htakes hr', fun k => ?_⟩
          rw [taskRest, hsplit, hrun']
          exact afterStep_andThen fun V => rfl

theorem progresses_conj {fs : List Formula} (hfs : ∀ f ∈ fs, Progresses P d f) :
    Progresses P d (.conj fs) := by
  induction fs with
  | nil =>
    intro node θ V k hnode _
    cases hnode
  | cons f fs ih =>
    intro node θ V k hnode h
    have hf := hfs f (by simp)
    have hothers := ih fun g hg => hfs g (List.mem_cons_of_mem f hg)
    cases hnode with
    | single hfirst =>
      obtain ⟨s, hs⟩ := hf hfirst h
      exact ⟨_, .single hs.takes, hs.run_eq⟩
    | @opening f g gs θ first hfirst =>
      have hrest : Node.RestExplores P 0 f θ (.conj (g :: gs)) none := by
        simp [Node.RestExplores]
      obtain ⟨s, hs⟩ := exists_advances_first hf hothers hfirst hrest (by simp [Task.RestSpent]) h
      exact ⟨s, .opening hs.takes, hs.run_eq⟩
    | @paired f g gs θ τ first rest' hfirst hτ hrest =>
      rw [rest] at h
      obtain ⟨s, hs⟩ := hothers hrest (Trace.left_ne_unfinished h)
      have hrun := hs.run_eq
      simp only [taskRest] at hrun
      by_cases hout : s.outcome = .exhausted
      · have hgoOn (k : Continuation Substitution) :
            rest P halting (.paired first (.conj (g :: gs)) rest') d k V =
              rest P halting first d (fun σ => solve P halting (d + 1) (.conj (g :: gs)) σ k)
                s.vocabulary := by
          rw [rest, hrun, afterStep_exhausted hs.takes trivial hout, Trace.done_andThen]
        rw [hrun, afterStep_exhausted hs.takes trivial hout, Trace.done_andThen] at h
        have hnode := (hs.takes.explores_node hrest).1
        obtain ⟨r, hr⟩ := exists_advances_first hf hothers hfirst (.some hτ hnode)
          (restSpent_of_exhausted hs.takes hout) h
        have hclosed := (hs.takes.unlogged rfl).1
        refine ⟨r, .pairedExhausted hs.takes hout ?_, fun k => ?_⟩
        · rw [hclosed]
          exact hr.takes
        · exact (hgoOn k).trans (hr.run_eq k)
      · refine ⟨_, .paired hs.takes hout, fun k => ?_⟩
        rw [taskRest, rest, hrun]
        exact afterStep_andThen fun V => rfl

/-- Every node that stands for a run that has something to show advances, by induction on the
depth of the run and then on the goal. -/
theorem progresses (P : Program) (d : ℕ) (f : Formula) : Progresses P d f := by
  induction d using Nat.strong_induction_on generalizing f with
  | _ d ih =>
    have hbodies : ∀ d', d = d' + 1 → ∀ f, Progresses P d' f := fun d' hd' => ih d' (by omega)
    induction f using Formula.induction with
    | atom a =>
      intro node θ V k hnode h
      cases hnode with
      | ready _ i _ => exact exists_advances_ready hbodies i h
      | inBody _ _ hchild => exact exists_advances_inBody hbodies hchild h
    | conj fs ihfs => exact progresses_conj ihfs
    | disj fs _ =>
      intro node θ V k hnode _
      cases hnode
    | neg f _ =>
      intro node θ V k hnode _
      cases hnode

end Progress

section Answers

variable {P : Program} {goal : Formula} {θ : Substitution} {node : Node} {d : ℕ}
  {V W : Vocabulary} {rs : List (Outcome × Vocabulary)}

theorem calls_of_events (hnode : node.Explores P 0 goal θ)
    (hrs : ∀ r ∈ rs.dropLast, ∀ e, r.1 ≠ .failed e)
    (h : ∀ i < rs.length, (rest P halting node d .entry V).event? i = rs[i]?) :
    node.Calls P V rs := by
  induction rs generalizing node V with
  | nil => exact .nil
  | cons r rs ih =>
    have hfirst : (rest P halting node d .entry V).event? 0 = some r := h 0 (by simp)
    have hshown : rest P halting node d .entry V ≠ .unfinished := by
      intro hunfinished
      rw [hunfinished] at hfirst
      cases hfirst
    obtain ⟨s, htakes, hrun⟩ := progresses P d goal hnode hshown
    have hrest : rest P halting node d .entry V = afterStep P halting s d .entry := hrun _
    obtain ⟨d₀, hd₀⟩ := htakes.exists_bound
    obtain rfl : (s.outcome, s.vocabulary) = r := by
      rwa [hrest, event?_afterStep_zero htakes, Option.some.injEq] at hfirst
    refine .cons (hd₀ d₀ le_rfl) (fun _ => (htakes.unlogged rfl).2) ?_
    cases rs with
    | nil => exact .nil
    | cons r rs =>
      have hfailed : ∀ e, s.outcome ≠ .failed e := hrs (s.outcome, s.vocabulary) (by simp)
      have hnode' := (htakes.explores_node hnode).1
      refine ih hnode' (fun r' hr' => hrs r' (by simp_all)) fun i hi => ?_
      rw [← event?_afterStep_succ htakes hfailed, ← hrest,
        h (i + 1) (by simpa using hi), List.getElem?_cons_succ]

/-- The answers of a search up to its first failure are the first events of the run, at some
depth. -/
theorem calls_iff_events (hnode : Node.start θ goal = .ok node)
    (hrs : ∀ r ∈ rs.dropLast, ∀ e, r.1 ≠ .failed e) :
    node.Calls P V rs ↔ ∃ d, ∀ i < rs.length, (run P d goal θ V).event? i = rs[i]? := by
  constructor
  · intro hcalls
    obtain ⟨d, hd⟩ := exists_run_event?_eq hnode hcalls hrs
    exact ⟨d, hd d le_rfl⟩
  · rintro ⟨d, hd⟩
    cases d with
    | zero =>
      cases rs with
      | nil => exact .nil
      | cons r rs => simpa [run, solve, Trace.unfinished, Trace.event?] using hd 0 (by simp)
    | succ d =>
      rw [run, ← rest_start hnode] at hd
      exact calls_of_events (Node.explores_start hnode) hrs hd

variable {solutions : List (Substitution × Vocabulary)}

/-- The answers of a search that ends in exhaustion are the events of a run that comes to its
end, at some depth. -/
theorem calls_iff_run (hnode : Node.start θ goal = .ok node) :
    node.Calls P V (answers solutions W) ↔ ∃ d, run P d goal θ V = ⟨solutions, .exhausted W⟩ := by
  rw [calls_iff_events hnode answers_ne_failed]
  constructor
  · rintro ⟨d, hd⟩
    exact ⟨d, Trace.eq_of_event? hd⟩
  · rintro ⟨d, hd⟩
    refine ⟨d, fun i hi => ?_⟩
    rw [hd]
    exact Trace.event?_of_exhausted hi

end Answers

end DepthFirst

end HornResolution
