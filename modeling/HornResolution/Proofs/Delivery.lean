import HornResolution.Proofs.Permanence
import HornResolution.Query

/-!
# What a query hands out

A query puts limits around the search of its root. Its limits may be replaced before every
call. Whatever they are, the solutions that a query hands out are the first ones of its root,
each once and in order; an error changes nothing but the root; and a query that has stopped
stays as it is. Under one limit and without a timeout it hands out as many solutions as the
limit allows and the root has.
-/

namespace HornResolution

namespace Query

/-- A call of a query with the limits that it is given first, the seconds that have passed, and
the bound and the journal of the search. -/
structure Call where
  limits : Limits
  elapsed : ℕ
  depth : ℕ
  journal : Journal

@[simps]
def limited (q : Query) (limits : Limits) : Query := { q with limits := limits }

/-- The query after its limits were replaced and it was asked. -/
def ask (q : Query) (call : Call) (V : Vocabulary) : Option QueryStep :=
  (q.limited call.limits).next call.depth call.elapsed V call.journal

/-- Calls one after another, with their answers and what the query and the vocabulary become. A
call that is logged and comes to an event it cannot write down has no answer. -/
inductive Run : Query → Vocabulary → List Call → List (Except Misuse (Option Substitution)) →
    Query → Vocabulary → Prop
  | nil {q : Query} {V : Vocabulary} : Run q V [] [] q V
  | cons {q q' : Query} {V V' : Vocabulary} {call : Call} {calls : List Call} {s : QueryStep}
      {answers : List (Except Misuse (Option Substitution))} (hask : q.ask call V = some s)
      (hs : call.journal ≠ .closed → s.answer ≠ .error .unnamed)
      (hrun : Run s.query s.vocabulary calls answers q' V') :
      Run q V (call :: calls) (s.answer :: answers) q' V'

section Responses

variable {q : Query} {call : Call} {V : Vocabulary} {s : QueryStep}

inductive Responds (q : Query) (call : Call) (V : Vocabulary) (s : QueryStep) : Prop
  | stopped (hq : q.stopped.isSome) (hquery : s.query = q.limited call.limits)
      (hanswer : s.answer = .ok none) (hV : s.vocabulary = V)
  | limited {reason : StopReason} (hq : q.stopped = none)
      (hlimit : (q.limited call.limits).limit? call.elapsed = some reason)
      (hquery : s.query = { q.limited call.limits with stopped := some reason })
      (hanswer : s.answer = .ok none) (hV : s.vocabulary = V)
  | exhausted {r : Step} (hq : q.stopped = none)
      (hlimit : (q.limited call.limits).limit? call.elapsed = none)
      (hroot : q.root.next q.program call.depth V call.journal = some r)
      (hr : r.outcome = .exhausted)
      (hquery : s.query = { q.limited call.limits with
        root := r.node, stopped := some .exhausted })
      (hanswer : s.answer = .ok none) (hV : s.vocabulary = r.vocabulary)
  | failed {r : Step} {e : Misuse} (hq : q.stopped = none)
      (hlimit : (q.limited call.limits).limit? call.elapsed = none)
      (hroot : q.root.next q.program call.depth V call.journal = some r)
      (hr : r.outcome = .failed e)
      (hquery : s.query = { q.limited call.limits with root := r.node })
      (hanswer : s.answer = .error e) (hV : s.vocabulary = r.vocabulary)
  | solution {r : Step} {σ : Substitution} (hq : q.stopped = none)
      (hlimit : (q.limited call.limits).limit? call.elapsed = none)
      (hroot : q.root.next q.program call.depth V call.journal = some r)
      (hr : r.outcome = .solution σ)
      (hquery : s.query = { q.limited call.limits with
        root := r.node, solutions := q.solutions + 1 })
      (hanswer : s.answer = .ok (some σ)) (hV : s.vocabulary = r.vocabulary)

theorem finish_of_named {reason : StopReason} {J : Journal}
    (h : (q.finish reason V J).answer ≠ .error .unnamed) :
    (q.finish reason V J).query = { q with stopped := some reason } ∧
      (q.finish reason V J).answer = .ok none ∧ (q.finish reason V J).vocabulary = V := by
  unfold finish at h ⊢
  split
  · rename_i hreport
    simp [hreport] at h
  · exact ⟨rfl, rfl, rfl⟩

theorem record_of_named {σ : Substitution} {J : Journal}
    (h : (q.record σ V J).answer ≠ .error .unnamed) :
    (q.record σ V J).query = { q with solutions := q.solutions + 1 } ∧
      (q.record σ V J).answer = .ok (some σ) ∧ (q.record σ V J).vocabulary = V := by
  unfold record at h ⊢
  dsimp only at h ⊢
  split
  · rename_i hreport
    simp [hreport] at h
  · exact ⟨rfl, rfl, rfl⟩

theorem finish_unlogged (q : Query) (reason : StopReason) (V : Vocabulary) :
    (q.finish reason V .closed).answer = .ok none := rfl

theorem record_unlogged (q : Query) (σ : Substitution) (V : Vocabulary) :
    (q.record σ V .closed).answer = .ok (some σ) := rfl

theorem ne_unnamed (h : q.ask call V = some s)
    (hs : call.journal ≠ .closed → s.answer ≠ .error .unnamed) : s.answer ≠ .error .unnamed := by
  by_cases hJ : call.journal = .closed
  · rw [ask, next, hJ] at h
    split at h
    · obtain rfl := Option.some.inj h
      simp
    · split at h
      · obtain rfl := Option.some.inj h
        simp [finish_unlogged]
      · split at h
        · simp at h
        · rename_i r hroot
          obtain ⟨hclosed, hunnamed⟩ := (takes_of_next hroot).unlogged rfl
          split at h
          · rename_i e hr
            obtain rfl := Option.some.inj h
            simpa [hr] using hunnamed
          · obtain rfl := Option.some.inj h
            simp [hclosed, finish_unlogged]
          · obtain rfl := Option.some.inj h
            simp [hclosed, record_unlogged]
  · exact hs hJ

theorem responds_of_ask (h : q.ask call V = some s) (hs : s.answer ≠ .error .unnamed) :
    q.Responds call V s := by
  unfold ask next at h
  by_cases hstopped : q.stopped.isSome
  · rw [if_pos (show (q.limited call.limits).stopped.isSome = true from hstopped)] at h
    obtain rfl := Option.some.inj h
    exact .stopped hstopped rfl rfl rfl
  · rw [if_neg (show ¬ (q.limited call.limits).stopped.isSome = true from hstopped)] at h
    have hq : q.stopped = none := by simpa using hstopped
    split at h
    · rename_i reason hlimit
      obtain rfl := Option.some.inj h
      obtain ⟨hquery, hanswer, hV⟩ := finish_of_named hs
      exact .limited hq hlimit hquery hanswer hV
    · rename_i hlimit
      split at h
      · simp at h
      · rename_i r hroot
        split at h
        · rename_i e hr
          obtain rfl := Option.some.inj h
          exact .failed hq hlimit hroot hr rfl rfl rfl
        · rename_i hr
          obtain rfl := Option.some.inj h
          obtain ⟨hquery, hanswer, hV⟩ := finish_of_named hs
          exact .exhausted hq hlimit hroot hr hquery hanswer hV
        · rename_i σ hr
          obtain rfl := Option.some.inj h
          obtain ⟨hquery, hanswer, hV⟩ := record_of_named hs
          exact .solution hq hlimit hroot hr hquery hanswer hV

end Responses

end Query

section Solutions

/-- The solutions among the answers of a node. -/
def found (rs : List (Outcome × Vocabulary)) : List Substitution :=
  rs.filterMap fun r =>
    match r.1 with
    | .solution σ => some σ
    | _ => none

/-- The solutions among the answers of a query. -/
def delivered (answers : List (Except Misuse (Option Substitution))) : List Substitution :=
  answers.filterMap fun
    | .ok (some σ) => some σ
    | _ => none

variable {P : Program} {node : Node} {V W : Vocabulary} {rs rs' : List (Outcome × Vocabulary)}

@[simp] theorem found_nil : found [] = [] := rfl

@[simp] theorem found_solution (σ : Substitution) (V : Vocabulary)
    (rs : List (Outcome × Vocabulary)) : found ((.solution σ, V) :: rs) = σ :: found rs := rfl

@[simp] theorem found_exhausted (V : Vocabulary) (rs : List (Outcome × Vocabulary)) :
    found ((.exhausted, V) :: rs) = found rs := rfl

@[simp] theorem found_failed (e : Misuse) (V : Vocabulary) (rs : List (Outcome × Vocabulary)) :
    found ((.failed e, V) :: rs) = found rs := rfl

theorem found_append (rs rs' : List (Outcome × Vocabulary)) :
    found (rs ++ rs') = found rs ++ found rs' :=
  List.filterMap_append

theorem Node.Spent.found_eq_nil (h : node.Spent P) (hcalls : node.Calls P V rs) :
    found rs = [] := by
  induction hcalls with
  | nil => rfl
  | cons hstep hs _ ih =>
    obtain ⟨hnode, -, hout⟩ := (takes_of_next hstep).idle h
    have hexhausted := hout.resolve_right fun hunnamed => Node.ne_unnamed hstep hs hunnamed.1
    rw [Node.ofTask] at hnode
    rw [hexhausted, found_exhausted]
    exact ih (hnode ▸ h)

theorem Node.Calls.found_of_exhausted {rs₁ rs₂ : List (Outcome × Vocabulary)}
    (h : node.Calls P V (rs₁ ++ (.exhausted, W) :: rs₂)) : found rs₂ = [] := by
  induction rs₁ generalizing node V with
  | nil =>
    obtain ⟨d, J, s, hstep, -, hs, hrs₂⟩ := h.exists_step
    have hspent : s.node.Spent P :=
      (takes_of_next hstep).spent trivial (congrArg Prod.fst hs).symm
    exact hspent.found_eq_nil hrs₂
  | cons r rs₁ ih =>
    obtain ⟨d, J, s, -, -, -, hrs⟩ := h.exists_step
    exact ih hrs

theorem Node.Calls.found_comparable (h : node.Calls P V rs) (h' : node.Calls P V rs')
    (hW : (.exhausted, W) ∈ rs') : found rs <+: found rs' := by
  rcases h.comparable h' with ⟨t, rfl⟩ | ⟨t, rfl⟩
  · exact ⟨found t, (found_append rs t).symm⟩
  · obtain ⟨rs₁, rs₂, rfl⟩ := List.mem_iff_append.mp hW
    rw [List.append_assoc, List.cons_append] at h
    have hnil := h.found_of_exhausted
    rw [found_append] at hnil
    rw [found_append _ t, (List.append_eq_nil_iff.mp hnil).2, List.append_nil]

end Solutions

namespace Query

section Runs

variable {q q' : Query} {V V' : Vocabulary} {calls : List Call}
  {answers : List (Except Misuse (Option Substitution))}

/-- What a run has handed out comes from calls of the root, which can be gone on with. -/
structure Traced (q : Query) (V : Vocabulary) (answers : List (Except Misuse (Option Substitution)))
    (q' : Query) (V' : Vocabulary) (rs : List (Outcome × Vocabulary)) : Prop where
  program : q'.program = q.program
  calls : ∀ rs', q'.root.Calls q.program V' rs' → q.root.Calls q.program V (rs ++ rs')
  found : found rs = delivered answers
  count : q'.solutions = q.solutions + (delivered answers).length

/-- One call of a query makes at most one call of the root. -/
theorem Responds.exists_traced {call : Call} {s : QueryStep} (h : q.Responds call V s)
    (hs : s.answer ≠ .error .unnamed) : ∃ rs, Traced q V [s.answer] s.query s.vocabulary rs := by
  cases h with
  | stopped _ hquery hanswer hV =>
    rw [hquery, hanswer, hV]
    exact ⟨[], rfl, fun _ h => h, rfl, rfl⟩
  | limited _ _ hquery hanswer hV =>
    rw [hquery, hanswer, hV]
    exact ⟨[], rfl, fun _ h => h, rfl, rfl⟩
  | @exhausted r _ _ hroot hr hquery hanswer hV =>
    rw [hquery, hanswer, hV]
    refine ⟨[(r.outcome, r.vocabulary)], rfl, fun _ h => ?_, by simp [hr, delivered], rfl⟩
    exact .cons hroot (by simp [hr]) h
  | @failed r e _ _ hroot hr hquery hanswer hV =>
    rw [hanswer] at hs
    rw [hquery, hanswer, hV]
    refine ⟨[(r.outcome, r.vocabulary)], rfl, fun _ h => ?_, by simp [hr, delivered], rfl⟩
    exact .cons hroot (fun _ => by simpa [hr] using hs) h
  | @solution r σ _ _ hroot hr hquery hanswer hV =>
    rw [hquery, hanswer, hV]
    refine ⟨[(r.outcome, r.vocabulary)], rfl, fun _ h => ?_, by simp [hr, delivered], rfl⟩
    exact .cons hroot (by simp [hr]) h

theorem Run.exists_traced (h : q.Run V calls answers q' V') :
    ∃ rs, Traced q V answers q' V' rs := by
  induction h with
  | nil => exact ⟨[], rfl, fun _ h => h, rfl, rfl⟩
  | @cons q q' V V' call calls s answers hask hs _ ih =>
    have hnamed := ne_unnamed hask hs
    obtain ⟨rs, hprogram, hcalls, hfound, hcount⟩ :=
      (responds_of_ask hask hnamed).exists_traced hnamed
    obtain ⟨rs', hprogram', hcalls', hfound', hcount'⟩ := ih
    refine ⟨rs ++ rs', hprogram'.trans hprogram, fun rs'' h => ?_, ?_, ?_⟩
    · rw [List.append_assoc]
      rw [hprogram] at hcalls'
      exact hcalls _ (hcalls' _ h)
    · rw [found_append, hfound, hfound', ← List.singleton_append (l := answers), delivered,
        delivered, delivered, List.filterMap_append]
    · rw [hcount', hcount, ← List.singleton_append (l := answers), delivered, delivered, delivered,
        List.filterMap_append, List.length_append, Nat.add_assoc]

theorem Run.of_stopped {reason : StopReason} (h : q.Run V calls answers q' V')
    (hq : q.stopped = some reason) :
    (∀ a ∈ answers, a = .ok none) ∧ q'.stopped = some reason ∧ q'.solutions = q.solutions ∧
      V' = V := by
  induction h with
  | nil => exact ⟨by simp, hq, rfl, rfl⟩
  | @cons q q' V V' call calls s answers hask _ _ ih =>
    unfold ask next at hask
    rw [if_pos (by simp [limited, hq])] at hask
    obtain rfl := Option.some.inj hask
    obtain ⟨hanswers, hstopped, hcount, hV⟩ := ih hq
    exact ⟨by simpa using hanswers, hstopped, hcount, hV⟩

theorem Run.stopped_iff (h : q.Run V calls answers q' V') (hq : q.stopped = none) :
    q'.stopped = none ↔ .ok none ∉ answers := by
  induction h with
  | nil => simp [hq]
  | @cons q q' V V' call calls s answers hask hs hrun ih =>
    have hended {reason : StopReason} (hstopped : s.query.stopped = some reason)
        (hanswer : s.answer = .ok none) : q'.stopped = none ↔ .ok none ∉ s.answer :: answers := by
      simp [(hrun.of_stopped hstopped).2.1, hanswer]
    cases responds_of_ask hask (ne_unnamed hask hs) with
    | stopped hstopped _ _ _ => simp [hq] at hstopped
    | limited _ _ hquery hanswer _ => exact hended (congrArg Query.stopped hquery) hanswer
    | exhausted _ _ _ _ hquery hanswer _ => exact hended (congrArg Query.stopped hquery) hanswer
    | failed _ _ _ _ hquery hanswer _ =>
      have hopen : s.query.stopped = none := (congrArg Query.stopped hquery).trans hq
      simpa [hanswer] using ih hopen
    | solution _ _ _ _ hquery hanswer _ =>
      have hopen : s.query.stopped = none := (congrArg Query.stopped hquery).trans hq
      simpa [hanswer] using ih hopen

end Runs

section Reasons

/-- The limits of a call let no further solution be looked for. -/
def Full (q : Query) (call : Call) : Prop :=
  0 < call.limits.maxSolutions ∧ call.limits.maxSolutions ≤ q.solutions

/-- The limits of a call set a timeout, and it has passed. -/
def Late (call : Call) : Prop := ∃ t, call.limits.timeout = some t ∧ t ≤ call.elapsed

variable {q : Query} {call : Call} {V : Vocabulary} {s : QueryStep} {reason : StopReason}

theorem limit?_eq_some_iff :
    (q.limited call.limits).limit? call.elapsed = some reason ↔
      reason = .solutionLimit ∧ q.Full call ∨ reason = .timeout ∧ ¬ q.Full call ∧ Late call := by
  have hfull : (0 < call.limits.maxSolutions && call.limits.maxSolutions ≤ q.solutions) = true ↔
      q.Full call := by
    simp [Full]
  have hlate : call.limits.timeout.any (· ≤ call.elapsed) = true ↔ Late call := by
    simp [Late, Option.any_eq_true]
  unfold limit? limited
  dsimp only
  by_cases h : q.Full call
  · rw [if_pos (hfull.mpr h)]
    simpa [h] using eq_comm
  · rw [if_neg (mt hfull.mp h)]
    by_cases h' : Late call
    · rw [if_pos (hlate.mpr h')]
      simpa [h, h'] using eq_comm
    · rw [if_neg (mt hlate.mp h')]
      simp [h, h']

theorem limit?_eq_none_iff :
    (q.limited call.limits).limit? call.elapsed = none ↔ ¬ q.Full call ∧ ¬ Late call := by
  rw [Option.eq_none_iff_forall_ne_some]
  constructor
  · intro h
    by_cases hfull : q.Full call
    · exact absurd (limit?_eq_some_iff.mpr (Or.inl ⟨rfl, hfull⟩)) (h .solutionLimit)
    · exact ⟨hfull, fun hlate =>
        h .timeout (limit?_eq_some_iff.mpr (Or.inr ⟨rfl, hfull, hlate⟩))⟩
  · rintro ⟨hfull, hlate⟩ reason hreason
    rcases limit?_eq_some_iff.mp hreason with ⟨-, h⟩ | ⟨-, -, h⟩
    · exact hfull h
    · exact hlate h

/-- Why a query stops at a call: its limit comes before the timeout, and that before the end of
the search. -/
structure StopsFor (q : Query) (call : Call) (V : Vocabulary) (reason : StopReason) : Prop where
  solutionLimit : reason = .solutionLimit ↔ q.Full call
  timeout : reason = .timeout ↔ ¬ q.Full call ∧ Late call
  exhausted : reason = .exhausted ↔ ¬ q.Full call ∧ ¬ Late call ∧
    ∃ r, q.root.next q.program call.depth V call.journal = some r ∧ r.outcome = .exhausted

theorem Responds.exists_reason (h : q.Responds call V s) (hq : q.stopped = none)
    (hs : s.answer = .ok none) :
    ∃ reason, s.query.stopped = some reason ∧ s.query.solutions = q.solutions ∧
      q.StopsFor call V reason := by
  cases h with
  | stopped hstopped _ _ _ => simp [hq] at hstopped
  | limited _ hlimit hquery _ _ =>
    refine ⟨_, congrArg Query.stopped hquery, by rw [hquery]; rfl, ?_⟩
    rcases limit?_eq_some_iff.mp hlimit with ⟨rfl, hfull⟩ | ⟨rfl, hfull, hlate⟩
    · exact ⟨by simp [hfull], by simp [hfull], by simp [hfull]⟩
    · exact ⟨by simp [hfull], by simp [hfull, hlate], by simp [hlate]⟩
  | exhausted _ hlimit hroot hr hquery _ _ =>
    refine ⟨_, congrArg Query.stopped hquery, by rw [hquery]; rfl, ?_⟩
    obtain ⟨hfull, hlate⟩ := limit?_eq_none_iff.mp hlimit
    exact ⟨by simp [hfull], by simp [hlate], by simp [hfull, hlate, hroot, hr]⟩
  | failed _ _ _ _ _ hanswer _ => simp [hanswer] at hs
  | solution _ _ _ _ _ hanswer _ => simp [hanswer] at hs

theorem Responds.of_error {e : Misuse} (h : q.Responds call V s) (hs : s.answer = .error e) :
    s.query.solutions = q.solutions ∧ s.query.stopped = q.stopped := by
  cases h with
  | stopped _ _ hanswer _ => simp [hanswer] at hs
  | limited _ _ _ hanswer _ => simp [hanswer] at hs
  | exhausted _ _ _ _ _ hanswer _ => simp [hanswer] at hs
  | failed _ _ _ _ hquery _ _ =>
    rw [hquery]
    exact ⟨rfl, rfl⟩
  | solution _ _ _ _ _ hanswer _ => simp [hanswer] at hs

end Reasons

section ConstantLimit

variable {q q' : Query} {V V' : Vocabulary} {calls : List Call} {m : ℕ}
  {answers : List (Except Misuse (Option Substitution))}

/-- Every call has the same limit on solutions and no timeout. -/
def Constant (m : ℕ) (calls : List Call) : Prop := ∀ call ∈ calls, call.limits = ⟨m, none⟩

theorem full_iff {call : Call} (hm : 0 < m) (h : call.limits = ⟨m, none⟩) :
    q.Full call ↔ m ≤ q.solutions := by
  simp [Full, h, hm]

theorem not_late {call : Call} (h : call.limits = ⟨m, none⟩) : ¬ Late call := by
  simp [Late, h]

/-- Where a query can be after calls under a constant limit: it is open, it has stopped at the
limit, or it has stopped before that because the root is exhausted. -/
inductive StopsWithin (m : ℕ) (q : Query) (V : Vocabulary) (q' : Query) : Prop
  | running (h : q'.stopped = none)
  | full (h : q'.stopped = some .solutionLimit) (hcount : q'.solutions = m)
  | exhausted {rs : List (Outcome × Vocabulary)} {W : Vocabulary}
      (h : q'.stopped = some .exhausted) (hlt : q'.solutions < m)
      (hrs : q.root.Calls q.program V rs) (hW : (.exhausted, W) ∈ rs)
      (hcount : q'.solutions = q.solutions + (found rs).length)

/-- What is left of a run after its first call tells where the whole run ends. -/
theorem StopsWithin.of_traced {a : Except Misuse (Option Substitution)} {q₁ : Query}
    {V₁ : Vocabulary} {rs : List (Outcome × Vocabulary)} (h : StopsWithin m q₁ V₁ q')
    (hrs : Traced q V [a] q₁ V₁ rs) : StopsWithin m q V q' := by
  cases h with
  | running h => exact .running h
  | full h hcount => exact .full h hcount
  | exhausted h hlt hrs' hW hcount =>
    rw [hrs.program] at hrs'
    refine .exhausted h hlt (hrs.calls _ hrs') (List.mem_append_right _ hW) ?_
    rw [hcount, hrs.count, found_append, hrs.found, List.length_append, Nat.add_assoc]

theorem Run.of_constant (hm : 0 < m) (h : q.Run V calls answers q' V') (hcalls : Constant m calls)
    (hq : q.stopped = none) (hcount : q.solutions ≤ m) : StopsWithin m q V q' := by
  induction h with
  | nil => exact .running hq
  | @cons q q' V V' call calls s answers hask hs hrun ih =>
    have hlimits := hcalls call (by simp)
    have hnamed := ne_unnamed hask hs
    have hresponds := responds_of_ask hask hnamed
    obtain ⟨rs, htraced⟩ := hresponds.exists_traced hnamed
    have hgoOn (hopen : s.query.stopped = none) (hle : s.query.solutions ≤ m) :
        StopsWithin m q V q' :=
      (ih (fun c hc => hcalls c (List.mem_cons_of_mem call hc)) hopen hle).of_traced htraced
    cases hresponds with
    | stopped hstopped _ _ _ => simp [hq] at hstopped
    | limited _ hlimit hquery _ _ =>
      rcases limit?_eq_some_iff.mp hlimit with ⟨rfl, hfull⟩ | ⟨-, -, hlate⟩
      · obtain ⟨-, hstopped, hsolutions, -⟩ := hrun.of_stopped (congrArg Query.stopped hquery)
        have hsame : q'.solutions = q.solutions := by rw [hsolutions, hquery]; rfl
        rw [full_iff hm hlimits] at hfull
        exact .full hstopped (by omega)
      · exact absurd hlate (not_late hlimits)
    | exhausted _ hlimit hroot hr hquery _ _ =>
      have hfull := (limit?_eq_none_iff.mp hlimit).1
      rw [full_iff hm hlimits] at hfull
      obtain ⟨-, hstopped, hsolutions, -⟩ := hrun.of_stopped (congrArg Query.stopped hquery)
      have hsame : q'.solutions = q.solutions := by rw [hsolutions, hquery]; rfl
      have hrs := Node.Calls.cons hroot (by simp [hr]) .nil
      rw [hr] at hrs
      exact .exhausted hstopped (by omega) hrs (List.mem_singleton_self _) (by simp [hsame])
    | failed _ _ _ _ hquery _ _ =>
      exact hgoOn (by rw [hquery]; exact hq) (by rw [hquery]; exact hcount)
    | solution _ hlimit _ _ hquery _ _ =>
      have hfull := (limit?_eq_none_iff.mp hlimit).1
      rw [full_iff hm hlimits] at hfull
      have hle : q.solutions + 1 ≤ m := by omega
      exact hgoOn (by rw [hquery]; exact hq) (by rw [hquery]; exact hle)

/-- Some calls under a constant limit bring a query to its stop. -/
def CanStop (m : ℕ) (q : Query) (V : Vocabulary) : Prop :=
  ∃ calls answers q' V', Constant m calls ∧ q.Run V calls answers q' V' ∧ q'.stopped.isSome

theorem CanStop.of_ask {call : Call} {s : QueryStep} (hcall : call.limits = ⟨m, none⟩)
    (hask : q.ask call V = some s) (hs : call.journal ≠ .closed → s.answer ≠ .error .unnamed)
    (h : CanStop m s.query s.vocabulary) : CanStop m q V := by
  obtain ⟨calls, answers, q', V', hcalls, hrun, hstopped⟩ := h
  exact ⟨call :: calls, _, q', V', by simpa [Constant, hcall] using hcalls, .cons hask hs hrun,
    hstopped⟩

theorem canStop_of_stopped (h : q.stopped.isSome) : CanStop m q V :=
  ⟨[], [], q, V, by simp [Constant], .nil, h⟩

theorem canStop_of_full (hm : 0 < m) (hq : q.stopped = none) (hcount : m ≤ q.solutions) :
    CanStop m q V := by
  have hask : q.ask ⟨⟨m, none⟩, 0, 0, .closed⟩ V = some ⟨.ok none,
      { q.limited ⟨m, none⟩ with stopped := some .solutionLimit }, V, .closed⟩ := by
    simp [ask, next, limited, hq, limit?, hm, hcount, finish]
  exact .of_ask rfl hask (by simp) (canStop_of_stopped rfl)

theorem canStop_of_calls (hm : 0 < m) (hq : q.stopped = none) {rs : List (Outcome × Vocabulary)}
    (h : q.root.Calls q.program V rs)
    (hrs : m ≤ q.solutions + (found rs).length ∨ ∃ W, (.exhausted, W) ∈ rs) : CanStop m q V := by
  generalize hroot : q.root = node at h
  generalize hprogram : q.program = P at h
  induction h generalizing q with
  | nil => exact canStop_of_full hm hq (by simpa using hrs)
  | @cons node d V J s rs hstep hs _ ih =>
    by_cases hcount : m ≤ q.solutions
    · exact canStop_of_full hm hq hcount
    · obtain ⟨d₀, hd₀⟩ := ((takes_of_next hstep).unlog (Node.ne_unnamed hstep hs)).exists_bound
      have hnext : q.root.next q.program d₀ V .closed = some s.unlogged := by
        rw [hroot, hprogram]
        exact hd₀ d₀ le_rfl
      have hlimit : (q.limited ⟨m, none⟩).limit? 0 = none := by
        simp [limit?, limited, hcount]
      let call : Call := ⟨⟨m, none⟩, 0, d₀, .closed⟩
      cases hout : s.outcome with
      | solution σ =>
        have hask : q.ask call V = some ⟨.ok (some σ), { q.limited ⟨m, none⟩ with
            root := s.node, solutions := q.solutions + 1 }, s.vocabulary, .closed⟩ := by
          simp [call, ask, next, hq, hlimit, hnext, hout, record]
        refine .of_ask rfl hask (by simp) (ih hq ?_ rfl hprogram)
        simpa [hout, Nat.add_assoc, Nat.add_comm 1] using hrs
      | exhausted =>
        have hask : q.ask call V = some ⟨.ok none, { q.limited ⟨m, none⟩ with
            root := s.node, stopped := some .exhausted }, s.vocabulary, .closed⟩ := by
          simp [call, ask, next, hq, hlimit, hnext, hout, finish]
        exact .of_ask rfl hask (by simp) (canStop_of_stopped rfl)
      | failed e =>
        have hask : q.ask call V = some ⟨.error e, { q.limited ⟨m, none⟩ with root := s.node },
            s.vocabulary, .closed⟩ := by
          simp [call, ask, next, hq, hlimit, hnext, hout]
        refine .of_ask rfl hask (fun h => absurd rfl h) (ih hq ?_ rfl hprogram)
        simpa [hout] using hrs

end ConstantLimit

/-- What a query has handed out so far, compared with what its root gives when it is asked alone
over the same vocabulary. -/
structure Delivers (P : Program) (root : Node) (V : Vocabulary)
    (answers : List (Except Misuse (Option Substitution))) (q : Query) : Prop where
  count : q.solutions = (delivered answers).length
  /-- Nothing but solutions of the root is handed out. -/
  source : ∃ rs, root.Calls P V rs ∧ found rs = delivered answers
  /-- None of them is left out and none comes twice. -/
  first : ∀ rs, root.Calls P V rs → q.solutions ≤ (found rs).length →
    (found rs).take q.solutions = delivered answers
  running : q.stopped = none ↔ .ok none ∉ answers

/-- A call of a query, and all calls after it. -/
structure Obeys (q : Query) (V : Vocabulary) : Prop where
  /-- An error changes neither the count nor the stop. -/
  error : ∀ {call s e}, q.ask call V = some s → s.answer = .error e →
    (call.journal ≠ .closed → e ≠ .unnamed) →
      s.query.solutions = q.solutions ∧ s.query.stopped = q.stopped
  /-- The first answer without a solution stops the query, for one reason. -/
  stop : ∀ {call s}, q.stopped = none → q.ask call V = some s → s.answer = .ok none →
    ∃ reason, s.query.stopped = some reason ∧ s.query.solutions = q.solutions ∧
      q.StopsFor call V reason
  /-- A query that has stopped answers every call and stays as it is. -/
  stopped : ∀ {reason}, q.stopped = some reason →
    (∀ call, q.ask call V = some ⟨.ok none, q.limited call.limits, V, call.journal⟩) ∧
      ∀ {calls answers q' V'}, q.Run V calls answers q' V' →
        (∀ a ∈ answers, a = .ok none) ∧ q'.stopped = some reason ∧
          q'.solutions = q.solutions ∧ V' = V

/-- A constant limit on the solutions and no timeout. The calls of the root show how many
solutions there are up to the limit. -/
structure Counts (P : Program) (root : Node) (V : Vocabulary) (m : ℕ) (q : Query) : Prop where
  ends : ∀ {rs}, root.Calls P V rs → (m ≤ (found rs).length ∨ ∃ W, (.exhausted, W) ∈ rs) →
    CanStop m q V
  amount : ∀ {rs}, root.Calls P V rs → (m ≤ (found rs).length ∨ ∃ W, (.exhausted, W) ∈ rs) →
    ∀ {calls answers q' V'}, Constant m calls → q.Run V calls answers q' V' → q'.stopped.isSome →
      q'.solutions = min m (found rs).length ∧
        (q'.stopped = some .solutionLimit ↔ m ≤ (found rs).length)

section Assembly

variable {P : Program} {goal : Formula} {θ : Substitution} {root : Node} {q q' : Query}
  {V V' : Vocabulary} {calls : List Call} {answers : List (Except Misuse (Option Substitution))}

theorem obeys (q : Query) (V : Vocabulary) : q.Obeys V where
  error hask hs he := (responds_of_ask hask (ne_unnamed hask (by simpa [hs] using he))).of_error hs
  stop hq hask hs := (responds_of_ask hask (by simp [hs])).exists_reason hq hs
  stopped hq := ⟨fun call => by simp [ask, next, hq], fun hrun => hrun.of_stopped hq⟩

theorem eq_of_start (hroot : Node.start θ goal = .ok root) (hq : Query.start P goal θ = .ok q) :
    q = { program := P, goal := goal, root := root } := by
  simp only [start, hroot, Except.ok.injEq] at hq
  exact hq.symm

theorem Run.delivers (h : q.Run V calls answers q' V') (hopen : q.stopped = none)
    (hcount : q.solutions = 0) : Delivers q.program q.root V answers q' := by
  obtain ⟨rs, htraced⟩ := h.exists_traced
  have hcalls : q.root.Calls q.program V rs := by simpa using htraced.calls [] .nil
  have hcount' : q'.solutions = (delivered answers).length := by
    rw [htraced.count, hcount, Nat.zero_add]
  refine ⟨hcount', ⟨rs, hcalls, htraced.found⟩, ?_, h.stopped_iff hopen⟩
  intro rs' hcalls' hle
  rw [hcount', ← htraced.found] at hle ⊢
  rcases hcalls.comparable hcalls' with ⟨t, rfl⟩ | ⟨t, rfl⟩
  · rw [found_append, List.take_left]
  · rw [found_append, List.length_append] at hle
    have ht : found t = [] := List.length_eq_zero_iff.mp (by omega)
    rw [found_append, ht, List.append_nil, List.take_length]

theorem Delivers.le_found {rs : List (Outcome × Vocabulary)} {W : Vocabulary}
    (h : Delivers P root V answers q) (hrs : root.Calls P V rs) (hW : (.exhausted, W) ∈ rs) :
    q.solutions ≤ (found rs).length := by
  obtain ⟨rs₀, hrs₀, hfound⟩ := h.source
  rw [h.count, ← hfound]
  exact (hrs₀.found_comparable hrs hW).length_le

theorem counts (hopen : q.stopped = none) (hcount : q.solutions = 0) {m : ℕ} (hm : 0 < m) :
    Counts q.program q.root V m q := by
  constructor
  · intro rs hrs hend
    exact canStop_of_calls hm hopen hrs (by simpa [hcount] using hend)
  · intro rs hrs hend calls answers q' V' hcalls hrun hstopped
    cases hrun.of_constant hm hcalls hopen (by omega) with
    | running h => simp [h] at hstopped
    | full h hfull =>
      have hle : m ≤ (found rs).length := by
        rcases hend with hend | ⟨W, hW⟩
        · exact hend
        · exact hfull ▸ (hrun.delivers hopen hcount).le_found hrs hW
      exact ⟨by omega, by simp [h, hle]⟩
    | exhausted h hlt hrs₀ hW₀ hsum =>
      rw [hcount, Nat.zero_add] at hsum
      have hle := (hrs.found_comparable hrs₀ hW₀).length_le
      obtain ⟨W, hW⟩ := hend.resolve_left (by omega)
      have hge := (hrs₀.found_comparable hrs hW).length_le
      have hnot : ¬ m ≤ (found rs).length := by omega
      exact ⟨by omega, by simp [h, hnot]⟩

end Assembly

end Query

/-- A query hands out the first solutions of its root. At every point of every run, whatever the
limits were and whatever the clock said: what was handed out is what the root begins with when
it is asked alone; an error changes neither the count nor the stop; the first answer without a
solution stops the query at the limit, else at the timeout, else at the end of the search; and
from then on nothing changes. Under a constant limit and no timeout the query can be brought to
its stop, and it has counted the limit or all solutions, whichever is less; where both are the
same, it has stopped at the limit. -/
theorem query_delivers {P : Program} {goal : Formula} {θ : Substitution} {root : Node} {q : Query}
    (hroot : Node.start θ goal = .ok root) (hq : Query.start P goal θ = .ok q) (V : Vocabulary) :
    (∀ {calls answers q' V'}, q.Run V calls answers q' V' →
        Query.Delivers P root V answers q' ∧ q'.Obeys V') ∧
      ∀ m, 0 < m → Query.Counts P root V m q := by
  obtain rfl := Query.eq_of_start hroot hq
  constructor
  · intro calls answers q' V' hrun
    exact ⟨hrun.delivers rfl rfl, q'.obeys V'⟩
  · intro m hm
    exact Query.counts (q := { program := P, goal := goal, root := root }) rfl rfl hm

def pairRules : Program := .ofList [.fact ⟨⟨0⟩, [.const ⟨1⟩]⟩, .fact ⟨⟨0⟩, [.const ⟨2⟩]⟩]

def pairGoal : Formula := .atom ⟨⟨0⟩, [.var ⟨0⟩]⟩

/-- The query after some rules were tried. -/
def pairQuery (tried count : ℕ) (limits : Limits) (stopped : Option StopReason) : Query where
  program := pairRules
  goal := pairGoal
  root := .ready ⟨⟨0⟩, [.var ⟨0⟩]⟩ tried .empty
  limits := limits
  solutions := count
  stopped := stopped

def pairCall : Query.Call := ⟨⟨2, none⟩, 0, 4, .closed⟩

def pairAnswers : List (Except Misuse (Option Substitution)) :=
  [.ok (some { bindings := [(⟨0⟩, .term (.const ⟨1⟩))] }),
    .ok (some { bindings := [(⟨0⟩, .term (.const ⟨2⟩))] }), .ok none]

theorem run_pairQuery :
    (pairQuery 0 0 {} none).Run .empty [pairCall, pairCall, pairCall] pairAnswers
      (pairQuery 2 2 ⟨2, none⟩ (some .solutionLimit)) .empty := by
  have hfirst : (pairQuery 0 0 {} none).ask pairCall .empty =
      some ⟨.ok (some { bindings := [(⟨0⟩, .term (.const ⟨1⟩))] }),
        pairQuery 1 1 ⟨2, none⟩ none, .empty, .closed⟩ := rfl
  have hsecond : (pairQuery 1 1 ⟨2, none⟩ none).ask pairCall .empty =
      some ⟨.ok (some { bindings := [(⟨0⟩, .term (.const ⟨2⟩))] }),
        pairQuery 2 2 ⟨2, none⟩ none, .empty, .closed⟩ := rfl
  have hthird : (pairQuery 2 2 ⟨2, none⟩ none).ask pairCall .empty =
      some ⟨.ok none, pairQuery 2 2 ⟨2, none⟩ (some .solutionLimit), .empty, .closed⟩ := rfl
  exact .cons hfirst (by simp) (.cons hsecond (by simp) (.cons hthird (by simp) .nil))

/-- The limit is reached with the last solution. -/
theorem query_delivers_pairRules :
    Query.start pairRules pairGoal .empty = .ok (pairQuery 0 0 {} none) ∧
      Query.Delivers pairRules (.ready ⟨⟨0⟩, [.var ⟨0⟩]⟩ 0 .empty) .empty pairAnswers
        (pairQuery 2 2 ⟨2, none⟩ (some .solutionLimit)) ∧
      Query.Counts pairRules (.ready ⟨⟨0⟩, [.var ⟨0⟩]⟩ 0 .empty) .empty 2
        (pairQuery 0 0 {} none) := by
  have hquery : Query.start pairRules pairGoal .empty = .ok (pairQuery 0 0 {} none) := rfl
  obtain ⟨hruns, hcounts⟩ := query_delivers rfl hquery .empty
  exact ⟨hquery, (hruns run_pairQuery).1, hcounts 2 (by simp)⟩

end HornResolution
