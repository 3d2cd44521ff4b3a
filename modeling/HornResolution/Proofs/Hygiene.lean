import HornResolution.Proofs.Histories

/-!
# Variables are never captured

A session is any number of nodes over one program and one vocabulary, started, asked and
reset in any order. Inside a call many nodes are alive at once: the one that is asked, the
ones around it as they stand, the other nodes of the session, and the substitutions handed
out before. `Node.moments` lists all calls that a call comes to, each with what is alive
then and with the copy of a rule that it makes. At every such moment all variables are
allocated ones, and a copy has none of them, nor one of a rule or of an earlier copy.
-/

namespace HornResolution

structure Copied where
  rule : Clause
  copy : Clause

/-- What there is when a node is asked. -/
structure Moment where
  /-- The node that is asked and all others, as they stand. -/
  nodes : List Node
  /-- The substitutions handed out before. -/
  held : List Substitution
  vocabulary : Vocabulary
  /-- What the call copies next, if it comes to a rule. -/
  copied : Option Copied

/-- The variables of nodes and of substitutions handed out. -/
def liveOccurrences (nodes : List Node) (held : List Substitution) : List Var :=
  nodes.flatMap Node.occurrences ++ held.flatMap Substitution.occurrences

namespace Moment

def occurrences (m : Moment) : List Var := liveOccurrences m.nodes m.held

def added (m : Moment) : ℕ :=
  match m.copied with
  | some c => c.rule.vars.length
  | none => 0

end Moment

namespace Node

/-- What is left to do after a call, if it came back without a solution. -/
def onExhausted (answer : Option Step) (go : Step → List Moment) : List Moment :=
  match answer with
  | none => []
  | some s =>
    match s.outcome with
    | .exhausted => go s
    | _ => []

section Moments

variable (P : Program) (held : List Substitution)

mutual

/-- The calls that a call of `next` comes to, in order, itself included. The nodes in `above`
are alive besides the one that is asked. -/
def moments : (depth : ℕ) → List Node → Node → Vocabulary → Journal → List Moment
  | 0, _, _, _, _ => []
  | depth + 1, above, .ready goal i parent, V, J =>
    let now := Moment.mk (.ready goal i parent :: above) held V
    match P.get? i with
    | none => [now none]
    | some rule =>
      match rule.standardizeApart V with
      | (.error _, _) => [now none]
      | (.ok copy, V') =>
        let waiting := Node.ready goal (i + 1) parent
        let attempt := Attempt.make goal parent copy
        now (some ⟨rule, copy⟩) ::
          match J.report V' attempt.event with
          | none => []
          | some J' =>
            match attempt.course with
            | .passed => moments depth above waiting V' J'
            | .solved _ => []
            | .blocked _ => []
            | .entered child =>
              -- While the body is asked, the atom already waits for its next rule.
              moments depth (waiting :: above) child V' J' ++
                onExhausted (next P depth child V' J') fun s =>
                  moments depth above waiting s.vocabulary s.journal
  | depth + 1, above, .inBody goal i parent body, V, J =>
    let asked := Node.inBody goal i parent body
    ⟨asked :: above, held, V, none⟩ ::
      (moments depth (asked :: above) body V J ++
        onExhausted (next P depth body V J) fun s =>
          moments depth above (.ready goal i parent) s.vocabulary s.journal)
  | depth + 1, above, .single first, V, J =>
    ⟨.single first :: above, held, V, none⟩ :: moments depth (.single first :: above) first V J
  | depth + 1, above, .opening first remaining, V, J =>
    momentsFirst depth above first remaining none V J
  | depth + 1, above, .paired first remaining rest, V, J =>
    let asked := Node.paired first remaining rest
    ⟨asked :: above, held, V, none⟩ ::
      (moments depth (asked :: above) rest V J ++
        onExhausted (next P depth rest V J) fun s =>
          momentsFirst depth above first remaining (some s.node) s.vocabulary s.journal)

def momentsFirst : (depth : ℕ) → List Node → Node → Formula → Option Node → Vocabulary →
    Journal → List Moment
  | 0, _, _, _, _, _, _ => []
  | depth + 1, above, first, remaining, rest, V, J =>
    let asked := conjunction first remaining rest
    ⟨asked :: above, held, V, none⟩ ::
      (moments depth (asked :: above) first V J ++
        match next P depth first V J with
        | none => []
        | some s =>
          match s.outcome with
          | .solution σ =>
            match renew σ remaining rest with
            | .error _ => []
            | .ok node =>
              -- The new node for the remaining operands has taken its place by now.
              moments depth (.paired s.node remaining node :: above) node s.vocabulary
                  s.journal ++
                onExhausted (next P depth node s.vocabulary s.journal) fun r =>
                  match r.journal.report r.vocabulary (.backtracked remaining) with
                  | none => []
                  | some J' =>
                    momentsFirst depth above s.node remaining (some r.node) r.vocabulary J'
          | _ => [])

end

end Moments

end Node

section Alive

variable {V : Vocabulary} {nodes : List Node} {node : Node} {held : List Substitution}

theorem allocated_liveOccurrences :
    V.Allocated (liveOccurrences nodes held) ↔
      (∀ node ∈ nodes, V.Allocated node.occurrences) ∧ ∀ σ ∈ held, V.Allocated σ.occurrences := by
  simp only [Vocabulary.Allocated, liveOccurrences, List.mem_append, List.mem_flatMap]
  constructor
  · intro h
    exact ⟨fun node hnode v hv => h v (Or.inl ⟨node, hnode, hv⟩),
      fun σ hσ v hv => h v (Or.inr ⟨σ, hσ, hv⟩)⟩
  · rintro ⟨hnodes, hheld⟩ v (⟨node, hnode, hv⟩ | ⟨σ, hσ, hv⟩)
    · exact hnodes node hnode v hv
    · exact hheld σ hσ v hv

theorem allocated_liveOccurrences_cons :
    V.Allocated (liveOccurrences (node :: nodes) held) ↔
      V.Allocated node.occurrences ∧ V.Allocated (liveOccurrences nodes held) := by
  simp [allocated_liveOccurrences, and_assoc]

end Alive

section Accounts

variable {P : Program} {V V' : Vocabulary} {m : Moment} {ms ms' : List Moment}
  {answer : Option Step} {s : Step}

/-- A moment of a search over allocated variables. -/
structure Moment.Sound (P : Program) (m : Moment) : Prop where
  known : P.KnownIn m.vocabulary
  allocated : m.vocabulary.Allocated m.occurrences
  copied : ∀ c, m.copied = some c → c.rule ∈ P.clauses ∧
    ∃ V', c.rule.standardizeApart m.vocabulary = (.ok c.copy, V')

/-- Each moment begins with the variables that the ones before it left. -/
def Moment.Follow : ℕ → List Moment → Prop
  | _, [] => True
  | n, m :: ms => m.vocabulary.varCount = n ∧ Follow (n + m.added) ms

/-- The moments of a call are sound and account for every variable that it allocates. -/
structure Moment.Account (P : Program) (V : Vocabulary) (ms : List Moment)
    (answer : Option Step) : Prop where
  sound : ∀ m ∈ ms, m.Sound P
  follow : Moment.Follow V.varCount ms
  balance : ∀ s, answer = some s →
    s.vocabulary.varCount = V.varCount + (ms.map Moment.added).sum

namespace Moment

theorem follow_append {n : ℕ} :
    Follow n (ms ++ ms') ↔ Follow n ms ∧ Follow (n + (ms.map added).sum) ms' := by
  induction ms generalizing n with
  | nil => simp [Follow]
  | cons m ms ih => simp [Follow, ih, and_assoc, Nat.add_assoc]

namespace Account

theorem unanswered (P : Program) (V : Vocabulary) : Account P V [] none :=
  ⟨by simp, trivial, by simp⟩

theorem ended (h : s.vocabulary.varCount = V.varCount) : Account P V [] (some s) := by
  refine ⟨by simp, trivial, ?_⟩
  rintro t ht
  obtain rfl := Option.some.inj ht
  simpa using h

theorem rewrap (h : Account P V ms (some s))
    (hanswer : ∀ t, answer = some t → t.vocabulary = s.vocabulary) : Account P V ms answer := by
  refine ⟨h.sound, h.follow, ?_⟩
  intro t ht
  rw [hanswer t ht]
  exact h.balance s rfl

theorem append (h : Account P V ms (some s)) (h' : Account P s.vocabulary ms' answer) :
    Account P V (ms ++ ms') answer := by
  have hbalance := h.balance s rfl
  refine ⟨?_, follow_append.mpr ⟨h.follow, hbalance ▸ h'.follow⟩, ?_⟩
  · intro m hm
    exact (List.mem_append.mp hm).elim (h.sound m) (h'.sound m)
  · intro t ht
    rw [h'.balance t ht, hbalance, List.map_append, List.sum_append, Nat.add_assoc]

theorem cons (hm : m.Sound P) (hV : m.vocabulary = V) (hV' : V'.varCount = V.varCount + m.added)
    (h : Account P V' ms answer) : Account P V (m :: ms) answer := by
  refine ⟨?_, ⟨congrArg Vocabulary.varCount hV, hV' ▸ h.follow⟩, ?_⟩
  · intro m' hm'
    rcases List.mem_cons.mp hm' with rfl | hm'
    · exact hm
    · exact h.sound m' hm'
  · intro s hs
    rw [h.balance s hs, hV', List.map_cons, List.sum_cons, Nat.add_assoc]

end Account

end Moment

variable {held : List Substitution} {above : List Node} {node : Node} {J : Journal}

theorem Moment.Account.asked (hP : P.KnownIn V) (hnode : V.Allocated node.occurrences)
    (habove : V.Allocated (liveOccurrences above held)) (h : Moment.Account P V ms answer) :
    Moment.Account P V (⟨node :: above, held, V, none⟩ :: ms) answer :=
  .cons ⟨hP, allocated_liveOccurrences_cons.mpr ⟨hnode, habove⟩, by simp⟩ rfl rfl h

theorem Moment.Account.copying {goal : Atom} {i : ℕ} {parent : Substitution} {rule copy : Clause}
    (hP : P.KnownIn V) (hnode : V.Allocated (Node.ready goal i parent).occurrences)
    (habove : V.Allocated (liveOccurrences above held))
    (hrule : rule ∈ P.clauses) (hcopy : rule.standardizeApart V = (.ok copy, V'))
    (h : Moment.Account P V' ms answer) :
    Moment.Account P V (⟨.ready goal i parent :: above, held, V, some ⟨rule, copy⟩⟩ :: ms)
      answer := by
  refine .cons ⟨hP, allocated_liveOccurrences_cons.mpr ⟨hnode, habove⟩, ?_⟩ rfl
    (Clause.standardizeApart_ok hcopy).1 h
  intro c hc
  obtain rfl := Option.some.inj hc
  exact ⟨hrule, V', hcopy⟩

/-- A call goes on after an inner call that came back without a solution, and ends with it
otherwise. -/
theorem Moment.Account.goOn {f : Step → Option Step} {go : Step → List Moment}
    (hended : ∀ s, s.outcome ≠ .exhausted → ∀ t, f s = some t → t.vocabulary = s.vocabulary)
    {r : Option Step} : Moment.Account P V ms r →
      (∀ s, r = some s → s.outcome = .exhausted → Moment.Account P s.vocabulary (go s) (f s)) →
        Moment.Account P V (ms ++ Node.onExhausted r go)
          (match r with | none => none | some s => f s) := by
  intro h hgo
  cases r with
  | none =>
    rw [Node.onExhausted, List.append_nil]
    exact h
  | some s =>
    by_cases hs : s.outcome = .exhausted
    · simp only [Node.onExhausted, hs]
      exact h.append (hgo s rfl hs)
    · simp only [Node.onExhausted, List.append_nil]
      exact h.rewrap (hended s hs)

structure AccountsWithin (P : Program) (held : List Substitution) (depth : ℕ) : Prop where
  moments : ∀ {above node V J}, P.KnownIn V → V.Allocated (Node.occurrences node) →
    V.Allocated (liveOccurrences above held) →
      Moment.Account P V (Node.moments P held depth above node V J) (Node.next P depth node V J)
  momentsFirst : ∀ {above first remaining rest V J}, P.KnownIn V →
    V.Allocated (Node.conjunction first remaining rest).occurrences →
    V.Allocated (liveOccurrences above held) →
      Moment.Account P V (Node.momentsFirst P held depth above first remaining rest V J)
        (Node.nextFirst P depth first remaining rest V J)

variable {depth : ℕ}

theorem account_ready (ih : AccountsWithin P held depth) {goal : Atom} {i : ℕ}
    {parent : Substitution} (hP : P.KnownIn V)
    (hnode : V.Allocated (Node.ready goal i parent).occurrences)
    (habove : V.Allocated (liveOccurrences above held)) :
    Moment.Account P V (Node.moments P held (depth + 1) above (.ready goal i parent) V J)
      (Node.next P (depth + 1) (.ready goal i parent) V J) := by
  cases hrule : P.get? i with
  | none =>
    simp only [Node.moments, Node.next_ready_of_none hrule, hrule]
    split
    · exact .asked hP hnode habove (.ended rfl)
    · exact .asked hP hnode habove (.ended rfl)
  | some rule =>
    have hmem : rule ∈ P.clauses := Array.mem_of_getElem? hrule
    -- Known rules have copies, so the call does not end here with variables half allocated.
    obtain ⟨copy, V', hcopy⟩ := Clause.exists_copy (hP rule hmem)
    have hle := Clause.varCount_le_standardizeApart hcopy
    have hP' := hP.mono hle
    simp only [Node.moments, Node.next_ready_of_some hrule, Node.follow, hrule, hcopy]
    refine .copying hP hnode habove hmem hcopy ?_
    cases hreport : J.report V' (Attempt.make goal parent copy).event with
    | none => exact .ended rfl
    | some J' =>
      have htrial := trial_make goal parent copy
      cases hcourse : (Attempt.make goal parent copy).course with
      | passed =>
        exact ih.moments hP' (hnode.mono hle) (habove.mono hle)
      | solved σ => exact .ended rfl
      | blocked e => exact .ended rfl
      | entered child =>
        rw [hcourse] at htrial
        have htried : Tried P goal i parent V J V' J' (.entered child) :=
          ⟨hrule, hcopy, hreport, htrial⟩
        obtain ⟨hwaiting, hchild⟩ := htried.allocated hnode
        refine .goOn ?_ (ih.moments hP' hchild (allocated_liveOccurrences_cons.mpr
          ⟨hwaiting, habove.mono hle⟩)) ?_
        · intro s hs t ht
          split at ht
          · obtain rfl := Option.some.inj ht
            rfl
          · obtain rfl := Option.some.inj ht
            rfl
          · contradiction
        · intro s hr hs
          simp only [hs]
          have hle' := (takes_of_next hr).varCount_le
          exact ih.moments (hP'.mono hle') (hwaiting.mono hle')
            (habove.mono (hle.trans hle'))

theorem account_first (ih : AccountsWithin P held depth) {first : Node} {remaining : Formula}
    {rest : Option Node} (hP : P.KnownIn V)
    (hnode : V.Allocated (Node.conjunction first remaining rest).occurrences)
    (habove : V.Allocated (liveOccurrences above held)) :
    Moment.Account P V (Node.momentsFirst P held (depth + 1) above first remaining rest V J)
      (Node.nextFirst P (depth + 1) first remaining rest V J) := by
  obtain ⟨hfirst, -, -⟩ := Node.allocated_conjunction.mp hnode
  have haccount := ih.moments (J := J) hP hfirst
    (allocated_liveOccurrences_cons.mpr ⟨hnode, habove⟩)
  simp only [Node.momentsFirst, Node.nextFirst_succ, Node.solveFirst]
  refine .asked hP hnode habove ?_
  cases hs : Node.next P depth first V J with
  | none =>
    rw [hs] at haccount
    simpa using haccount
  | some s =>
    rw [hs] at haccount
    have htakes := takes_of_next hs
    have hle := htakes.varCount_le
    have hsteps := htakes.allocated hfirst
    cases hout : s.outcome with
    | exhausted => simpa [hout] using haccount.rewrap (by simp)
    | failed e => simpa [hout] using haccount.rewrap (by simp)
    | solution σ =>
      cases hrenew : Node.renew σ remaining rest with
      | error e => simpa [hout, hrenew] using haccount.rewrap (by simp)
      | ok node =>
        simp only [hout, hrenew]
        refine haccount.append ?_
        have hpaired := Step.allocated_renewed hsteps hle hnode hout hrenew
        obtain ⟨hfront, hrest⟩ := Vocabulary.allocated_append.mp hpaired
        have habove' := habove.mono hle
        refine .goOn ?_ (ih.moments (hP.mono hle) hrest
          (allocated_liveOccurrences_cons.mpr ⟨hpaired, habove'⟩)) ?_
        · intro r hr t ht
          simp only at ht
          obtain rfl := Option.some.inj ht
          rfl
        · intro r hr hexhausted
          simp only [hexhausted]
          have htakes' := takes_of_next hr
          have hle' := htakes'.varCount_le
          cases r.journal.report r.vocabulary (.backtracked remaining) with
          | none => exact .ended rfl
          | some J' =>
            exact ih.momentsFirst ((hP.mono hle).mono hle')
              (Step.allocated_last (htakes'.allocated hrest) hle' hfront) (habove'.mono hle')

/-- The moments of every call account for it. -/
theorem accountsWithin (P : Program) (held : List Substitution) (depth : ℕ) :
    AccountsWithin P held depth := by
  induction depth with
  | zero => exact ⟨fun _ _ _ => .unanswered _ _, fun _ _ _ => .unanswered _ _⟩
  | succ depth ih =>
    refine ⟨fun {above node V J} hP hnode habove => ?_, account_first ih⟩
    cases node with
    | ready goal i parent => exact account_ready ih hP hnode habove
    | inBody goal i parent body =>
      obtain ⟨hfront, hbody⟩ := Vocabulary.allocated_append.mp hnode
      simp only [Node.moments, Node.next_inBody, Node.resume]
      refine .asked hP hnode habove (.goOn ?_ (ih.moments hP hbody
        (allocated_liveOccurrences_cons.mpr ⟨hnode, habove⟩)) ?_)
      · intro s hs t ht
        simp only at ht
        obtain rfl := Option.some.inj ht
        rfl
      · intro s hr hs
        simp only [hs]
        have hle := (takes_of_next hr).varCount_le
        exact ih.moments (hP.mono hle) (hfront.mono hle) (habove.mono hle)
    | single first =>
      have hfirst : V.Allocated first.occurrences := hnode
      simp only [Node.moments, Node.next_single]
      have haccount := ih.moments (J := J) hP hfirst
        (allocated_liveOccurrences_cons.mpr ⟨hnode, habove⟩)
      refine .asked hP hnode habove ?_
      cases hs : Node.next P depth first V J with
      | none =>
        rw [hs] at haccount
        exact haccount
      | some s =>
        rw [hs] at haccount
        exact haccount.rewrap (by simp)
    | opening first remaining =>
      simp only [Node.moments, Node.next_opening]
      exact ih.momentsFirst hP hnode habove
    | paired first remaining rest =>
      obtain ⟨hfront, hrest⟩ := Vocabulary.allocated_append.mp hnode
      simp only [Node.moments, Node.next_paired, Node.solveRest]
      refine .asked hP hnode habove (.goOn ?_ (ih.moments hP hrest
        (allocated_liveOccurrences_cons.mpr ⟨hnode, habove⟩)) ?_)
      · intro s hs t ht
        simp only at ht
        obtain rfl := Option.some.inj ht
        rfl
      · intro s hr hs
        simp only [hs]
        have htakes := takes_of_next hr
        have hle := htakes.varCount_le
        exact ih.momentsFirst (hP.mono hle)
          (Step.allocated_last (htakes.allocated hrest) hle hfront) (habove.mono hle)

end Accounts

section Histories

variable {P : Program} {V : Vocabulary} {m : Moment} {ms ms' : List Moment}

/-- What makes the variables of a history safe from capture. -/
structure Hygienic (P : Program) (history : List Moment) : Prop where
  /-- Whatever is alive has allocated variables only. -/
  allocated : ∀ m ∈ history, m.vocabulary.Allocated m.occurrences
  /-- A copy is one of a rule, made from the vocabulary of that moment. -/
  genuine : ∀ m ∈ history, ∀ c, m.copied = some c → c.rule ∈ P.clauses ∧
    ∃ V', c.rule.standardizeApart m.vocabulary = (.ok c.copy, V')
  /-- A copy has variables only that were not allocated before. -/
  fresh : ∀ m ∈ history, ∀ c, m.copied = some c →
    ∀ v ∈ c.copy.occurrences, m.vocabulary.varCount ≤ v.id
  /-- A copy has no variable of what is alive or of a rule. -/
  apart : ∀ m ∈ history, ∀ c, m.copied = some c → ∀ v ∈ c.copy.occurrences,
    v ∉ m.occurrences ∧ ∀ rule ∈ P.clauses, v ∉ rule.occurrences
  /-- No two copies share a variable. -/
  disjoint : history.Pairwise fun m m' => ∀ c c', m.copied = some c → m'.copied = some c' →
    c.copy.occurrences.Disjoint c'.copy.occurrences

def Moment.countAfter (m : Moment) : ℕ := m.vocabulary.varCount + m.added

theorem Vocabulary.Allocated.not_mem {vs : List Var} (h : V.Allocated vs) {v : Var}
    (hv : V.varCount ≤ v.id) : v ∉ vs := by
  intro hmem
  have hlt := Vocabulary.knowsVar_iff.mp (h v hmem)
  omega

theorem Moment.Sound.mem_copy (hm : m.Sound P) {c : Copied} (hc : m.copied = some c) {v : Var}
    (hv : v ∈ c.copy.occurrences) : m.vocabulary.varCount ≤ v.id ∧ v.id < m.countAfter := by
  obtain ⟨-, V', hcopy⟩ := hm.copied c hc
  have hcount : V'.varCount = m.countAfter := by
    rw [(Clause.standardizeApart_ok hcopy).1, Moment.countAfter, Moment.added, hc]
  refine ⟨Clause.le_of_mem_copy hcopy hv, ?_⟩
  rw [← hcount]
  exact Vocabulary.knowsVar_iff.mp (Clause.knowsVar_of_mem_copy hcopy hv)

/-- The moments so far, up to a given number of variables. -/
structure Moment.Past (P : Program) (n : ℕ) (ms : List Moment) : Prop where
  sound : ∀ m ∈ ms, m.Sound P
  ordered : ms.Pairwise fun m m' => m.countAfter ≤ m'.vocabulary.varCount
  ended : ∀ m ∈ ms, m.countAfter ≤ n

theorem Moment.Past.hygienic {n : ℕ} (h : Moment.Past P n ms) : Hygienic P ms := by
  refine ⟨fun m hm => (h.sound m hm).allocated, fun m hm => (h.sound m hm).copied, ?_, ?_, ?_⟩
  · intro m hm c hc v hv
    exact ((h.sound m hm).mem_copy hc hv).1
  · intro m hm c hc v hv
    have hm := h.sound m hm
    have hle := (hm.mem_copy hc hv).1
    exact ⟨hm.allocated.not_mem hle, fun rule hrule => (hm.known rule hrule).not_mem hle⟩
  · refine h.ordered.imp_of_mem ?_
    intro m m' hm hm' hlt c c' hc hc' v hv hv'
    have hbefore := ((h.sound m hm).mem_copy hc hv).2
    have hafter := ((h.sound m' hm').mem_copy hc' hv').1
    omega

theorem Moment.Past.mono {n n' : ℕ} (h : Moment.Past P n ms) (hn : n ≤ n') :
    Moment.Past P n' ms :=
  ⟨h.sound, h.ordered, fun m hm => (h.ended m hm).trans hn⟩

theorem Moment.Past.append {n n' : ℕ} (h : Moment.Past P n ms) (h' : Moment.Past P n' ms')
    (hle : ∀ m ∈ ms', n ≤ m.vocabulary.varCount) (hn : n ≤ n') :
    Moment.Past P n' (ms ++ ms') := by
  constructor
  · intro m hm
    exact (List.mem_append.mp hm).elim (h.sound m) (h'.sound m)
  · refine List.pairwise_append.mpr ⟨h.ordered, h'.ordered, ?_⟩
    intro m hm m' hm'
    exact (h.ended m hm).trans (hle m' hm')
  · intro m hm
    exact (List.mem_append.mp hm).elim (fun hm => (h.ended m hm).trans hn) (h'.ended m)

theorem Moment.Follow.bounds {n : ℕ} (h : Moment.Follow n ms) : ∀ m ∈ ms,
    n ≤ m.vocabulary.varCount ∧ m.countAfter ≤ n + (ms.map Moment.added).sum := by
  induction ms generalizing n with
  | nil => simp
  | cons m ms ih =>
    obtain ⟨hm, hrest⟩ := h
    intro m' hm'
    rw [List.map_cons, List.sum_cons]
    rcases List.mem_cons.mp hm' with rfl | hm'
    · rw [Moment.countAfter]
      omega
    · have := ih hrest m' hm'
      omega

theorem Moment.Follow.ordered {n : ℕ} (h : Moment.Follow n ms) :
    ms.Pairwise fun m m' => m.countAfter ≤ m'.vocabulary.varCount := by
  induction ms generalizing n with
  | nil => exact List.Pairwise.nil
  | cons m ms ih =>
    obtain ⟨hm, hrest⟩ := h
    refine List.pairwise_cons.mpr ⟨?_, ih hrest⟩
    intro m' hm'
    have := (hrest.bounds m' hm').1
    rw [Moment.countAfter]
    omega

theorem Moment.Account.past {answer : Option Step} (h : Moment.Account P V ms answer) :
    Moment.Past P (V.varCount + (ms.map Moment.added).sum) ms :=
  ⟨h.sound, h.follow.ordered, fun m hm => (h.follow.bounds m hm).2⟩

end Histories

/-- Nodes over one program and one vocabulary, and the substitutions at hand: the solutions
they gave, and others. -/
structure Session where
  nodes : List Node
  held : List Substitution
  vocabulary : Vocabulary

def Deed.solutions : Deed → List Substitution
  | .ask _ _ (.solution σ) => [σ]
  | _ => []

namespace Session

def Allocated (S : Session) : Prop := S.vocabulary.Allocated (liveOccurrences S.nodes S.held)

instance (S : Session) : Decidable S.Allocated :=
  inferInstanceAs (Decidable (S.vocabulary.Allocated (liveOccurrences S.nodes S.held)))

/-- The moments of a call of the node at an index. -/
def moments (P : Program) (S : Session) (i : ℕ) (node : Node) (depth : ℕ) (J : Journal) :
    List Moment :=
  node.moments P S.held depth (S.nodes.eraseIdx i) S.vocabulary J

def deedMoments (P : Program) (S : Session) (i : ℕ) (node : Node) : Deed → List Moment
  | .ask depth J _ => S.moments P i node depth J
  | _ => []

def after (S : Session) (i : ℕ) (deed : Deed) (u : Usage) : Session :=
  ⟨S.nodes.set i u.node, S.held ++ deed.solutions, u.vocabulary⟩

/-- What a session can come to, with the moments of the calls made on the way. Goals and
parents may be any whose variables are allocated. -/
inductive Reaches (P : Program) (S : Session) : Session → List Moment → Prop
  | refl : Reaches P S S []
  | start {T history node} (goal : Formula) (θ : Substitution) (h : Reaches P S T history)
      (hgoal : T.vocabulary.Allocated goal.occurrences)
      (hθ : T.vocabulary.Allocated θ.occurrences) (hnode : Node.start θ goal = .ok node) :
      Reaches P S { T with nodes := T.nodes ++ [node] } history
  | does {T history} {u u' : Usage} {deed} (i : ℕ) (h : Reaches P S T history)
      (hi : T.nodes[i]? = some u.node) (hV : u.vocabulary = T.vocabulary)
      (hdoes : u.Does P .allocating deed u') :
      Reaches P S (T.after i deed u') (history ++ T.deedMoments P i u.node deed)
  | hold {T history} (σ : Substitution) (h : Reaches P S T history)
      (hσ : T.vocabulary.Allocated σ.occurrences) :
      Reaches P S { T with held := T.held ++ [σ] } history
  | use {T history} (h : Reaches P S T history) (u : Vocabulary.Use) :
      Reaches P S { T with vocabulary := T.vocabulary.after u } history

theorem Reaches.ask {P : Program} {S T : Session} {history : List Moment} {node : Node} {s : Step}
    (i depth : ℕ) (J : Journal) (h : S.Reaches P T history) (hi : T.nodes[i]? = some node)
    (hs : node.next P depth T.vocabulary J = some s) :
    S.Reaches P ⟨T.nodes.set i s.node, T.held ++ (Deed.ask depth J s.outcome).solutions,
      s.vocabulary⟩ (history ++ T.moments P i node depth J) :=
  h.does i (u := ⟨.empty, .empty, node, T.vocabulary⟩) hi rfl (.ask hs)

end Session

section Sessions

variable {P : Program} {S T : Session} {i depth : ℕ} {node : Node} {J : Journal} {s : Step}
  {history : List Moment}

theorem Session.Allocated.get (hT : T.Allocated) (hi : T.nodes[i]? = some node) :
    T.vocabulary.Allocated node.occurrences :=
  (allocated_liveOccurrences.mp hT).1 node (List.mem_of_getElem? hi)

theorem Session.Allocated.set (hT : T.Allocated)
    (hnode : T.vocabulary.Allocated node.occurrences) :
    Session.Allocated { T with nodes := T.nodes.set i node } := by
  obtain ⟨hnodes, hheld⟩ := allocated_liveOccurrences.mp hT
  refine allocated_liveOccurrences.mpr ⟨?_, hheld⟩
  intro n hn
  rcases List.mem_or_eq_of_mem_set hn with hn | rfl
  · exact hnodes n hn
  · exact hnode

theorem Session.Allocated.mono {V : Vocabulary} (hT : T.Allocated)
    (h : T.vocabulary.varCount ≤ V.varCount) :
    Session.Allocated { T with vocabulary := V } :=
  Vocabulary.Allocated.mono hT h

theorem Session.Allocated.account (hT : T.Allocated) (hP : P.KnownIn T.vocabulary)
    (hi : T.nodes[i]? = some node) :
    Moment.Account P T.vocabulary (T.moments P i node depth J)
      (node.next P depth T.vocabulary J) := by
  obtain ⟨hnodes, hheld⟩ := allocated_liveOccurrences.mp hT
  have hothers : T.vocabulary.Allocated (liveOccurrences (T.nodes.eraseIdx i) T.held) :=
    allocated_liveOccurrences.mpr ⟨fun n hn => hnodes n (List.mem_of_mem_eraseIdx hn), hheld⟩
  exact (accountsWithin P T.held depth).moments hP (hT.get hi) hothers

theorem Session.Allocated.hold {σs : List Substitution} (hT : T.Allocated)
    (hσs : ∀ σ ∈ σs, T.vocabulary.Allocated σ.occurrences) :
    Session.Allocated { T with held := T.held ++ σs } := by
  obtain ⟨hnodes, hheld⟩ := allocated_liveOccurrences.mp hT
  exact allocated_liveOccurrences.mpr ⟨hnodes, List.forall_mem_append.mpr ⟨hheld, hσs⟩⟩

/-- Whatever is done with a node leaves a session of allocated variables, the new solution
included. -/
theorem Session.Allocated.after {u u' : Usage} {deed : Deed} (hT : T.Allocated)
    (hi : T.nodes[i]? = some u.node) (hV : u.vocabulary = T.vocabulary)
    (h : u.Does P .allocating deed u') : (T.after i deed u').Allocated := by
  have hnode := hT.get hi
  rw [← hV] at hnode
  cases h with
  | ask hs =>
    have htakes := takes_of_next hs
    obtain ⟨hnode', hout⟩ := Vocabulary.allocated_append.mp (htakes.allocated hnode)
    have hstepped := (hT.mono (hV ▸ htakes.varCount_le)).set (i := i) hnode'
    refine hstepped.hold ?_
    intro σ hσ
    cases houtcome : Step.outcome _ with
    | solution τ =>
      rw [houtcome] at hσ hout
      obtain rfl := List.mem_singleton.mp hσ
      exact hout
    | exhausted => simp [houtcome, Deed.solutions] at hσ
    | failed e => simp [houtcome, Deed.solutions] at hσ
  | give hθ =>
    have hcount := (congrArg Vocabulary.varCount hV).ge
    have hreset := (hT.mono hcount).set (i := i) (Node.allocated_reset hnode hθ)
    exact hreset.hold (by simp [Deed.solutions])
  | wait hgrown =>
    have hlater := (hT.mono (hV ▸ hgrown)).set (i := i) (hnode.mono hgrown)
    exact hlater.hold (by simp [Deed.solutions])

/-- What every session keeps, by induction over what it does. -/
structure Session.Clean (P : Program) (T : Session) (history : List Moment) : Prop where
  known : P.KnownIn T.vocabulary
  allocated : T.Allocated
  past : Moment.Past P T.vocabulary.varCount history

theorem Session.Clean.call (h : T.Clean P history) (hi : T.nodes[i]? = some node) (depth : ℕ)
    (J : Journal) :
    Moment.Past P (T.vocabulary.varCount + ((T.moments P i node depth J).map Moment.added).sum)
      (history ++ T.moments P i node depth J) := by
  have haccount : Moment.Account P T.vocabulary (T.moments P i node depth J) _ :=
    h.allocated.account h.known hi
  refine h.past.append haccount.past ?_ (Nat.le_add_right _ _)
  intro m hm
  exact (haccount.follow.bounds m hm).1

theorem Session.Reaches.clean (hP : P.KnownIn S.vocabulary) (hS : S.Allocated)
    (h : S.Reaches P T history) : T.Clean P history := by
  induction h with
  | refl => exact ⟨hP, hS, by simp, List.Pairwise.nil, by simp⟩
  | start _ _ _ hgoal hθ hnode ih =>
    refine ⟨ih.known, ?_, ih.past⟩
    obtain ⟨hnodes, hheld⟩ := allocated_liveOccurrences.mp ih.allocated
    refine allocated_liveOccurrences.mpr ⟨?_, hheld⟩
    intro n hn
    rcases List.mem_append.mp hn with hn | hn
    · exact hnodes n hn
    · obtain rfl := List.mem_singleton.mp hn
      exact Node.allocated_start hnode hgoal hθ
  | does _ _ hi hV hdoes ih =>
    have hallocated := ih.allocated.after hi hV hdoes
    cases hdoes with
    | ask hs =>
      rw [hV] at hs
      refine ⟨ih.known.mono (takes_of_next hs).varCount_le, hallocated, ?_⟩
      have hbalance := (ih.allocated.account ih.known hi).balance _ hs
      rw [Session.after, hbalance]
      exact ih.call hi _ _
    | give _ =>
      have hcount := (congrArg Vocabulary.varCount hV).ge
      simp only [Session.deedMoments, List.append_nil]
      exact ⟨ih.known.mono hcount, hallocated, ih.past.mono hcount⟩
    | wait hgrown =>
      rw [hV] at hgrown
      simp only [Session.deedMoments, List.append_nil]
      exact ⟨ih.known.mono hgrown, hallocated, ih.past.mono hgrown⟩
  | hold _ _ hσ ih => exact ⟨ih.known, ih.allocated.hold (by simpa using hσ), ih.past⟩
  | @use T _ _ u ih =>
    have hle := T.vocabulary.varCount_le_after u
    exact ⟨ih.known.mono hle, ih.allocated.mono hle, ih.past.mono hle⟩

/-- Variables are never captured. In every session that starts with allocated variables, what
is alive has allocated variables only. The history of its calls is hygienic, and stays so
in every further call, whether or not that call comes to an end. The moments leave no copy out:
every variable that a call allocates is one of theirs. -/
theorem session_hygienic (hP : P.KnownIn S.vocabulary) (hS : S.Allocated)
    (h : S.Reaches P T history) :
    T.Allocated ∧ Hygienic P history ∧
      ∀ i node, T.nodes[i]? = some node → ∀ depth J,
        Hygienic P (history ++ T.moments P i node depth J) ∧
          ∀ s, node.next P depth T.vocabulary J = some s → s.vocabulary.varCount =
            T.vocabulary.varCount + ((T.moments P i node depth J).map Moment.added).sum := by
  have hclean := h.clean hP hS
  refine ⟨hclean.allocated, hclean.past.hygienic, ?_⟩
  intro i node hi depth J
  exact ⟨(hclean.call hi depth J).hygienic,
    (hclean.allocated.account hclean.known hi).balance⟩

end Sessions

/-- A rule with a body and a fact, each with a variable. -/
def twoRules : Program := .ofList
  [.rule ⟨⟨0⟩, [.var ⟨0⟩]⟩ (.atom ⟨⟨1⟩, [.var ⟨0⟩]⟩), .fact ⟨⟨1⟩, [.app ⟨2⟩ [.var ⟨0⟩]]⟩]

/-- Nothing but the variable that the rules and the goals share. -/
def newSession : Session := ⟨[], [], { varNames := #[⟨3⟩] }⟩

/-- What the first node of the session answers. -/
def firstSolution : Substitution :=
  (Substitution.empty.add ⟨0⟩ (.term (.var ⟨1⟩))).add ⟨1⟩ (.term (.app ⟨2⟩ [.var ⟨3⟩]))

/-- Two nodes for one goal, the second under the solution of the first, and both asked: six
copies are made in two calls. -/
theorem session_hygienic_newSession :
    ∃ T history, newSession.Reaches twoRules T history ∧ T.nodes.length = 2 ∧
      T.held.length = 2 ∧ T.held.head? = some firstSolution ∧
        (history.filterMap Moment.copied).length = 6 ∧ T.Allocated ∧
          Hygienic twoRules history := by
  have hstart := Session.Reaches.start (P := twoRules) (.atom ⟨⟨0⟩, [.var ⟨0⟩]⟩) .empty
    (.refl (S := newSession)) (by decide) (by decide) rfl
  have hnext := hstart.ask 0 10 .closed rfl rfl
  have hagain := hnext.start (.atom ⟨⟨0⟩, [.var ⟨0⟩]⟩) firstSolution (by decide) (by decide) rfl
  have hlast := hagain.ask 1 10 .closed rfl rfl
  have h := session_hygienic (by decide) (by decide) hlast
  exact ⟨_, _, hlast, rfl, rfl, rfl, by decide, h.1, h.2.1⟩

end HornResolution
