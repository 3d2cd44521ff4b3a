import HornResolution.Proofs.Lockstep
import HornResolution.Proofs.Relabelling

/-!
# Searches that share a vocabulary do not disturb each other

A node may be asked while other things are done with its vocabulary: names are interned,
variables are declared, other nodes are asked. The copies of rules that it makes have other
variables then, and nothing else is different. One injective map of the variables, which
keeps all that were allocated before, takes the answers of the node alone to its answers
among all the others.
-/

namespace HornResolution

section Matching

variable {P : Program} {π : Var → Var} {V W : Vocabulary}

/-- Two vocabularies that know the rules, such that the map takes what the first one
allocates next to what the second one does. -/
structure Aligned (P : Program) (π : Var → Var) (V W : Vocabulary) : Prop where
  known : P.KnownIn V
  known' : P.KnownIn W
  shift : ∀ k, π ⟨V.varCount + k⟩ = ⟨W.varCount + k⟩

/-- Both vocabularies make copies of a rule that are the same up to the map, and stay aligned. -/
theorem Aligned.exists_copies (h : Aligned P π V W) {rule : Clause} (hrule : rule ∈ P.clauses) :
    ∃ copy V' W', rule.standardizeApart V = (.ok copy, V') ∧
      rule.standardizeApart W = (.ok (copy.bind (relabelling π)), W') ∧ Aligned P π V' W' := by
  obtain ⟨copy, V', hcopy⟩ := Clause.exists_copy (h.known rule hrule)
  obtain ⟨copy', W', hcopy'⟩ := Clause.exists_copy (h.known' rule hrule)
  obtain ⟨hV', r, hr, hfresh⟩ := Clause.standardizeApart_ok hcopy
  obtain ⟨hW', r', hr', hfresh'⟩ := Clause.standardizeApart_ok hcopy'
  have hbind : copy' = copy.bind (relabelling π) := by
    rw [hr, hr', Clause.bind_rename]
    apply Clause.bind_congr
    intro v hv
    have hv := Clause.mem_vars.mpr hv
    rw [relabelling, hfresh v hv, h.shift, ← hfresh' v hv]
  refine ⟨copy, V', W', hcopy, hbind ▸ hcopy', ?_, ?_, ?_⟩
  · exact h.known.mono (Clause.varCount_le_standardizeApart hcopy)
  · exact h.known'.mono (Clause.varCount_le_standardizeApart hcopy')
  · intro k
    rw [hV', hW', Nat.add_assoc, Nat.add_assoc]
    exact h.shift _

namespace Correspondence

/-- The second search has what a map of the variables makes of the first. -/
structure Relabels (C : Correspondence) (π : Var → Var) : Prop where
  terms : C.terms = relabelling π
  substitutions : ∀ σ τ, C.substitutions σ τ ↔ τ = σ.relabel π

namespace Relabels

variable {C : Correspondence}

theorem node_eq (hC : C.Relabels π) {node node' : Node} (h : C.Nodes node node') :
    node' = node.relabel π := by
  induction h with
  | ready goal i h => rw [(hC.substitutions _ _).mp h, hC.terms, Node.relabel]
  | inBody goal i h _ ih => rw [(hC.substitutions _ _).mp h, hC.terms, ih, Node.relabel]
  | single _ ih => rw [ih, Node.relabel]
  | opening remaining _ ih => rw [ih, hC.terms, Node.relabel]
  | paired remaining _ _ ihfirst ihrest => rw [ihfirst, ihrest, hC.terms, Node.relabel]

theorem nodes (hC : C.Relabels π) (node : Node) : C.Nodes node (node.relabel π) := by
  induction node with
  | ready goal i parent =>
    rw [Node.relabel, ← hC.terms]
    exact .ready goal i ((hC.substitutions _ _).mpr rfl)
  | inBody goal i parent body ih =>
    rw [Node.relabel, ← hC.terms]
    exact .inBody goal i ((hC.substitutions _ _).mpr rfl) ih
  | single first ih => exact .single ih
  | opening first remaining ih =>
    rw [Node.relabel, ← hC.terms]
    exact .opening remaining ih
  | paired first remaining rest ihfirst ihrest =>
    rw [Node.relabel, ← hC.terms]
    exact .paired remaining ihfirst ihrest

theorem outcome_eq (hC : C.Relabels π) {o o' : Outcome} (h : o.Matches C.substitutions o') :
    o' = o.relabel π := by
  cases h with
  | solution h => exact congrArg Outcome.solution ((hC.substitutions _ _).mp h)
  | exhausted => rfl
  | failed e => rfl

end Relabels

/-- The relabelled search. Its journals may have names for other events. -/
def relabelled (P : Program) (π : Var → Var) : Correspondence where
  terms := relabelling π
  substitutions σ τ := τ = σ.relabel π
  vocabularies := Aligned P π
  journals _ _ := True
  lossy := True

theorem relabels_relabelled (P : Program) (π : Var → Var) : (relabelled P π).Relabels π :=
  ⟨rfl, fun _ _ => Iff.rfl⟩

theorem relabelled_sound (P : Program) (hπ : π.Injective) : (relabelled P π).Sound P P where
  unifies := by
    rintro σ _ p q rfl
    show (relabelled P π).Unifiers _ (unify (.atom (p.bind (relabelling π)))
      (.atom (q.bind (relabelling π))) (σ.relabel π))
    rw [unify_atoms_relabel hπ]
    cases unify (.atom p) (.atom q) σ with
    | ok τ => exact .ok rfl
    | error clash => exact .error clash _
  rules := by
    intro i
    cases hrule : P.get? i with
    | none => exact .none
    | some rule =>
      refine .some fun V W h => ?_
      obtain ⟨copy, V', W', hcopy, hcopy', h'⟩ := h.exists_copies (Array.mem_of_getElem? hrule)
      rw [hcopy, hcopy']
      exact ⟨.ok rfl, h'⟩
  report := by
    intro J J' V W E E' _ _ _
    cases J.report V E with
    | none => exact .left trivial _
    | some _ =>
      cases J'.report W E' with
      | none => exact .right trivial _
      | some _ => exact .some trivial

end Correspondence

end Matching

/-- One call of a node: what is done with the vocabulary since the last one, the depth of the
call and its journal. -/
structure Turn where
  uses : List Vocabulary.Use
  depth : ℕ
  journal : Journal

/-- The same call when nothing else is done with the vocabulary. -/
def Turn.alone (t : Turn) : Turn := { t with uses := [] }

/-- Whether the call is logged and has come to an event that it could not write down. -/
def Turn.unwritten (t : Turn) (o : Outcome) : Bool :=
  match t.journal with
  | .closed => false
  | .opened _ => o = .failed .unnamed

/-- The answers of a node, call by call, up to a call that has none. -/
def Node.answers (P : Program) : List Turn → Node → Vocabulary → List Outcome
  | [], _, _ => []
  | t :: turns, node, V =>
    match node.next P t.depth (V.afterAll t.uses) t.journal with
    | none => []
    | some s =>
      if t.unwritten s.outcome then []
      else s.outcome :: answers P turns s.node s.vocabulary

theorem Turn.unwritten_alone (t : Turn) (o : Outcome) : t.alone.unwritten o = t.unwritten o := by
  rw [unwritten, unwritten, alone]

theorem Turn.unwritten_relabel (t : Turn) (π : Var → Var) (o : Outcome) :
    t.unwritten (o.relabel π) = t.unwritten o := by
  rw [unwritten, unwritten]
  simp only [Outcome.relabel_eq_failed]

theorem Turn.unwritten_of_next {P : Program} {node : Node} {V : Vocabulary} {s : Step} (t : Turn)
    (h : node.next P t.depth V t.journal = some s) (hs : s.outcome = .failed .unnamed) :
    t.unwritten s.outcome = true := by
  rw [unwritten]
  cases hJ : t.journal with
  | closed => exact absurd hs ((takes_of_next h).unlogged hJ).2
  | opened latest => exact decide_eq_true hs

/-- The answers of the second run are those of the first, relabelled: wherever both runs have
one, and throughout if no call is logged. -/
structure Agree (π : Var → Var) (turns : List Turn) (alone among : List Outcome) : Prop where
  both : ∀ (i : ℕ) (o o' : Outcome), alone[i]? = some o → among[i]? = some o' →
    o' = o.relabel π
  unlogged : (∀ t ∈ turns, t.journal = .closed) → among = alone.map (Outcome.relabel π)

namespace Agree

variable {π : Var → Var} {turns : List Turn} {os os' : List Outcome}

theorem nil (π : Var → Var) (turns : List Turn) : Agree π turns [] [] :=
  ⟨by simp, fun _ => rfl⟩

theorem ended (h : ¬ ∀ t ∈ turns, t.journal = .closed) (hnil : os = [] ∨ os' = []) :
    Agree π turns os os' := by
  refine ⟨?_, fun hclosed => absurd hclosed h⟩
  intro i o o' ho ho'
  rcases hnil with rfl | rfl
  · simp at ho
  · simp at ho'

theorem cons (h : Agree π turns os os') (t : Turn) (o : Outcome) :
    Agree π (t :: turns) (o :: os) (o.relabel π :: os') := by
  constructor
  · intro i a a' ha ha'
    cases i with
    | zero =>
      obtain rfl := Option.some.inj ha
      exact (Option.some.inj ha').symm
    | succ i => exact h.both i a a' ha ha'
  · intro hclosed
    rw [List.map_cons, h.unlogged fun t ht => hclosed t (List.mem_cons_of_mem _ ht)]

end Agree

section Realignment

variable {P : Program} {π : Var → Var} {V V' W W' : Vocabulary}

/-- The map with what the first vocabulary allocates next taken to what the second one does. -/
def realign (π : Var → Var) (V W : Vocabulary) (v : Var) : Var :=
  if V.knowsVar v then π v else ⟨W.varCount + (v.id - V.varCount)⟩

theorem realign_of_knows {v : Var} (h : V.knowsVar v = true) : realign π V W v = π v := if_pos h

/-- The variables that the first vocabulary knows are taken to ones that the second one does. -/
def Maps (π : Var → Var) (V W : Vocabulary) : Prop :=
  ∀ v, V.knowsVar v = true → W.knowsVar (π v) = true

theorem Maps.mono (h : Maps π V W) (hle : W.varCount ≤ W'.varCount) : Maps π V W' :=
  fun v hv => Vocabulary.knowsVar_of_le hle (h v hv)

theorem realign_injOn (hπ : π.Injective) {s : Set Var}
    (hmaps : ∀ v ∈ s, V.knowsVar v = true → W.knowsVar (π v) = true) :
    Set.InjOn (realign π V W) s := by
  have hapart : ∀ v ∈ s, ∀ w : Var, V.knowsVar v = true →
      π v ≠ ⟨W.varCount + (w.id - V.varCount)⟩ := by
    intro v hs w hv h
    have hlt := Vocabulary.knowsVar_iff.mp (hmaps v hs hv)
    rw [h] at hlt
    exact absurd hlt (Nat.not_lt.mpr (Nat.le_add_right _ _))
  intro v hvs w hws h
  unfold realign at h
  split_ifs at h with hv hw hw
  · exact hπ h
  · exact absurd h (hapart v hvs w hv)
  · exact absurd h.symm (hapart w hws v hw)
  · obtain ⟨n⟩ := v
    obtain ⟨m⟩ := w
    simp only [Vocabulary.knowsVar_iff, Var.mk.injEq] at hv hw h ⊢
    omega

theorem realign_injective (hπ : π.Injective) (hmaps : Maps π V W) :
    (realign π V W).Injective :=
  Set.injOn_univ.mp (realign_injOn hπ fun v _ => hmaps v)

theorem aligned_realign (hV : P.KnownIn V) (hW : P.KnownIn W) (π : Var → Var) :
    Aligned P (realign π V W) V W := by
  refine ⟨hV, hW, ?_⟩
  intro k
  have hnew : ¬ V.knowsVar ⟨V.varCount + k⟩ = true := by simp [Vocabulary.knowsVar]
  rw [realign, if_neg hnew, Nat.add_sub_cancel_left]

theorem Aligned.maps (h : Aligned P π V W) (h' : Aligned P π V' W')
    (hle : V.varCount ≤ V'.varCount) (hmaps : Maps π V W) : Maps π V' W' := by
  obtain ⟨k, hk⟩ := Nat.exists_eq_add_of_le hle
  have hW' : W'.varCount = W.varCount + k := by
    have hend := h'.shift 0
    rw [hk, Nat.add_zero, h.shift k] at hend
    exact (congrArg Var.id hend).symm
  intro v hv
  rw [Vocabulary.knowsVar_iff] at hv ⊢
  by_cases hold : V.knowsVar v = true
  · have := Vocabulary.knowsVar_iff.mp (hmaps v hold)
    omega
  · obtain ⟨j, hj⟩ := Nat.exists_eq_add_of_le
      (Nat.not_lt.mp fun hlt => hold (Vocabulary.knowsVar_iff.mpr hlt))
    obtain rfl : v = ⟨V.varCount + j⟩ := by
      rw [← hj]
    rw [h.shift j]
    simp only at hv ⊢
    omega

end Realignment

section Runs

variable {P : Program} {π : Var → Var} {V W : Vocabulary} {node : Node}

/-- A run in which the node is alone and a run among others, so far the same up to the map. -/
structure Carries (P : Program) (π : Var → Var) (node : Node) (V W : Vocabulary) : Prop where
  injective : π.Injective
  known : P.KnownIn V
  known' : P.KnownIn W
  allocated : V.Allocated node.occurrences
  maps : Maps π V W

/-- Whatever was done in between, a map that agrees with the old one on what was known makes
the next calls match. -/
theorem Carries.exists_calls (h : Carries P π node V W) (t : Turn) :
    ∃ π' : Var → Var, π'.Injective ∧ (∀ v, V.knowsVar v = true → π' v = π v) ∧
      Aligned P π' V (W.afterAll t.uses) ∧
      (Correspondence.relabelled P π').Calls (node.next P t.depth V t.journal)
        ((node.relabel π).next P t.depth (W.afterAll t.uses) t.journal) := by
  have hle := W.varCount_le_afterAll t.uses
  have hinj := realign_injective h.injective (h.maps.mono hle)
  have haligned := aligned_realign h.known (h.known'.mono hle) π
  refine ⟨realign π V (W.afterAll t.uses), hinj, fun v hv => realign_of_knows hv, haligned, ?_⟩
  rw [Node.relabel_congr fun v hv => (realign_of_knows (h.allocated v hv)).symm]
  exact ((Correspondence.relabelled_sound P hinj).within t.depth).next
    ((Correspondence.relabels_relabelled P _).nodes node) haligned trivial

theorem Carries.step {π' : Var → Var} (h : Carries P π node V W) {t : Turn} {s s' : Step}
    (hinj : π'.Injective) (hsame : ∀ v, V.knowsVar v = true → π' v = π v)
    (haligned : Aligned P π' V (W.afterAll t.uses))
    (hmirror : (Correspondence.relabelled P π').Steps s s')
    (hs : node.next P t.depth V t.journal = some s) :
    Carries P π' s.node s.vocabulary s'.vocabulary := by
  have htakes := takes_of_next hs
  have hmaps : Maps π' V (W.afterAll t.uses) := by
    intro v hv
    rw [hsame v hv]
    exact h.maps.mono (W.varCount_le_afterAll t.uses) v hv
  refine ⟨hinj, hmirror.vocabulary.known, hmirror.vocabulary.known', ?_, ?_⟩
  · exact (Vocabulary.allocated_append.mp (htakes.allocated h.allocated)).1
  · exact haligned.maps hmirror.vocabulary htakes.varCount_le hmaps

/-- The answers agree, by induction over the calls: each call extends the map to the variables
that were allocated for it. -/
theorem Carries.exists_agree (h : Carries P π node V W) (turns : List Turn) :
    ∃ π' : Var → Var, π'.Injective ∧ (∀ v, V.knowsVar v = true → π' v = π v) ∧
      Agree π' turns (node.answers P (turns.map Turn.alone) V)
        ((node.relabel π).answers P turns W) := by
  induction turns generalizing π node V W with
  | nil => exact ⟨π, h.injective, fun v _ => rfl, .nil π []⟩
  | cons t turns ih =>
    obtain ⟨π₁, hinj, hsame, haligned, hmatch⟩ := h.exists_calls t
    have hlogged : ∀ {node V s}, Node.next P t.depth node V t.journal = some s →
        s.outcome = .failed .unnamed → ¬ ∀ t' ∈ t :: turns, t'.journal = .closed := by
      intro node V s hs hout hclosed
      exact ((takes_of_next hs).unlogged (hclosed t (by simp))).2 hout
    simp only [List.map_cons, Node.answers, t.unwritten_alone]
    simp only [Turn.alone, Vocabulary.afterAll_nil]
    generalize hs : Node.next P t.depth node V t.journal = r at hmatch ⊢
    generalize hs' : Node.next P t.depth (node.relabel π) (W.afterAll t.uses) t.journal = r'
      at hmatch ⊢
    cases hmatch with
    | none => exact ⟨π₁, hinj, hsame, .nil π₁ _⟩
    | left _ hout _ =>
      refine ⟨π₁, hinj, hsame, .ended (hlogged hs hout) (Or.inl ?_)⟩
      exact if_pos (t.unwritten_of_next hs hout)
    | right _ hout _ =>
      refine ⟨π₁, hinj, hsame, .ended (hlogged hs' hout) (Or.inr ?_)⟩
      exact if_pos (t.unwritten_of_next hs' hout)
    | @some s s' hmirror =>
      have htakes := takes_of_next hs
      have hout := (Vocabulary.allocated_append.mp (htakes.allocated h.allocated)).2
      obtain ⟨π₂, hinj₂, hsame₂, hagree⟩ := ih (h.step hinj hsame haligned hmirror hs)
      refine ⟨π₂, hinj₂, ?_, ?_⟩
      · intro v hv
        rw [hsame₂ v (Vocabulary.knowsVar_of_le htakes.varCount_le hv), hsame v hv]
      · have hrelabel : s.outcome.relabel π₁ = s.outcome.relabel π₂ :=
          Outcome.relabel_congr fun v hv => (hsame₂ v (hout v hv)).symm
        have houtcome := (Correspondence.relabels_relabelled P π₁).outcome_eq hmirror.outcome
        have hnode := (Correspondence.relabels_relabelled P π₁).node_eq hmirror.node
        simp only [houtcome, hnode, hrelabel, t.unwritten_relabel]
        by_cases hunwritten : t.unwritten s.outcome = true
        · rw [if_pos hunwritten, if_pos hunwritten]
          exact .nil π₂ _
        · rw [if_neg hunwritten, if_neg hunwritten]
          exact hagree.cons t s.outcome

end Runs

/-- Interleaving does not change the answers of a node. Whatever is done with the vocabulary
between its calls, one injective map of the variables, which keeps every variable that was
allocated when the node was started, takes each answer it gives alone to the answer it gives
among the others. If the calls are not logged, neither run has an answer that the other
lacks. -/
theorem answers_interleaved {P : Program} {goal : Formula} {θ : Substitution} {V : Vocabulary}
    {node : Node} (hP : P.KnownIn V) (hgoal : V.Allocated goal.occurrences)
    (hθ : V.Allocated θ.occurrences) (hnode : Node.start θ goal = .ok node)
    (turns : List Turn) :
    ∃ π : Var → Var, π.Injective ∧ (∀ v, V.knowsVar v = true → π v = v) ∧
      Agree π turns (node.answers P (turns.map Turn.alone) V) (node.answers P turns V) := by
  have hcarries : Carries P id node V V :=
    ⟨Function.injective_id, hP, hP, Node.allocated_start hnode hgoal hθ, fun _ hv => hv⟩
  obtain ⟨π, hinj, hsame, hagree⟩ := hcarries.exists_agree turns
  rw [Node.relabel_id] at hagree
  exact ⟨π, hinj, hsame, hagree⟩

/-- Two facts with a variable each, which is the variable of the goal. -/
def sharedRules : Program := .ofList
  [.fact ⟨⟨0⟩, [.app ⟨1⟩ [.var ⟨0⟩]]⟩, .fact ⟨⟨0⟩, [.app ⟨2⟩ [.var ⟨0⟩]]⟩]

def sharedGoal : Formula := .atom ⟨⟨0⟩, [.var ⟨0⟩]⟩

/-- Three calls. A variable is declared before the first, and another node for the same goal is
asked before the second. -/
def sharedTurns : List Turn :=
  [⟨[.declare "x"], 5, .closed⟩,
    ⟨[.coin "c", .ask sharedRules (.ready ⟨⟨0⟩, [.var ⟨0⟩]⟩ 0 .empty) 5 .closed], 5, .closed⟩,
    ⟨[], 5, .closed⟩]

/-- The answers under which the variable of the goal is bound to the two facts in turn, with
the given variables in their copies. -/
def sharedAnswers (first second : ℕ) : List Outcome :=
  [.solution (.add .empty ⟨0⟩ (.term (.app ⟨1⟩ [.var ⟨first⟩]))),
    .solution (.add .empty ⟨0⟩ (.term (.app ⟨2⟩ [.var ⟨second⟩]))), .exhausted]

theorem answers_interleaved_sharedTurns :
    (Node.ready ⟨⟨0⟩, [.var ⟨0⟩]⟩ 0 .empty).answers sharedRules (sharedTurns.map Turn.alone)
        { varNames := #[⟨3⟩] } = sharedAnswers 1 2 ∧
      (Node.ready ⟨⟨0⟩, [.var ⟨0⟩]⟩ 0 .empty).answers sharedRules sharedTurns
        { varNames := #[⟨3⟩] } = sharedAnswers 2 4 ∧
      ∃ π : Var → Var, π.Injective ∧ π ⟨0⟩ = ⟨0⟩ ∧
        sharedAnswers 2 4 = (sharedAnswers 1 2).map (Outcome.relabel π) := by
  obtain ⟨π, hinj, hsame, hagree⟩ :=
    answers_interleaved (P := sharedRules) (V := { varNames := #[⟨3⟩] }) (θ := .empty)
      (by decide) (show Vocabulary.Allocated _ sharedGoal.occurrences by decide) (by decide) rfl
      sharedTurns
  exact ⟨rfl, rfl, π, hinj, hsame ⟨0⟩ rfl, hagree.unlogged (by simp [sharedTurns])⟩

end HornResolution
